import JevMachO.XNUBoot.Fetch
import JevMachO.XNUBoot.Landing

/-! What the kernel starts with: the loader's copies, the stub that moves them, and the caches the
kernel is fetched through. The stub looks after the caches itself, so what its stores moved is what
the processor fetches at the entry point. -/
namespace JevMachO
open Lib Caches

namespace XNUBoot
open M1N1

variable {env : Env} {w w' : World} {p : Prepared} {t : DTree} {bootArgsBase : UInt64}

/-! ### The entry point -/

theorem checks_of_prepared
    (h : loadAndPrepXnuKernelcache env w bootArgsBase = .ok (.prepared p, w')) :
    (checks env w.mem bootArgsBase).run = .ok (.ok p.checked) := by
  obtain ⟨r, hr, h⟩ := bind_eq_ok.mp h
  cases r with
  | error why => cases h
  | ok c =>
    obtain ⟨sepfw, -, h⟩ := bind_eq_ok.mp h
    obtain ⟨mem₁, -, h⟩ := bind_eq_ok.mp h
    obtain ⟨found, -, h⟩ := bind_eq_ok.mp h
    cases found with
    | none => cases h
    | some baProp =>
      obtain ⟨⟨mem₃, k⟩, -, h⟩ := bind_eq_ok.mp h
      obtain ⟨⟨mem₄, assigned⟩, -, h⟩ := bind_eq_ok.mp h
      obtain ⟨⟨mem₅, hasNoDTPatches⟩, -, h⟩ := bind_eq_ok.mp h
      obtain ⟨mem₆, -, h⟩ := bind_eq_ok.mp h
      cases h
      exact hr

/-- The entry point is as far behind the base the kernel is moved to as the program counter of the
payload's thread is behind the kernel's lowest address. -/
theorem checks_entryPc {mem : Bytes} {c : Checked}
    (h : (checks env mem bootArgsBase).run = .ok (.ok c)) :
    ∃ thread pc, MachO.unixThread mem c.payloadBase.toNat = .ok (some thread) ∧
      UnixThreadCommand.pc mem thread = .ok pc ∧
      c.entryPc = c.machoBase + (pc - c.kcVmaddrRange.min) := by
  obtain ⟨-, -, h⟩ := bailing_bind.mp h
  obtain ⟨virt, -, h⟩ := bailing_bind.mp h
  obtain ⟨phys, -, h⟩ := bailing_bind.mp h
  obtain ⟨tree, -, h⟩ := bailing_bind.mp h
  obtain ⟨chosen, -, h⟩ := bailing_bind.mp h
  obtain ⟨args, -, h⟩ := bailing_bind.mp h
  obtain ⟨-, -, h⟩ := bailing_bind.mp h
  obtain ⟨memoryMap, -, h⟩ := bailing_bind.mp h
  obtain ⟨-, -, h⟩ := bailing_bind.mp h
  obtain ⟨mach, -, h⟩ := bailing_bind.mp h
  obtain ⟨machReg, -, h⟩ := bailing_bind.mp h
  obtain ⟨pyld, -, h⟩ := bailing_bind.mp h
  obtain ⟨pyldReg, -, h⟩ := bailing_bind.mp h
  obtain ⟨good, -, h⟩ := bailing_bind.mp h
  obtain ⟨-, -, h⟩ := bailing_bind.mp h
  obtain ⟨vm, -, h⟩ := bailing_bind.mp h
  obtain ⟨file, -, h⟩ := bailing_bind.mp h
  obtain ⟨u, -, h⟩ := bailing_bind.mp h
  obtain ⟨u', -, h⟩ := bailing_bind.mp h
  obtain ⟨thread, hthread, h⟩ := bailing_bind.mp h
  obtain ⟨pc, hpc, h⟩ := bailing_bind.mp h
  obtain ⟨sepfw, -, h⟩ := bailing_bind.mp h
  cases h
  exact ⟨thread, pc, orBail_eq_ok.mp hthread, bailing_lift.mp hpc, rfl⟩

/-! ### The moved image -/

/-- Where the image comes from and whereto, byte by byte. -/
structure Sources (w w' : World) (p : Prepared) (t : DTree) (mem : Bytes) : Prop where
  changed : ChangedIn p.moved w'.mem mem
  kernel : ∀ i < p.checked.kcVmaddrRange.size.toNat,
    p.checked.payloadBase.toNat + i ∉ DTree.range (p.checked.dt, t) →
    mem[p.checked.machoBase.toNat + i]? = w.mem[p.checked.payloadBase.toNat + i]?
  bootArgs : ∀ i < p.copies.bootArgs.size.toNat,
    mem[w'.nextStage.newBootargsAddr.toNat + i]? = w.mem[p.copies.bootArgs.base.toNat + i]?

theorem getElem?_of_load {mem mem' bs : Bytes} {o o' n i : ℕ} (h : load mem o n = .ok bs)
    (h' : load mem' o' n = .ok bs) (hi : i < n) : mem[o + i]? = mem'[o' + i]? := by
  obtain ⟨-, hlen, hat⟩ := load_eq_ok h
  obtain ⟨-, -, hat'⟩ := load_eq_ok h'
  rw [hat.getElem? (by omega), hat'.getElem? (by omega)]

theorem exists_sources
    (hrun : loadAndPrepXnuKernelcache env w bootArgsBase = .ok (.prepared p, w'))
    (hp : Placement env w p t)
    (hcommands : Disjoint (MachO.commandBytes w.mem p.checked.payloadBase.toNat)
      (DTree.range (p.checked.dt, t) ∪ p.copied)) :
    ∃ mem, xnuJumpStub w' = .ok mem ∧ Sources w w' p t mem := by
  obtain ⟨mem₁, mem₂, mem₃, mem₄, hs⟩ := prepared_eq_ok hrun
  obtain ⟨xs, hsub, hfound, hsreg, hbreg, hbread⟩ := mapFound_eq hs hp
  obtain ⟨hc₃, -, ⟨bootArgs, hbootArgs, hbootArgs₃⟩, hin⟩ := copied_eq hs hp
  obtain ⟨lcs, -, hc₄, -⟩ := hs.edited hp hcommands hsub hfound hsreg hbreg hbread
  have hd := hp.tree_copied.mono_left hsub
  have ha := addresses hs hp
  have hsa := ha.sepfw
  have hba := ha.bootArgs
  have hst := ha.stub
  have htotal := ha.total
  have hlt := p.copies.stubCopyBase.toNat_lt
  have hlen := hc₄.1
  have hargs := hs.nextStage
  obtain ⟨mem, hstub, hc, hmoved⟩ := xnuJumpStub_moves (w := w') (by rw [hargs]; rfl)
    (by rw [hargs]; rfl) (by rw [hargs]; rfl) hp.total_pos hp.dvd_total
    (UInt64.le_iff_toNat_le.mp hp.machoBase_le) (by omega) (by omega)
  refine ⟨mem, hstub, hc, fun i hi hout => ?_, fun i hi => ?_⟩
  · have hncopied : p.checked.payloadBase.toNat + i ∉ p.copied := by
      rw [Prepared.copied, Set.mem_Ico]
      omega
    have h₄ := hc₄.2 _ fun h => hout (hsub h)
    have h₃ := hc₃.2 _ hncopied
    have hmove := hmoved i (show i < p.total by omega)
    exact hmove.trans (h₄.trans h₃)
  · have hbase : w'.nextStage.newBootargsAddr.toNat = p.checked.machoBase.toNat +
        (p.checked.kcVmaddrRange.size.toNat + p.copies.sepfw.size.toNat) := by
      rw [hargs]
      exact Checked.afterStub_toNat (hba.trans (by rw [hsa, Nat.add_assoc])) hp.machoBase_le
    have hcopied : p.copies.baCopyBase.toNat + i ∉ tableRange p.checked.memoryMap xs := by
      refine fun h => Set.disjoint_left.mp hd h ?_
      rw [Prepared.copied, Set.mem_Ico]
      omega
    have hmove := hmoved (p.checked.kcVmaddrRange.size.toNat + p.copies.sepfw.size.toNat + i)
      (show _ < p.total by omega)
    have haddr : p.checked.payloadBase.toNat +
        (p.checked.kcVmaddrRange.size.toNat + p.copies.sepfw.size.toNat + i) =
        p.copies.baCopyBase.toNat + i := by omega
    rw [haddr, hc₄.2 _ hcopied, getElem?_of_load hbootArgs₃ hbootArgs hi] at hmove
    rw [hbase, Nat.add_assoc]
    exact hmove

/-! ### What the processor finds -/

/-- The stub jumps to the moved place of the thread's program counter. Whatever the processor has
done to its caches by itself, it fetches the kernel's bytes from everywhere but a last line that
no pair of words starts in, and it loads the boot arguments and the edited device tree. -/
structure Entered (w w' : World) (p : Prepared) (t : DTree) (s : Caches ℕ UInt8)
    (is : List (Instr ℕ UInt8)) : Prop where
  entry : ∃ thread pc, MachO.unixThread w.mem p.checked.payloadBase.toNat = .ok (some thread) ∧
    UnixThreadCommand.pc w.mem thread = .ok pc ∧
    ((pc - p.checked.kcVmaddrRange.min).toNat < p.checked.kcVmaddrRange.size.toNat →
      w'.nextStage.imageEntry.toNat =
        p.checked.machoBase.toNat + (pc - p.checked.kcVmaddrRange.min).toNat)
  kernel : ∀ i < p.checked.kcVmaddrRange.size.toNat,
    p.checked.payloadBase.toNat + i ∉ DTree.range (p.checked.dt, t) →
    lineOf (p.checked.machoBase.toNat + i) ≤ lineOf (p.checked.machoBase.toNat + p.total - 16) →
    ∀ v, w.mem[p.checked.payloadBase.toNat + i]? = some v →
      fetchable lineOf s is (p.checked.machoBase.toNat + i) = {v}
  bootArgs : ∀ s', Runs lineOf s is s' → ∀ i < p.copies.bootArgs.size.toNat,
    ∀ v, w.mem[p.copies.bootArgs.base.toNat + i]? = some v →
      s'.data (w'.nextStage.newBootargsAddr.toNat + i) = v
  tree : ∀ s', Runs lineOf s is s' → ∀ o ∈ DTree.range (p.checked.dt, t),
    ∀ v, w'.mem[o]? = some v → s'.data o = v

end XNUBoot
end JevMachO

import JevMachO.XNUBoot.Bail
import JevMachO.XNUBoot.MemoryMap
import JevMachO.XNUBoot.Stub

/-! Where everything is when the stub has run. The copies behind the kernel are made in ascending
order, the registers name the places the image is moved to, and the stub moves the image with
the copies down to these places. -/
namespace JevMachO
open Lib

namespace XNUBoot

/-! ### The checks -/

/-- What the checks have found in memory. -/
structure Found (mem : Bytes) (c : Checked) : Prop where
  memoryMap : ∃ chosen, DTNode.childNamed mem c.dt DT.chosenLit = .ok (some chosen) ∧
    DTNode.childNamed mem chosen memoryMapLit = .ok (some c.memoryMap)
  vmaddrRange : MachO.vmaddrRange mem c.payloadBase.toNat = .ok c.kcVmaddrRange
  fileRange : ∃ r, MachO.fileRange mem c.payloadBase.toNat = .ok r ∧ r.min = 0 ∧
    r.size = c.kcVmaddrRange.size
  sepfw : DTNode.propertyNamed mem c.memoryMap sepfwLit = .ok (some c.sepfwProp)
  sepfwReg : DTProp.asReg mem c.sepfwProp = .ok c.sepfwReg

theorem regNamed_eq_ok {mem name : Bytes} {memoryMap : ℕ} {why : Bail} {r : ℕ × ℕ}
    (h : (regNamed mem memoryMap name why).run = .ok (.ok r)) :
    DTNode.propertyNamed mem memoryMap name = .ok (some r.1) ∧
      DTProp.asReg mem r.1 = .ok r.2 := by
  obtain ⟨p, hp, h⟩ := bailing_bind.mp h
  obtain ⟨o, ho, h⟩ := bailing_bind.mp h
  cases h
  exact ⟨orBail_eq_ok.mp hp, bailing_lift.mp ho⟩

theorem checks_eq_ok {env : Env} {mem : Bytes} {bootArgsBase : UInt64} {c : Checked}
    (h : (checks env mem bootArgsBase).run = .ok (.ok c)) : Found mem c := by
  obtain ⟨-, -, h⟩ := bailing_bind.mp h
  obtain ⟨virt, -, h⟩ := bailing_bind.mp h
  obtain ⟨phys, -, h⟩ := bailing_bind.mp h
  obtain ⟨tree, -, h⟩ := bailing_bind.mp h
  obtain ⟨chosen, hchosen, h⟩ := bailing_bind.mp h
  obtain ⟨args, -, h⟩ := bailing_bind.mp h
  obtain ⟨-, -, h⟩ := bailing_bind.mp h
  obtain ⟨memoryMap, hmap, h⟩ := bailing_bind.mp h
  obtain ⟨-, -, h⟩ := bailing_bind.mp h
  obtain ⟨mach, -, h⟩ := bailing_bind.mp h
  obtain ⟨machReg, -, h⟩ := bailing_bind.mp h
  obtain ⟨pyld, -, h⟩ := bailing_bind.mp h
  obtain ⟨pyldReg, -, h⟩ := bailing_bind.mp h
  obtain ⟨good, -, h⟩ := bailing_bind.mp h
  obtain ⟨-, -, h⟩ := bailing_bind.mp h
  obtain ⟨vm, hvm, h⟩ := bailing_bind.mp h
  obtain ⟨file, hfile, h⟩ := bailing_bind.mp h
  obtain ⟨u, hmin, h⟩ := bailing_bind.mp h
  obtain ⟨u', hsize, h⟩ := bailing_bind.mp h
  obtain ⟨thread, -, h⟩ := bailing_bind.mp h
  obtain ⟨pc, -, h⟩ := bailing_bind.mp h
  obtain ⟨sepfw, hsepfw, h⟩ := bailing_bind.mp h
  cases h
  obtain ⟨hprop, hreg⟩ := regNamed_eq_ok hsepfw
  exact {
    memoryMap := ⟨chosen, orBail_eq_ok.mp hchosen, orBail_eq_ok.mp hmap⟩
    vmaddrRange := bailing_lift.mp hvm
    fileRange := ⟨file, bailing_lift.mp hfile, eq_of_beq (bailUnless_eq_ok.mp hmin),
      eq_of_beq (bailUnless_eq_ok.mp hsize)⟩
    sepfw := hprop
    sepfwReg := hreg }

/-! ### The run -/

theorem memcpy_eq_ok {mem mem' : Bytes} {dst src n : ℕ} (h : memcpy mem dst src n = .ok mem') :
    ∃ bs, load mem src n = .ok bs ∧ ChangedIn (Set.Ico dst (dst + n)) mem mem' ∧
      load mem' dst n = .ok bs := by
  obtain ⟨bs, hbs, hst⟩ := bind_eq_ok.mp h
  have hlen := (load_eq_ok hbs).2.1
  have hc := store_changedIn hst
  have hl := load_store hst
  rw [hlen] at hc hl
  exact ⟨bs, hbs, hc, hl⟩

/-- What `copyRest` says it has done, and the two copies it has made. -/
structure RestCopied (env : Env) (mem mem₁ mem' : Bytes) (c : Checked) (k : Copies) : Prop where
  reg : DTProp.asReg mem k.baProp = .ok k.baReg
  bootArgs : DTRegister.read mem k.baReg = .ok k.bootArgs
  baCopyBase : k.baCopyBase = c.sepfwCopyBase + k.sepfw.size
  stubCopyBase : k.stubCopyBase = k.baCopyBase + k.bootArgs.size
  copy : memcpy mem k.baCopyBase.toNat k.bootArgs.base.toNat k.bootArgs.size.toNat = .ok mem₁
  stub : memcpy mem₁ k.stubCopyBase.toNat env.xnuJumpStub.toNat k.stubSize = .ok mem'

theorem copyRest_eq_ok {env : Env} {mem mem' : Bytes} {c : Checked} {sepfw : DTRegister}
    {baProp : ℕ} {k : Copies} (h : copyRest env mem c sepfw baProp = .ok (mem', k)) :
    k.sepfw = sepfw ∧ k.baProp = baProp ∧ ∃ mem₁, RestCopied env mem mem₁ mem' c k := by
  obtain ⟨baReg, hreg, h⟩ := bind_eq_ok.mp h
  obtain ⟨bootArgs, hread, h⟩ := bind_eq_ok.mp h
  obtain ⟨mem₁, hcopy, h⟩ := bind_eq_ok.mp h
  obtain ⟨stubEnd, -, h⟩ := bind_eq_ok.mp h
  obtain ⟨mem₂, hstub, h⟩ := bind_eq_ok.mp h
  obtain ⟨rfl, rfl⟩ := Prod.mk.inj (Except.ok.inj h)
  exact ⟨rfl, rfl, mem₁, hreg, hread, rfl, rfl, hcopy, hstub⟩

/-- The steps of a run that comes to its end, with the memory after each. -/
structure Steps (env : Env) (w w' : World) (p : Prepared) (mem₁ mem₂ mem₃ mem₄ : Bytes) :
    Prop where
  found : Found w.mem p.checked
  sepfw : DTRegister.read w.mem p.checked.sepfwReg = .ok p.copies.sepfw
  copySEPFW : memcpy w.mem p.checked.sepfwCopyBase.toNat p.copies.sepfw.base.toNat
    p.copies.sepfw.size.toNat = .ok mem₁
  bootArgs : DTNode.propertyNamed mem₁ p.checked.memoryMap bootArgsLit =
    .ok (some p.copies.baProp)
  copyRest : RestCopied env mem₁ mem₂ mem₃ p.checked p.copies
  editMemoryMap : editMemoryMap env.deadPrefix mem₃ p.checked p.copies = .ok (mem₄, p.assigned)
  patches : ∃ mem₅, patchDT env mem₄ p.checked = .ok (mem₅, p.hasNoDTPatches) ∧
    setRvbars env mem₅ p.checked = .ok w'.mem
  nextStage : w'.nextStage = nextStage p.checked p.copies

theorem prepared_eq_ok {env : Env} {w w' : World} {bootArgsBase : UInt64} {p : Prepared}
    (h : loadAndPrepXnuKernelcache env w bootArgsBase = .ok (.prepared p, w')) :
    ∃ mem₁ mem₂ mem₃ mem₄, Steps env w w' p mem₁ mem₂ mem₃ mem₄ := by
  obtain ⟨r, hr, h⟩ := bind_eq_ok.mp h
  cases r with
  | error why => cases h
  | ok c =>
    obtain ⟨sepfw, hsepfw, h⟩ := bind_eq_ok.mp h
    obtain ⟨mem₁, h₁, h⟩ := bind_eq_ok.mp h
    obtain ⟨found, hfound, h⟩ := bind_eq_ok.mp h
    cases found with
    | none => cases h
    | some baProp =>
      obtain ⟨⟨mem₃, k⟩, h₃, h⟩ := bind_eq_ok.mp h
      obtain ⟨⟨mem₄, assigned⟩, h₄, h⟩ := bind_eq_ok.mp h
      obtain ⟨⟨mem₅, hasNoDTPatches⟩, h₅, h⟩ := bind_eq_ok.mp h
      obtain ⟨mem₆, h₆, h⟩ := bind_eq_ok.mp h
      cases h
      obtain ⟨reg, hreg, hcopy⟩ := bind_eq_ok.mp h₁
      obtain rfl := Except.ok.inj (hsepfw.symm.trans hreg)
      obtain ⟨rfl, rfl, mem₂, hrest⟩ := copyRest_eq_ok h₃
      exact ⟨mem₁, mem₂, mem₃, mem₄, {
        found := checks_eq_ok hr
        sepfw := hsepfw
        copySEPFW := hcopy
        bootArgs := hfound
        copyRest := hrest
        editMemoryMap := h₄
        patches := ⟨mem₅, h₅, h₆⟩
        nextStage := rfl }⟩

theorem patchDT_of_hasNoDTPatches {env : Env} {mem mem' : Bytes} {c : Checked}
    (h : patchDT env mem c = .ok (mem', true)) : mem' = mem := by
  obtain ⟨commandLine, -, h⟩ := bind_eq_ok.mp h
  dsimp only at h
  split_ifs at h
  · exact (congrArg Prod.fst (Except.ok.inj h)).symm
  · obtain ⟨r, -, h⟩ := bind_eq_ok.mp h
    cases h

theorem setRvbars_of_not_m1n1 {env : Env} {mem mem' : Bytes} {c : Checked}
    (hm : env.m1n1 = false) (h : setRvbars env mem c = .ok mem') : mem' = mem := by
  obtain ⟨regs, -, h⟩ := bind_eq_ok.mp h
  rw [hm] at h
  exact (Except.ok.inj h).symm

/-! ### The layout -/

namespace Prepared

/-- How much the stub moves. -/
def total (p : Prepared) : ℕ := (p.copies.stubCopyBase - p.checked.payloadBase).toNat

/-- Where SEPFW is copied to. -/
def sepfwCopied (p : Prepared) : Set ℕ :=
  Set.Ico p.checked.sepfwCopyBase.toNat
    (p.checked.sepfwCopyBase.toNat + p.copies.sepfw.size.toNat)

/-- Where SEPFW, the boot arguments and the stub are copied to. -/
def copied (p : Prepared) : Set ℕ :=
  Set.Ico p.checked.sepfwCopyBase.toNat (p.copies.stubCopyBase.toNat + p.copies.stubSize)

/-- Where the stub moves the image to. -/
def moved (p : Prepared) : Set ℕ :=
  Set.Ico p.checked.machoBase.toNat (p.checked.machoBase.toNat + p.total)

end Prepared

/-- A run without patches, on a memory where no address wraps, what is read has not been written
before, and the device tree is apart from everything written. Neither loop over the regions is let
to the properties that are not regions. -/
structure Placement (env : Env) (w : World) (p : Prepared) (t : DTree) : Prop where
  not_m1n1 : env.m1n1 = false
  noDTPatches : p.hasNoDTPatches = true
  tree : DTree.Image w.mem (p.checked.dt, t)
  noWrap : p.checked.payloadBase.toNat + p.checked.kcVmaddrRange.size.toNat +
    p.copies.sepfw.size.toNat + p.copies.bootArgs.size.toNat < 2 ^ 64
  machoBase_le : p.checked.machoBase ≤ p.checked.payloadBase
  total_pos : 0 < p.total
  dvd_total : 16 ∣ p.total
  bootArgs_source : Disjoint (Set.Ico p.copies.bootArgs.base.toNat
    (p.copies.bootArgs.base.toNat + p.copies.bootArgs.size.toNat)) p.sepfwCopied
  tree_copied : Disjoint (DTree.range (p.checked.dt, t)) p.copied
  tree_moved : Disjoint (DTree.range (p.checked.dt, t)) p.moved
  spares : Spares env.deadPrefix p.checked.sepfwProp p.copies.baProp

/-- The copies follow each other behind the kernel. -/
structure Addresses (p : Prepared) : Prop where
  sepfw : p.checked.sepfwCopyBase.toNat =
    p.checked.payloadBase.toNat + p.checked.kcVmaddrRange.size.toNat
  bootArgs : p.copies.baCopyBase.toNat =
    p.checked.sepfwCopyBase.toNat + p.copies.sepfw.size.toNat
  stub : p.copies.stubCopyBase.toNat =
    p.copies.baCopyBase.toNat + p.copies.bootArgs.size.toNat
  total : p.checked.payloadBase.toNat + p.total = p.copies.stubCopyBase.toNat

/-- An address behind the payload's base follows the payload down. -/
theorem Checked.afterStub_toNat {c : Checked} {base : UInt64} {off : ℕ}
    (hbase : base.toNat = c.payloadBase.toNat + off) (hle : c.machoBase ≤ c.payloadBase) :
    (c.afterStub base).toNat = c.machoBase.toNat + off := by
  have hlt := base.toNat_lt
  have hle' := UInt64.le_iff_toNat_le.mp hle
  have hsub : (base - c.payloadBase).toNat = off := by
    rw [UInt64.toNat_sub_of_le _ _ (UInt64.le_iff_toNat_le.mpr (by omega))]
    omega
  rw [Checked.afterStub, u64_toNat_add (by omega), hsub]
  omega

section run
variable {env : Env} {w w' : World} {p : Prepared} {t : DTree} {mem₁ mem₂ mem₃ mem₄ : Bytes}
  (hs : Steps env w w' p mem₁ mem₂ mem₃ mem₄) (hp : Placement env w p t)
include hs hp

theorem addresses : Addresses p := by
  have hwrap := hp.noWrap
  have hsepfw : p.checked.sepfwCopyBase.toNat =
      p.checked.payloadBase.toNat + p.checked.kcVmaddrRange.size.toNat :=
    u64_toNat_add (by omega)
  have hba : p.copies.baCopyBase.toNat =
      p.checked.sepfwCopyBase.toNat + p.copies.sepfw.size.toNat := by
    rw [hs.copyRest.baCopyBase, u64_toNat_add (by omega)]
  have hstub : p.copies.stubCopyBase.toNat =
      p.copies.baCopyBase.toNat + p.copies.bootArgs.size.toNat := by
    rw [hs.copyRest.stubCopyBase, u64_toNat_add (by omega)]
  refine ⟨hsepfw, hba, hstub, ?_⟩
  rw [Prepared.total, UInt64.toNat_sub_of_le _ _ (UInt64.le_iff_toNat_le.mpr (by omega))]
  omega

/-- The copies are where they belong, and nothing else has changed. -/
theorem copied_eq : ChangedIn p.copied w.mem mem₃ ∧
    (∃ bs, load w.mem p.copies.sepfw.base.toNat p.copies.sepfw.size.toNat = .ok bs ∧
      load mem₃ p.checked.sepfwCopyBase.toNat p.copies.sepfw.size.toNat = .ok bs) ∧
    (∃ bs, load w.mem p.copies.bootArgs.base.toNat p.copies.bootArgs.size.toNat = .ok bs ∧
      load mem₃ p.copies.baCopyBase.toNat p.copies.bootArgs.size.toNat = .ok bs) ∧
    p.copies.stubCopyBase.toNat + p.copies.stubSize ≤ mem₃.length := by
  have ha := addresses hs hp
  obtain ⟨sepfw, hsepfw, hc₁, hl₁⟩ := memcpy_eq_ok hs.copySEPFW
  obtain ⟨bootArgs, hbootArgs, hc₂, hl₂⟩ := memcpy_eq_ok hs.copyRest.copy
  obtain ⟨stub, -, hc₃, hl₃⟩ := memcpy_eq_ok hs.copyRest.stub
  have hsa := ha.sepfw
  have hba := ha.bootArgs
  have hst := ha.stub
  refine ⟨?_, ⟨sepfw, hsepfw, ?_⟩, ⟨bootArgs, ?_, ?_⟩, (load_eq_ok hl₃).1⟩
  · unfold Prepared.copied
    refine ((hc₁.mono ?_).trans (hc₂.mono ?_)).trans (hc₃.mono ?_)
    all_goals exact Set.Ico_subset_Ico (by omega) (by omega)
  · rw [load_changedIn hc₃ (Set.Ico_disjoint_Ico.mpr (by omega)),
      load_changedIn hc₂ (Set.Ico_disjoint_Ico.mpr (by omega)), hl₁]
  · rw [← load_changedIn hc₁ hp.bootArgs_source, hbootArgs]
  · rw [load_changedIn hc₃ (Set.Ico_disjoint_Ico.mpr (by omega)), hl₂]

theorem sepfwCopied_subset : p.sepfwCopied ⊆ p.copied := by
  have ha := addresses hs hp
  have hba := ha.bootArgs
  have hst := ha.stub
  exact Set.Ico_subset_Ico_right (by omega)

/-- The memory map is a node of the tree, and its lookups have found properties of this node. -/
theorem mapFound_eq : ∃ xs, tableRange p.checked.memoryMap xs ⊆ DTree.range (p.checked.dt, t) ∧
    MapFound w.mem p.checked.memoryMap xs p.checked.sepfwProp p.copies.baProp ∧
    p.checked.sepfwReg = DTProp.data p.checked.sepfwProp ∧
    p.copies.baReg = DTProp.data p.copies.baProp ∧
    DTRegister.read w.mem (DTProp.data p.copies.baProp) = .ok p.copies.bootArgs := by
  obtain ⟨chosen, hchosen, hmap⟩ := hs.found.memoryMap
  obtain ⟨q₁, hq₁, rfl⟩ := DTree.Laid.exists_of_childNamed hp.tree.laid hchosen
  obtain ⟨q₂, hq₂, hmm⟩ := (hp.tree.laid.scanned hq₁).exists_of_childNamed hmap
  have hnode : q₂ ∈ DTree.nodesAt p.checked.dt t :=
    DTree.nodesAt_trans (DTree.mem_nodesAt_of_scanned hq₁) (DTree.mem_nodesAt_of_scanned hq₂)
  have ht : PropertyTable w.mem q₂.1 q₂.2.label := (hp.tree.laid q₂ hnode).table
  have hsub : tableRange q₂.1 q₂.2.label ⊆ DTree.range (p.checked.dt, t) :=
    tableRange_subset hnode
  rw [hmm] at ht hsub
  have hd := (hp.tree_copied.mono_left hsub).mono_right (sepfwCopied_subset hs hp)
  obtain ⟨sepfw, -, hc, -⟩ := memcpy_eq_ok hs.copySEPFW
  have ht₁ := ht.of_disjoint hd hc
  obtain ⟨⟨x, hx⟩, hsname⟩ := ht.of_propertyNamed hs.found.sepfw
  obtain ⟨hsreg, hslen⟩ := ht.asReg_eq_ok hx hs.found.sepfwReg
  obtain ⟨⟨y, hy⟩, hbname⟩ := ht₁.of_propertyNamed hs.bootArgs
  obtain ⟨hbreg, hblen⟩ := ht₁.asReg_eq_ok hy hs.copyRest.reg
  have hb : HasRegister p.checked.memoryMap q₂.2.label p.copies.baProp := ⟨y, hy, hblen⟩
  obtain ⟨hname, hread⟩ := hb.of_disjoint hd hc
  refine ⟨q₂.2.label, hsub, ⟨ht, ⟨x, hx, hslen⟩, hb, hsname, ?_⟩, hsreg, hbreg, ?_⟩
  · rw [← hname, hbname]
  · have hbootArgs := hs.copyRest.bootArgs
    rw [hbreg] at hbootArgs
    rw [← hread, hbootArgs]

end run

/-! ### Segments -/

theorem fileRange_valid {mem : Bytes} {seg : ℕ} {r : AddrRange}
    (h : SegmentCommand.fileRange mem seg = .ok r) : r.Valid := by
  obtain ⟨fileoff, -, h⟩ := bind_eq_ok.mp h
  obtain ⟨filesize, -, h⟩ := bind_eq_ok.mp h
  exact (AddrRange.valid_ofBounds h).2

/-- The kernel ends behind every segment's part of the file. -/
theorem Found.segment_le {mem : Bytes} {c : Checked} (h : Found mem c) {lcs : List ℕ}
    (hlcs : MachO.Commands mem c.payloadBase.toNat lcs) {seg : ℕ}
    (hseg : seg ∈ MachO.segmentsIn mem lcs) {file : AddrRange}
    (hfile : SegmentCommand.fileRange mem seg = .ok file) :
    file.min.toNat + file.size.toNat ≤ c.kcVmaddrRange.size.toNat := by
  obtain ⟨r, hr, hmin, hsize⟩ := h.fileRange
  obtain ⟨file', hfile', hmax⟩ := hlcs.max_le (fun seg r => fileRange_valid) hr seg hseg
  obtain rfl := Except.ok.inj (hfile.symm.trans hfile')
  have hvalid : file.min.toNat ≤ file.max.toNat := UInt64.le_iff_toNat_le.mp (fileRange_valid hfile)
  have hmax' := UInt64.le_iff_toNat_le.mp hmax
  rw [← hsize, AddrRange.size, AddrRange.size, hmin, UInt64.sub_zero,
    UInt64.toNat_sub_of_le _ _ (fileRange_valid hfile)]
  omega

theorem segmentsVisited_eq {mem : Bytes} {macho : ℕ} {lcs : List ℕ}
    (h : MachO.Commands mem macho lcs) :
    MachO.segmentsVisited mem macho = .ok (MachO.segmentsIn mem lcs) := by
  obtain ⟨r, hr, hsees⟩ := h.sees_segments
  unfold MachO.segmentsVisited
  rw [hr, ok_bind]
  refine hsees.elements (le_trans ?_ (MachO.length_le_of_commands h))
  rw [MachO.segmentsIn, List.length_map]
  exact List.length_filter_le _ _

/-! ### After the stub -/

/-- The register of a property, and the bytes it points to. -/
def pointee (mem : Bytes) (prop : ℕ) : Exec (DTRegister × Bytes) := do
  let reg ← DTRegister.read mem (← DTProp.asReg mem prop)
  return (reg, ← load mem reg.base.toNat reg.size.toNat)

theorem pointee_eq_ok {mem bs : Bytes} {prop o : ℕ} {reg : DTRegister}
    (ho : DTProp.asReg mem prop = .ok o) (hreg : DTRegister.read mem o = .ok reg)
    (hbs : load mem reg.base.toNat reg.size.toNat = .ok bs) :
    pointee mem prop = .ok (reg, bs) := by
  unfold pointee
  rw [ho, ok_bind, hreg, ok_bind, hbs, ok_bind, pure_eq_ok]

/-- The region bears the segment's name, and its register gives the segment's part of the
payload. -/
def SegmentLands (w w' : World) (p : Prepared) (mem : Bytes) (seg region : ℕ) : Prop :=
  ∃ file name reg bs, SegmentCommand.fileRange w.mem seg = .ok file ∧
    load w'.mem (p.checked.payloadBase.toNat + file.min.toNat) file.size.toNat = .ok bs ∧
    DTProp.name mem region = .ok name ∧ kernelDash <+: name ∧
    (∀ segName, cstr w.mem seg = .ok segName → segName.length < 16 →
      name = kernelDash ++ segName) ∧
    pointee mem region = .ok (reg, bs)

/-- Everything is where the device tree and the arguments of the stub say: before the call, when
the call has returned, and when the stub has run. -/
structure Lands (w w' : World) (p : Prepared) (t : DTree) (mem : Bytes) : Prop where
  sepfw : ∃ reg bs, pointee w.mem p.checked.sepfwProp = .ok (p.copies.sepfw, bs) ∧
    DTProp.name mem p.checked.sepfwProp = .ok sepfwLit ∧
    pointee mem p.checked.sepfwProp = .ok (reg, bs)
  bootArgs : ∃ reg bs, pointee w.mem p.copies.baProp = .ok (p.copies.bootArgs, bs) ∧
    DTProp.name mem p.copies.baProp = .ok bootArgsLit ∧
    pointee mem p.copies.baProp = .ok (reg, bs) ∧ reg.base = w'.nextStage.args[0]
  segments : MachO.segmentsVisited w.mem p.checked.payloadBase.toNat =
    .ok (p.assigned.map Prod.fst)
  regions : ∀ a ∈ p.assigned, SegmentLands w w' p mem a.1 a.2
  payload : ∀ i ∈ Set.Ico p.checked.payloadBase.toNat p.checked.sepfwCopyBase.toNat,
    i ∉ DTree.range (p.checked.dt, t) → w'.mem[i]? = w.mem[i]?
  stub : load mem p.copies.stubCopyBase.toNat p.copies.stubSize =
    load w'.mem p.copies.stubCopyBase.toNat p.copies.stubSize

/-! What the stub finds in the registers x0 and x4. -/

namespace VectorArgs

def newBootargsAddr (v : VectorArgs) : UInt64 := v.args[0]

def imageEntry (v : VectorArgs) : UInt64 := v.args[4]

end VectorArgs

/-- The image has moved, and the memory map has stayed. -/
structure Moved (p : Prepared) (xs : List Property) (mem mem' : Bytes) : Prop where
  found : MapFound mem' p.checked.memoryMap xs p.checked.sepfwProp p.copies.baProp
  disjoint : Disjoint (tableRange p.checked.memoryMap xs) p.moved
  changed : ChangedIn p.moved mem mem'
  load : ∀ off n, off + n ≤ p.total →
    load mem' (p.checked.machoBase.toNat + off) n = load mem (p.checked.payloadBase.toNat + off) n

/-- A register with an address in the moved image gives the bytes that were moved there. -/
theorem Moved.pointee_eq {p : Prepared} {xs : List Property} {mem mem' bs : Bytes}
    {prop off : ℕ} {reg : DTRegister} (h : Moved p xs mem mem')
    (hprop : HasRegister p.checked.memoryMap xs prop)
    (hread : DTRegister.read mem (DTProp.data prop) = .ok reg)
    (hbase : reg.base.toNat = p.checked.machoBase.toNat + off)
    (hoff : off + reg.size.toNat ≤ p.total)
    (hload : JevMachO.load mem (p.checked.payloadBase.toNat + off) reg.size.toNat = .ok bs) :
    pointee mem' prop = .ok (reg, bs) := by
  refine pointee_eq_ok (h.found.table.asReg_of_hasRegister hprop) ?_ ?_
  · rw [(hprop.of_disjoint h.disjoint h.changed).2, hread]
  · rw [hbase, h.load off _ hoff, hload]

theorem Moved.segmentLands {w w' : World} {p : Prepared} {xs : List Property} {mem : Bytes}
    {seg region : ℕ} (h : Moved p xs w'.mem mem)
    (hreg : HasRegister p.checked.memoryMap xs region)
    (hgiven : GivenTo w.mem w'.mem p.checked.machoBase seg region)
    (hinside : ∀ file, SegmentCommand.fileRange w.mem seg = .ok file →
      file.min.toNat + file.size.toNat ≤ p.total)
    (hle : p.checked.machoBase ≤ p.checked.payloadBase)
    (hwrap : p.checked.payloadBase.toNat + p.total < 2 ^ 64)
    (hin : p.checked.payloadBase.toNat + p.total ≤ w'.mem.length) :
    SegmentLands w w' p mem seg region := by
  obtain ⟨name, hname, hstart, hsegName⟩ := hgiven.name
  obtain ⟨file, hfile, hread⟩ := hgiven.register
  have hoff := hinside file hfile
  have hle' := UInt64.le_iff_toNat_le.mp hle
  have hbase : (p.checked.machoBase + file.min).toNat =
      p.checked.machoBase.toNat + file.min.toNat := u64_toNat_add (by omega)
  have hfit : p.checked.payloadBase.toNat + file.min.toNat + file.size.toNat ≤ w'.mem.length := by
    omega
  have hload := load_of_le hfit
  refine ⟨file, name, _, _, hfile, hload, ?_, hstart, hsegName,
    h.pointee_eq hreg hread hbase hoff hload⟩
  rw [(hreg.of_disjoint h.disjoint h.changed).1, hname]

section run
variable {env : Env} {w w' : World} {p : Prepared} {t : DTree} {mem₁ mem₂ mem₃ mem₄ : Bytes}

theorem Steps.mem_eq (hs : Steps env w w' p mem₁ mem₂ mem₃ mem₄) (hp : Placement env w p t) :
    w'.mem = mem₄ := by
  obtain ⟨mem₅, hpatch, hrvbars⟩ := hs.patches
  rw [hp.noDTPatches] at hpatch
  rw [setRvbars_of_not_m1n1 hp.not_m1n1 hrvbars, patchDT_of_hasNoDTPatches hpatch]

theorem Steps.moved (hs : Steps env w w' p mem₁ mem₂ mem₃ mem₄) (hp : Placement env w p t)
    {xs : List Property} (hsub : tableRange p.checked.memoryMap xs ⊆ DTree.range (p.checked.dt, t))
    (hf : MapFound w'.mem p.checked.memoryMap xs p.checked.sepfwProp p.copies.baProp)
    (hin : p.copies.stubCopyBase.toNat ≤ w'.mem.length) :
    ∃ mem, xnuJumpStub w' = .ok mem ∧ Moved p xs w'.mem mem := by
  have htotal := (addresses hs hp).total
  have hlt := p.copies.stubCopyBase.toNat_lt
  have hle := UInt64.le_iff_toNat_le.mp hp.machoBase_le
  have hargs := hs.nextStage
  obtain ⟨mem, hrun, hc, hmoved⟩ := xnuJumpStub_moves (w := w') (by rw [hargs]; rfl)
    (by rw [hargs]; rfl) (by rw [hargs]; rfl) hp.total_pos hp.dvd_total hle
    (by omega) (by omega)
  have hd := hp.tree_moved.mono_left hsub
  refine ⟨mem, hrun, hf.of_disjoint hd hc, hd, hc, fun off n hoff => ?_⟩
  unfold load
  rw [slice_moved hc.1 hmoved hoff hle (by omega)]

/-- The edits have reached the memory map only, and it says where everything will be. -/
theorem Steps.edited (hs : Steps env w w' p mem₁ mem₂ mem₃ mem₄) (hp : Placement env w p t)
    (hcommands : Disjoint (MachO.commandBytes w.mem p.checked.payloadBase.toNat)
      (DTree.range (p.checked.dt, t) ∪ p.copied)) {xs : List Property}
    (hsub : tableRange p.checked.memoryMap xs ⊆ DTree.range (p.checked.dt, t))
    (hfound : MapFound w.mem p.checked.memoryMap xs p.checked.sepfwProp p.copies.baProp)
    (hsreg : p.checked.sepfwReg = DTProp.data p.checked.sepfwProp)
    (hbreg : p.copies.baReg = DTProp.data p.copies.baProp)
    (hbread : DTRegister.read w.mem (DTProp.data p.copies.baProp) = .ok p.copies.bootArgs) :
    ∃ lcs, MachO.Commands w.mem p.checked.payloadBase.toNat lcs ∧
      ChangedIn (tableRange p.checked.memoryMap xs) mem₃ w'.mem ∧
      Edited w.mem w'.mem xs p.checked p.copies lcs p.assigned := by
  obtain ⟨hc₃, -⟩ := copied_eq hs hp
  have hd := hp.tree_copied.mono_left hsub
  have hsread := hs.sepfw
  rw [hsreg] at hsread
  obtain ⟨lcs, hlcs⟩ := MachO.commands_of_collapseRange hs.found.vmaddrRange
  rw [hs.mem_eq hp]
  refine ⟨lcs, hlcs, editMemoryMap_eq_ok ⟨hlcs, hcommands⟩ (hsub.trans Set.subset_union_left)
    (hc₃.mono Set.subset_union_right) (hfound.of_disjoint hd hc₃) hp.spares hsreg hbreg ?_ ?_
    hs.editMemoryMap⟩
  · rw [hsreg, (hfound.sepfw.of_disjoint hd hc₃).2, hsread]
  · rw [hbreg, (hfound.bootArgs.of_disjoint hd hc₃).2, hbread]

/-- After the stub has run, the device tree's registers of SEPFW, of the boot arguments and of
every segment of the payload give the bytes they should. -/
theorem lands {bootArgsBase : UInt64}
    (hrun : loadAndPrepXnuKernelcache env w bootArgsBase = .ok (.prepared p, w'))
    (hp : Placement env w p t)
    (hcommands : Disjoint (MachO.commandBytes w.mem p.checked.payloadBase.toNat)
      (DTree.range (p.checked.dt, t) ∪ p.copied)) :
    ∃ mem, xnuJumpStub w' = .ok mem ∧ Lands w w' p t mem := by
  obtain ⟨mem₁, mem₂, mem₃, mem₄, hs⟩ := prepared_eq_ok hrun
  obtain ⟨xs, hsub, hfound, hsreg, hbreg, hbread⟩ := mapFound_eq hs hp
  obtain ⟨hc₃, ⟨sepfw, hsepfw, hsepfw₃⟩, ⟨bootArgs, hbootArgs, hbootArgs₃⟩, hin⟩ :=
    copied_eq hs hp
  obtain ⟨lcs, hlcs, hc₄, hedited⟩ := hs.edited hp hcommands hsub hfound hsreg hbreg hbread
  have hd := hp.tree_copied.mono_left hsub
  have ha := addresses hs hp
  have hsa := ha.sepfw
  have hba := ha.bootArgs
  have hst := ha.stub
  have htotal := ha.total
  obtain ⟨mem, hstub, hmoved⟩ := hs.moved hp hsub hedited.found (by rw [hc₄.1]; omega)
  -- the edits have not reached the copies
  have hkept : ∀ o n, p.checked.sepfwCopyBase.toNat ≤ o →
      o + n ≤ p.copies.stubCopyBase.toNat → load w'.mem o n = load mem₃ o n := fun o n hlo hhi =>
    load_changedIn hc₄ (hd.symm.mono_left (Set.Ico_subset_Ico hlo (by omega)))
  refine ⟨mem, hstub, ?_, ?_, ?_, ?_, ?_, ?_⟩
  · refine ⟨_, sepfw, pointee_eq_ok hs.found.sepfwReg hs.sepfw hsepfw, hmoved.found.sepfw_name,
      hmoved.pointee_eq hfound.sepfw hedited.sepfw
        (Checked.afterStub_toNat hsa hp.machoBase_le) (by dsimp only; omega) ?_⟩
    rw [← hsa, hkept _ _ le_rfl (by dsimp only; omega), hsepfw₃]
  · refine ⟨_, bootArgs,
      pointee_eq_ok (hfound.table.asReg_of_hasRegister hfound.bootArgs) hbread hbootArgs,
      hmoved.found.bootArgs_name,
      hmoved.pointee_eq hfound.bootArgs hedited.bootArgs
        (Checked.afterStub_toNat (hba.trans (by rw [hsa, Nat.add_assoc])) hp.machoBase_le)
        (by dsimp only; omega) ?_, ?_⟩
    · rw [← Nat.add_assoc, ← hsa, ← hba, hkept _ _ (by omega) (by dsimp only; omega), hbootArgs₃]
    · rw [hs.nextStage]
      rfl
  · rw [segmentsVisited_eq hlcs, hedited.segments]
  · intro a hassigned
    obtain ⟨hreg, hgiven⟩ := hedited.given a hassigned
    have hseg : a.1 ∈ MachO.segmentsIn w.mem lcs :=
      hedited.segments ▸ List.mem_map_of_mem hassigned
    have hlt := p.copies.stubCopyBase.toNat_lt
    refine hmoved.segmentLands hreg hgiven (fun file hfile => ?_) hp.machoBase_le (by omega)
      (by rw [hc₄.1]; omega)
    have hinside := hs.found.segment_le hlcs hseg hfile
    omega
  · intro i hi hout
    rw [hc₄.2 i fun h => hout (hsub h), hc₃.2 i]
    rw [Prepared.copied, Set.mem_Ico]
    rw [Set.mem_Ico] at hi
    omega
  · refine load_changedIn hmoved.changed (Set.disjoint_left.mpr fun i hi hi' => ?_)
    have hle := UInt64.le_iff_toNat_le.mp hp.machoBase_le
    rw [Prepared.moved, Set.mem_Ico] at hi'
    rw [Set.mem_Ico] at hi
    omega

end run

/-! ### On the small machine -/

/-- What a run comes to its end with, and memory when the stub has run. -/
def landed (env : Env) (w : World) (bootArgsBase : UInt64) :
    Exec (Outcome × World × Bytes) := do
  let (outcome, w') ← loadAndPrepXnuKernelcache env w bootArgsBase
  return (outcome, w', ← xnuJumpStub w')

theorem landed_eq_ok {env : Env} {w w' : World} {bootArgsBase : UInt64} {outcome : Outcome}
    {mem : Bytes} (h : landed env w bootArgsBase = .ok (outcome, w', mem)) :
    loadAndPrepXnuKernelcache env w bootArgsBase = .ok (outcome, w') ∧
      xnuJumpStub w' = .ok mem := by
  obtain ⟨r, hr, h⟩ := bind_eq_ok.mp h
  obtain ⟨mem', hmem, h⟩ := bind_eq_ok.mp h
  cases h
  exact ⟨hr, hmem⟩

def sampleRegsWithArgs (sepfwSize bootArgsSize : UInt64) : List Property :=
  sampleRegs sepfwSize ++ [regProp bootArgsLit ⟨336, bootArgsSize⟩ (by decide)]

def sampleCommandLine : Bytes := verboseFlag ++ DT.space :: noDTPatchesFlag

/-- What a run on the small machine comes to its end with, for a kernel and copies of these
sizes and one segment. -/
def samplePrepared (kcSize sepfwSize bootArgsSize : UInt64) : Prepared where
  checked := {
    dt := 0
    commandLine := 444
    commandLineSize := 17
    memoryMap := 60
    machoBase := 576
    payloadBase := 592
    kcVmaddrRange := ⟨0, kcSize⟩
    entryPc := 576
    sepfwProp := 220
    sepfwReg := 256 }
  copies := {
    sepfw := ⟨496, sepfwSize⟩
    baProp := 272
    baReg := 308
    bootArgs := ⟨336, bootArgsSize⟩
    baCopyBase := 592 + kcSize + sepfwSize
    stubCopyBase := 592 + kcSize + sepfwSize + bootArgsSize
    stubSize := 8 }
  assigned := [(632, 168)]
  hasNoDTPatches := true

/-- One segment that spans the header and the commands. -/
def wholeSegment : World :=
  sampleWorld (sampleMemory (sampleRegsWithArgs 16 128) sampleCommandLine (List.replicate 16 1)
    (kernelCache [segmentCommand 0 384, unixThreadCommand]))

theorem prepared_wholeSegment : ∃ w', loadAndPrepXnuKernelcache sampleEnv wholeSegment 336 =
    .ok (.prepared (samplePrepared 384 16 128), w') := by
  have hfst : (loadAndPrepXnuKernelcache sampleEnv wholeSegment 336).map Prod.fst =
      .ok (.prepared (samplePrepared 384 16 128)) := by decide +kernel
  obtain ⟨⟨outcome, w'⟩, hrun, rfl⟩ := map_eq_ok.mp hfst
  exact ⟨w', hrun⟩

theorem lands_wholeSegment : ∃ w' mem,
    loadAndPrepXnuKernelcache sampleEnv wholeSegment 336 =
      .ok (.prepared (samplePrepared 384 16 128), w') ∧
    xnuJumpStub w' = .ok mem ∧
    Lands wholeSegment w' (samplePrepared 384 16 128) (sampleTree (sampleRegsWithArgs 16 128))
      mem := by
  obtain ⟨w', hrun⟩ := prepared_wholeSegment
  have htable : MachO.CommandTable wholeSegment.mem 592
      [segmentCommand 0 384, unixThreadCommand] :=
    ⟨by decide +kernel, by decide +kernel, by decide +kernel⟩
  obtain ⟨mem, hstub, hlands⟩ := lands hrun (t := sampleTree (sampleRegsWithArgs 16 128))
    { not_m1n1 := rfl
      noDTPatches := rfl
      tree := ⟨by decide +kernel, by decide +kernel⟩
      noWrap := by decide
      machoBase_le := by decide
      total_pos := by decide
      dvd_total := by decide
      bootArgs_source := Set.Ico_disjoint_Ico.mpr (by decide)
      tree_copied := Set.Ico_disjoint_Ico.mpr (by decide +kernel)
      tree_moved := Set.Ico_disjoint_Ico.mpr (by decide +kernel)
      spares := spares_intact _ _ }
    (Disjoint.mono_left (htable.commandBytes_subset (by decide)) (Set.disjoint_union_right.mpr
      ⟨Set.Ico_disjoint_Ico.mpr (by decide +kernel), Set.Ico_disjoint_Ico.mpr (by decide +kernel)⟩))
  exact ⟨w', mem, hrun, hstub, hlands⟩

/-- The only segment ends before the payload's commands do. SEPFW is copied over these, and with
it a command that puts the segment elsewhere. -/
def overwrittenCommands : World :=
  sampleWorld (sampleMemory (sampleRegsWithArgs 88 136) sampleCommandLine
    ((kernelCache [segmentCommand 16 16]).drop 16)
    (kernelCache [segmentCommand 0 16, unixThreadCommand]))

theorem not_lands_overwrittenCommands : ∃ w' mem,
    loadAndPrepXnuKernelcache sampleEnv overwrittenCommands 336 =
      .ok (.prepared (samplePrepared 16 88 136), w') ∧
    Placement sampleEnv overwrittenCommands (samplePrepared 16 88 136)
      (sampleTree (sampleRegsWithArgs 88 136)) ∧
    xnuJumpStub w' = .ok mem ∧
    ¬Lands overwrittenCommands w' (samplePrepared 16 88 136)
      (sampleTree (sampleRegsWithArgs 88 136)) mem := by
  have hseg : SegmentCommand.fileRange overwrittenCommands.mem 632 = .ok ⟨0, 16⟩ := by
    decide +kernel
  have hrun : (landed sampleEnv overwrittenCommands 336).map (fun r => (r.1,
      load r.2.1.mem 592 16, pointee r.2.2 168)) =
      .ok (.prepared (samplePrepared 16 88 136), .ok (leBytes 4 0xfeedfacf ++ leBytes 12 0),
        .ok (⟨592, 16⟩, leBytes 4 0 ++ leBytes 12 72)) := by decide +kernel
  obtain ⟨⟨outcome, w', mem⟩, hlanded, hfacts⟩ := map_eq_ok.mp hrun
  simp only [Prod.mk.injEq] at hfacts
  obtain ⟨rfl, hpayload, hmoved⟩ := hfacts
  obtain ⟨hprepared, hstub⟩ := landed_eq_ok hlanded
  refine ⟨w', mem, hprepared, ?_, hstub, fun h => ?_⟩
  · exact {
      not_m1n1 := rfl
      noDTPatches := rfl
      tree := ⟨by decide +kernel, by decide +kernel⟩
      noWrap := by decide
      machoBase_le := by decide
      total_pos := by decide
      dvd_total := by decide
      bootArgs_source := Set.Ico_disjoint_Ico.mpr (by decide)
      tree_copied := Set.Ico_disjoint_Ico.mpr (by decide +kernel)
      tree_moved := Set.Ico_disjoint_Ico.mpr (by decide +kernel)
      spares := spares_intact _ _ }
  · obtain ⟨file, name, reg, bs, hfile, hload, -, -, -, hbs⟩ :=
      h.regions (632, 168) (List.mem_singleton.mpr rfl)
    obtain rfl := Except.ok.inj (hseg.symm.trans hfile)
    obtain rfl := Except.ok.inj (hpayload.symm.trans hload)
    have hsame : leBytes 4 0 ++ leBytes 12 72 = leBytes 4 0xfeedfacf ++ leBytes 12 0 :=
      congrArg Prod.snd (Except.ok.inj (hmoved.symm.trans hbs))
    exact absurd hsame (by decide)

end XNUBoot
end JevMachO

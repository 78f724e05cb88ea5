import JevMachO.DeviceTree.PatchLaws
import JevMachO.DeviceTree.Registers
import JevMachO.NVRAM.Image

/-! What the boot code reads from a tree: the patches that the NVRAM image in `chosen` asks for,
and the registers of the CPUs. -/
namespace JevMachO
open Lib

namespace DTree

/-- The property that holds the NVRAM image. -/
def nvramProxyData (p : ℕ × DTree) : Option (ℕ × Property) :=
  (scannedChild p DT.chosenLit).bind (propertyAt DT.nvramProxyDataLit)

variable {split : SplitView} {mem mem' : Bytes} {p : ℕ × DTree} {x : ℕ × Property}
  {img : NVRAMContent} {specs : List Bytes}

theorem nvramProxyData_mem (h : nvramProxyData p = some x) : x ∈ allProperties p := by
  obtain ⟨q, hq, hx⟩ := Option.bind_eq_some_iff.mp h
  have hq' : q ∈ scanned p := List.mem_of_find?_eq_some hq
  exact mem_allProperties.mpr ⟨q, mem_nodesAt_of_scanned hq', mem_propertiesAt hx⟩

/-- The patches are those of the `dt-patches` variable of the common partition. -/
theorem Laid.processNVRAMPatches_eq (split : SplitView) (h : Laid mem p) (hw : p.2.WellFormed)
    (hdata : ∀ x, nvramProxyData p = some x → At mem (DTProp.data x.1) img.bytes) :
    DT.processNVRAMPatches split mem p.1 =
      match nvramProxyData p with
      | none => .ok (mem, false)
      | some _ =>
        match NVRAMPartition.valueOf img.common.strs DT.dtPatchesLit with
        | none => .ok (mem, true)
        | some text => DT.processPatches split mem p.1 text := by
  have hname : NVRAMPartition.VarName DT.dtPatchesLit := ⟨by decide, by decide⟩
  unfold DT.processNVRAMPatches nvramProxyData
  unfold nvramProxyData at hdata
  rw [h.childNamed_eq hw, ok_bind]
  cases hc : scannedChild p DT.chosenLit with
  | none => rfl
  | some q =>
    have hq : q ∈ DTree.scanned p := List.mem_of_find?_eq_some hc
    simp only [Option.map_some, Option.bind_some,
      (h.scanned hq).self.propertyAt_eq (hw.scanned hq).namesOk, ok_bind]
    cases hx : propertyAt DT.nvramProxyDataLit q with
    | none => rfl
    | some x =>
      have hat : At mem (DTProp.data x.1) img.bytes := hdata x (by rw [hc]; exact hx)
      have hvars := NVRAMPartition.holdsVars (NVRAMContent.at_partitions hat).1
      simp only [Option.map_some, NVRAMContent.extractProxyData_eq hat, ok_bind,
        NVRAMPartition.valueOf]
      rcases NVRAMPartition.first_or_none DT.dtPatchesLit img.common.strs with
        hnone | ⟨pre, s, post, heq, hs, hpre⟩
      · rw [hvars.varNamed_of_none hnone, ok_bind, List.find?_eq_none.mpr (by simpa using hnone)]
        rfl
      · obtain ⟨v, rfl⟩ := (NVRAMPartition.nameOf_eq_iff hname).mp hs
        rw [heq] at hvars ⊢
        obtain ⟨hvar, hcstr⟩ := hvars.varNamed_of_first hs hpre
        obtain ⟨hval, hv⟩ := NVRAMPartition.varValue_eq hname.no_eq hcstr
        have hskip : pre.find? (fun s => NVRAMPartition.nameOf s == DT.dtPatchesLit) = none :=
          List.find?_eq_none.mpr (by simpa using hpre)
        rw [hvar, ok_bind]
        dsimp only
        rw [hval, ok_bind]
        dsimp only
        rw [hv, ok_bind, List.find?_append, hskip, Option.none_or,
          List.find?_cons_of_pos (by simpa using hs), Option.map_some]
        simp

theorem finalData_of_length (hx : x ∈ allProperties p)
    (h48 : x.2.data.length ≠ 4 ∧ x.2.data.length ≠ 8) : finalData split p specs x = x.2.data := by
  have hnone : (specs.filterMap (accepted split p)).filter (fun a => a.1.1 == x.1) = [] := by
    refine List.filter_eq_nil_iff.mpr fun a ha hax => ?_
    obtain ⟨spec, -, hspec⟩ := List.mem_filterMap.mp ha
    obtain ⟨-, hmem, hlen⟩ := accepted_cases (x := a.1) (v := a.2) hspec
    have hpos := size_pos x.2
    have hpos' := size_pos a.1.2
    have hax' : a.1.1 = x.1 := eq_of_beq hax
    rcases properties_apart hmem hx with heq | hap
    · rw [heq] at hlen
      exact hlen.elim (fun h => h48.1 h.1) h48.2
    · omega
  rw [finalData, hnone]
  rfl

/-- What the patches of an NVRAM image come to: what `processPatches` makes of the text of the
variable. The property with the image is kept, so that booting twice is booting once. -/
structure NVRAMPatched (split : SplitView) (mem : Bytes) (p : ℕ × DTree) (img : NVRAMContent)
    (mem' : Bytes) (good : Bool) : Prop where
  missing : nvramProxyData p = none → mem' = mem ∧ good = false
  unset : nvramProxyData p ≠ none →
    NVRAMPartition.valueOf img.common.strs DT.dtPatchesLit = none → mem' = mem ∧ good = true
  patched : nvramProxyData p ≠ none →
    ∀ text, NVRAMPartition.valueOf img.common.strs DT.dtPatchesLit = some text →
      DT.processPatches split mem p.1 text = .ok (mem', good) ∧
        PatchLaws split mem p text mem' good
  kept : ∀ x, nvramProxyData p = some x → At mem' (DTProp.data x.1) x.2.data
  again : DT.processNVRAMPatches split mem' p.1 = .ok (mem', good)

theorem finalData_nvramProxyData (hdata : img.bytes <+: x.2.data) (hx : nvramProxyData p = some x) :
    finalData split p specs x = x.2.data := by
  have hle := hdata.length_le
  rw [img.length_bytes] at hle
  simp only [NVRAM.sizeofAppleHeader] at hle
  exact finalData_of_length (nvramProxyData_mem hx) ⟨by omega, by omega⟩

/-- The patches in NVRAM are applied to the tree the NVRAM image is in. -/
theorem nvramPatched (h : Image mem p) (hw : p.2.WellFormed)
    (hdata : ∀ x, nvramProxyData p = some x → img.bytes <+: x.2.data)
    (hp : ∀ text, NVRAMPartition.valueOf img.common.strs DT.dtPatchesLit = some text →
      Patchable split mem p text) :
    ∃ mem' good, DT.processNVRAMPatches split mem p.1 = .ok (mem', good) ∧
      NVRAMPatched split mem p img mem' good := by
  have hkept : ∀ x, nvramProxyData p = some x → At mem (DTProp.data x.1) x.2.data := fun x hx =>
    h.at_data (nvramProxyData_mem hx)
  have heq := h.laid.processNVRAMPatches_eq split hw fun x hx => (hdata x hx).trans (hkept x hx)
  cases hx : nvramProxyData p with
  | none =>
    rw [hx] at heq
    refine ⟨mem, false, heq, fun _ => ⟨rfl, rfl⟩, fun hne => absurd hx hne,
      fun hne => absurd hx hne, hkept, heq⟩
  | some x =>
    rw [hx] at heq
    have hsome : nvramProxyData p ≠ none := by simp [hx]
    cases htext : NVRAMPartition.valueOf img.common.strs DT.dtPatchesLit with
    | none =>
      rw [htext] at heq
      refine ⟨mem, true, heq, fun hnone => absurd hnone hsome, fun _ _ => ⟨rfl, rfl⟩,
        fun _ text ht => ?_, hkept, heq⟩
      rw [htext] at ht
      cases ht
    | some text =>
      rw [htext] at heq
      have hpatch := hp text htext
      obtain ⟨mem', good, hrun, hlaws, hprog⟩ := h.lawful hw hpatch
      have hkept' : ∀ y, nvramProxyData p = some y → At mem' (DTProp.data y.1) y.2.data := by
        intro y hy
        have hfinal := hprog.final y (nvramProxyData_mem hy)
        rwa [finalData_nvramProxyData (hdata y hy) hy] at hfinal
      have hlaid := hprog.laid h.laid fun s hs a ha => hpatch.noNames.accepted hs ha
      have heq' := hlaid.processNVRAMPatches_eq split hw fun y hy =>
        (hdata y hy).trans (hkept' y hy)
      rw [hx, htext] at heq'
      refine ⟨mem', good, heq.trans hrun, fun hnone => absurd hnone hsome, fun _ hnone => ?_,
        fun _ text' ht => ?_, hkept', heq'.trans hlaws.again⟩
      · rw [htext] at hnone
        cases hnone
      · obtain rfl := Option.some.inj (htext.symm.trans ht)
        exact ⟨hrun, hlaws⟩

theorem length_chosen_lt : (DT.chosenLit ++ [0]).length < 2 ^ 31 := by decide

def chosenWith (data : Bytes) (hd : data.length < 2 ^ 31) : DTree :=
  .node [.ofData nameLit (DT.chosenLit ++ [0]) length_nameLit_le length_chosen_lt,
    .ofData DT.nvramProxyDataLit data (by decide) hd] []

def patchingImage : NVRAMContent :=
  { NVRAMContent.someImage with
    common :=
      { NVRAMContent.someContent with
        strs := [DT.dtPatchesLit ++ NVRAM.eqChr :: patchP]
        packable := by decide
        ne_nil := by decide
        fits := by decide } }

def bootTree : DTree :=
  .node [] [chosenWith patchingImage.bytes (by decide +kernel), named 'a' [word 'p' 1] [],
    .node [] []]

theorem nvramPatched_bootTree : ∃ mem' good,
    DT.processNVRAMPatches (fun s d => s.splitOn d) bootTree.flatten 0 = .ok (mem', good) ∧
      NVRAMPatched (fun s d => s.splitOn d) bootTree.flatten (0, bootTree) patchingImage
        mem' good := by
  have hdata : ∀ x, nvramProxyData (0, bootTree) = some x → patchingImage.bytes <+: x.2.data := by
    intro x hx
    have hmap : (nvramProxyData (0, bootTree)).map (fun x => x.2.data) =
        some patchingImage.bytes := by decide +kernel
    rw [hx] at hmap
    exact Option.some.inj hmap ▸ List.prefix_refl _
  refine nvramPatched (p := (0, bootTree)) (image_flatten _ (by decide +kernel)) (by decide +kernel)
    hdata fun text ht => ?_
  have htext : NVRAMPartition.valueOf patchingImage.common.strs DT.dtPatchesLit =
      some patchP := by decide +kernel
  obtain rfl := Option.some.inj (htext.symm.trans ht)
  exact ⟨by decide +kernel, by decide +kernel⟩

/-! ### Registers of the CPUs -/

/-- The first eight bytes of every `cpu-impl-reg` below `cpus`, when the properties have the data
that `d` says. -/
def cpuImplRegs (d : ℕ × Property → Bytes) (p : ℕ × DTree) : List UInt64 :=
  match scannedChild p DT.cpusLit with
  | none => []
  | some cpus => (DTree.scanned cpus).filterMap fun cpu =>
    (propertyAt DT.cpuImplRegLit cpu).map fun x => UInt64.ofNat (ofLE ((d x).take 8))

theorem foldlM_cpuImplRegs {α : Type} {vector : FixedCapacity UInt64 DT.maxCpus}
    {body : List UInt64 → α → Exec (List UInt64)} {reg : α → Option UInt64} {cpus : List α}
    (hbody : ∀ cpu ∈ cpus, ∀ regs, body regs cpu =
      match reg cpu with
      | none => .ok regs
      | some r => vector.append regs [r])
    (regs : List UInt64) :
    cpus.foldlM body regs =
      (cpus.filterMap reg).foldlM (fun regs r => vector.append regs [r]) regs := by
  induction cpus generalizing regs with
  | nil => rfl
  | cons cpu cpus ih =>
    have hrest := ih fun c hc => hbody c (List.mem_cons_of_mem cpu hc)
    rw [List.foldlM_cons, hbody cpu List.mem_cons_self]
    cases hr : reg cpu with
    | none =>
      rw [ok_bind, List.filterMap_cons_none hr]
      exact hrest regs
    | some r =>
      rw [List.filterMap_cons_some hr, List.foldlM_cons]
      exact bind_congr hrest

theorem loadU64_of_take {o : ℕ} {data : Bytes} (h : At mem o data) (h8 : 8 ≤ data.length) :
    loadU64 mem o = .ok (UInt64.ofNat (ofLE (data.take 8))) := by
  have hlen : (data.take 8).length = 8 := by rw [List.length_take]; omega
  have hbytes := leBytes_ofLE (data.take 8)
  rw [hlen] at hbytes
  refine loadU64_of_at ?_
  rw [hbytes]
  exact (List.take_prefix 8 data).trans h

theorem Laid.getCPUImplRegAddrs_eq (vector : FixedCapacity UInt64 DT.maxCpus) (h : Laid mem p)
    (hw : p.2.WellFormed) {d : ℕ × Property → Bytes}
    (hd : ∀ x ∈ allProperties p, At mem (DTProp.data x.1) (d x))
    (h8 : ∀ x ∈ allProperties p, x.2.name = DT.cpuImplRegLit → 8 ≤ (d x).length) :
    DT.getCPUImplRegAddrs vector mem p.1 =
      (cpuImplRegs d p).foldlM (fun regs r => vector.append regs [r]) [] := by
  unfold DT.getCPUImplRegAddrs cpuImplRegs
  rw [h.childNamed_eq hw, ok_bind]
  cases hc : scannedChild p DT.cpusLit with
  | none => rfl
  | some cpus =>
    have hcpus : cpus ∈ DTree.scanned p := List.mem_of_find?_eq_some hc
    have hl := h.scanned hcpus
    have hwf := hw.scanned hcpus
    simp only [Option.map_some, hl.self.children_eq, ok_bind,
      SizedIterator.sz_ofSize _ _ hl.self.length_children_lt]
    rw [hl.visits_children.accumulate _ _ (by
      rw [List.length_map]
      exact (Rose.length_scanned headerSize cpus).le), List.foldlM_map]
    refine foldlM_cpuImplRegs (fun cpu hcpu regs => ?_) []
    rw [(hl.scanned hcpu).self.propertyAt_eq (hwf.scanned hcpu).namesOk, ok_bind]
    cases hx : propertyAt DT.cpuImplRegLit cpu with
    | none => rfl
    | some x =>
      have hmem : x ∈ allProperties p := mem_allProperties.mpr ⟨cpu,
        nodesAt_trans (mem_nodesAt_of_scanned hcpus) (mem_nodesAt_of_scanned hcpu),
        mem_propertiesAt hx⟩
      have hload := loadU64_of_take (hd x hmem) (h8 x hmem (name_of_propertyAt hx))
      simp only [Option.map_some, hload, ok_bind]

theorem foldlM_regs_eq (vector : FixedCapacity UInt64 DT.maxCpus) {regs : List UInt64}
    (h : regs.length ≤ DT.maxCpus) :
    regs.foldlM (fun regs r => vector.append regs [r]) [] = .ok regs := by
  have hflat : regs.flatMap (fun r => [r]) = regs := List.flatMap_singleton' regs
  have hfold := vector.foldlM_append (fun r => [r]) regs [] (by
    rw [hflat]
    simpa using h)
  rwa [hflat] at hfold

/-- After a run of patches the boot code adds the registers as patched to its vector, in order,
and gets them if there are at most sixteen. -/
theorem getCPUImplRegAddrs_patched (vector : FixedCapacity UInt64 DT.maxCpus) {patchesSpec : Bytes}
    (h : Image mem p) (hw : p.2.WellFormed) (hp : Patchable split mem p patchesSpec)
    (h8 : ∀ x ∈ allProperties p, x.2.name = DT.cpuImplRegLit → 8 ≤ x.2.data.length) :
    ∃ mem' good regs, DT.processPatches split mem p.1 patchesSpec = .ok (mem', good) ∧
      regs = cpuImplRegs
        (finalData split p (stringSplitViewDelimitedBy split patchesSpec DT.space)) p ∧
      DT.getCPUImplRegAddrs vector mem' p.1 =
        regs.foldlM (fun regs r => vector.append regs [r]) [] ∧
      (regs.length ≤ DT.maxCpus → DT.getCPUImplRegAddrs vector mem' p.1 = .ok regs) := by
  obtain ⟨mem', hrun, hprog⟩ := h.processPatches hw hp
  have hlaid := hprog.laid h.laid fun s hs a ha => hp.noNames.accepted hs ha
  have hregs := hlaid.getCPUImplRegAddrs_eq vector hw hprog.final fun x hx hname => by
    rw [length_finalData]
    exact h8 x hx hname
  exact ⟨mem', _, _, hrun, rfl, hregs, fun hlen => hregs.trans (foldlM_regs_eq vector hlen)⟩

/-- One CPU below `cpus`, with a node behind it. -/
def cpusTree : DTree :=
  .node [] [.node [.ofData nameLit (DT.cpusLit ++ [0]) length_nameLit_le (by decide)]
    [named 'c' [.ofData DT.cpuImplRegLit (leBytes 8 1) (by decide) (by decide)] []], .node [] []]

/-- The patch `/c#cpu-impl-reg=7`. -/
def patchCpu : Bytes := ascii ['/', 'c', '#'] ++ DT.cpuImplRegLit ++ ascii ['=', '7']

theorem getCPUImplRegAddrs_patchCpu : ∃ mem' good regs,
    DT.processPatches (fun s d => s.splitOn d) cpusTree.flatten 0 patchCpu = .ok (mem', good) ∧
      regs = cpuImplRegs (finalData (fun s d => s.splitOn d) (0, cpusTree)
        (stringSplitViewDelimitedBy (fun s d => s.splitOn d) patchCpu DT.space)) (0, cpusTree) ∧
      DT.getCPUImplRegAddrs .stopping mem' 0 =
        regs.foldlM (fun regs r =>
          (FixedCapacity.stopping : FixedCapacity UInt64 DT.maxCpus).append regs [r]) [] ∧
      (regs.length ≤ DT.maxCpus → DT.getCPUImplRegAddrs .stopping mem' 0 = .ok regs) :=
  getCPUImplRegAddrs_patched .stopping (p := (0, cpusTree)) (image_flatten _ (by decide +kernel))
    (by decide +kernel) ⟨by decide +kernel, by decide +kernel⟩ (by decide +kernel)

end DTree
end JevMachO

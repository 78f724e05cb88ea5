import JevMachO.DeviceTree.BootPatches
import JevMachO.NVRAM.BootArgs

/-! What dumping a tree shows of it in a build without `USE_FMT`, and the one word it sets on the
way. -/
namespace JevMachO
open Lib

namespace DT

/-- The literal `"internal-use-only-unit"`. -/
def internalUseOnlyUnitLit : Bytes :=
  ascii ['i', 'n', 't', 'e', 'r', 'n', 'a', 'l', '-', 'u', 's', 'e', '-', 'o', 'n', 'l', 'y', '-',
    'u', 'n', 'i', 't']

def dashV : Bytes := ascii ['-', 'v']

/-- The lines that are printed, each with its values. -/
inductive DumpLine where
  | dtree (buf : ℕ)
  | root (props children : UInt32)
  | iuouBefore (value : UInt32)
  | iuouAfter (value : UInt32)
  | iuouMissing
  | bootArgs (args : Bytes)
  | bootArg (arg : Bytes)
  | hasVerbose (verbose : Bool)
  | bootArgsMissing
  | chosenMissing
  | cpuImplRegMissing
  | cpusMissing
  | cpuImplRegAddr (addr : UInt64)
  deriving DecidableEq, Repr

/-- The word is stored through a reference that the property gives out as constant. -/
def dumpInternalUseOnlyUnit (mem : Bytes) (chosenNode : ℕ) : Exec (List DumpLine × Bytes) := do
  match ← DTNode.propertyNamed mem chosenNode internalUseOnlyUnitLit with
  | none => return ([.iuouMissing], mem)
  | some iuouProp =>
    let before ← loadU32 mem (← DTProp.asU32 mem iuouProp)
    assertThat ((← DTProp.sizeRaw mem iuouProp) == 4)
    let mem ← store mem (← DTProp.asU32 mem iuouProp) (leBytes 4 1)
    let after ← loadU32 mem (← DTProp.asU32 mem iuouProp)
    return ([.iuouBefore before, .iuouAfter after], mem)

def dumpBootArgs (mem : Bytes) (chosenNode : ℕ) : Exec (List DumpLine) := do
  match ← DTNode.propertyNamed mem chosenNode nvramProxyDataLit with
  | none => return []
  | some nvramProxyDataProp =>
    let proxyData ← NVRAM.extractProxyData mem (DTProp.data nvramProxyDataProp)
    match ← NVRAMPartition.varNamed mem proxyData.systemPart NVRAMProxyData.bootArgsLit with
    | none => return [.bootArgsMissing]
    | some bootArgsVarEqValStr =>
      match ← NVRAM.varValue mem (some bootArgsVarEqValStr) with
      | none => .error .nullDeref
      | some bootArgs =>
        let args ← cstr mem bootArgs
        let first ← rangeForDelimitedCStr mem NVRAMProxyData.space (some bootArgs)
        let tokens ← (DelimitedCStrIterator.cursor mem NVRAMProxyData.space).elements
          (mem.length + 1) first
        let hasVerbose ← NVRAMProxyData.systemHasBootArg mem proxyData dashV
        return .bootArgs args :: tokens.map .bootArg ++ [.hasVerbose hasVerbose]

def dumpCpus (mem : Bytes) (rootNode : ℕ) : Exec (List DumpLine) := do
  match ← DTNode.childNamed mem rootNode cpusLit with
  | none => return [.cpusMissing]
  | some cpusNode =>
    let first ← DTNode.children mem cpusNode
    (DTNode.cursor mem).accumulate
      (fun lines cpuNode => do
        match ← DTNode.propertyNamed mem cpuNode cpuImplRegLit with
        | none => return lines ++ [.cpuImplRegMissing]
        | some _ => return lines)
      first.sz.toNat first []

/-- `dump_dtree` without `USE_FMT`. What is missing below `cpus` is told twice, by the dump and by
`get_cpu_impl_reg_addrs`. -/
def dumpDtree (vector : FixedCapacity UInt64 maxCpus) (mem : Bytes) (dtreeBuf : ℕ) :
    Exec (List DumpLine × Bytes) := do
  let props ← DTNode.propertiesSize mem dtreeBuf
  let children ← DTNode.childrenSize mem dtreeBuf
  let (chosen, mem) ← match ← DTNode.childNamed mem dtreeBuf chosenLit with
    | none => pure ([.chosenMissing], mem)
    | some chosenNode => do
      let (iuou, mem) ← dumpInternalUseOnlyUnit mem chosenNode
      let args ← dumpBootArgs mem chosenNode
      pure (iuou ++ args, mem)
  let cpus ← dumpCpus mem dtreeBuf
  let cpuImplRegAddrs ← getCPUImplRegAddrs vector mem dtreeBuf
  return (.dtree dtreeBuf :: .root props children :: chosen ++ cpus ++ cpus ++
    cpuImplRegAddrs.map .cpuImplRegAddr, mem)

end DT

namespace DTree
open DT

/-! ### What is shown of a tree whose properties have the data that `d` says -/

def internalUseOnlyUnit (p : ℕ × DTree) : Option (ℕ × Property) :=
  (scannedChild p DT.chosenLit).bind (propertyAt DT.internalUseOnlyUnitLit)

/-- The data after the dump. -/
def marked (d : ℕ × Property → Bytes) (p : ℕ × DTree) (x : ℕ × Property) : Bytes :=
  if internalUseOnlyUnit p = some x then leBytes 4 1 else d x

def unitLines (d : ℕ × Property → Bytes) (p : ℕ × DTree) : List DumpLine :=
  match internalUseOnlyUnit p with
  | none => [.iuouMissing]
  | some x => [.iuouBefore (UInt32.ofNat (ofLE (d x))), .iuouAfter 1]

def argLines (img : NVRAMContent) (p : ℕ × DTree) : List DumpLine :=
  match nvramProxyData p with
  | none => []
  | some _ =>
    match NVRAMProxyData.bootArgsOf img.system.strs with
    | none => [.bootArgsMissing]
    | some args =>
      let tokens := args.splitOn NVRAMProxyData.space
      .bootArgs args :: tokens.map .bootArg ++ [.hasVerbose (decide (dashV ∈ tokens))]

def cpuLines (p : ℕ × DTree) : List DumpLine :=
  match scannedChild p DT.cpusLit with
  | none => [.cpusMissing]
  | some cpus => (DTree.scanned cpus).filterMap fun cpu =>
    if propertyAt DT.cpuImplRegLit cpu = none then some .cpuImplRegMissing else none

def dumpLines (d : ℕ × Property → Bytes) (img : NVRAMContent) (p : ℕ × DTree) : List DumpLine :=
  .dtree p.1 :: .root (UInt32.ofNat p.2.label.length) (UInt32.ofNat p.2.children.length) ::
    (if scannedChild p DT.chosenLit = none then [.chosenMissing]
      else unitLines d p ++ argLines img p) ++ cpuLines p ++ cpuLines p ++
    (cpuImplRegs d p).map .cpuImplRegAddr

/-- An image with this tree and this data. -/
structure Shows (mem : Bytes) (p : ℕ × DTree) (d : ℕ × Property → Bytes) : Prop where
  laid : Laid mem p
  data : ∀ x ∈ allProperties p, At mem (DTProp.data x.1) (d x)
  length : ∀ x ∈ allProperties p, (d x).length = x.2.data.length

theorem Image.shows {mem : Bytes} {p : ℕ × DTree} (h : Image mem p) :
    Shows mem p fun x => x.2.data := ⟨h.laid, fun _ => h.at_data, fun _ _ => rfl⟩

variable {mem mem' : Bytes} {p q : ℕ × DTree} {d : ℕ × Property → Bytes} {x y : ℕ × Property}
  {img : NVRAMContent}

theorem name_internalUseOnlyUnit (h : internalUseOnlyUnit p = some x) :
    x.2.name = DT.internalUseOnlyUnitLit := by
  obtain ⟨q, -, hx⟩ := Option.bind_eq_some_iff.mp h
  exact name_of_propertyAt hx

theorem internalUseOnlyUnit_mem (h : internalUseOnlyUnit p = some x) : x ∈ allProperties p := by
  obtain ⟨q, hq, hx⟩ := Option.bind_eq_some_iff.mp h
  have hq' : q ∈ scanned p := List.mem_of_find?_eq_some hq
  exact mem_allProperties.mpr ⟨q, mem_nodesAt_of_scanned hq', mem_propertiesAt hx⟩

theorem marked_of_name (h : x.2.name ≠ DT.internalUseOnlyUnitLit) : marked d p x = d x := by
  rw [marked, if_neg]
  exact fun hx => h (name_internalUseOnlyUnit hx)

/-- Four bytes stored over four bytes of data change nothing else. -/
theorem Shows.store (h : Shows mem p d) (hx : internalUseOnlyUnit p = some x)
    (h4 : x.2.data.length = 4) (hp : patch mem (DTProp.data x.1) (leBytes 4 1) = some mem') :
    Shows mem' p (marked d p) := by
  have hmem := internalUseOnlyUnit_mem hx
  have hne : x.2.name ≠ nameLit := by
    rw [name_internalUseOnlyUnit hx]
    decide
  have hout : ∀ i, ¬InData x i → mem'[i]? = mem[i]? := by
    intro i hi
    apply getElem?_patch_outside hp
    rw [length_leBytes, ← h4]
    unfold InData at hi
    omega
  constructor
  · exact h.laid.congr fun i hi => hout i (hi x hmem hne)
  · intro y hy
    by_cases hxy : x = y
    · subst hxy
      rw [marked, if_pos hx]
      exact at_patch hp
    · rw [marked, if_neg fun hy => hxy (Option.some.inj (hx.symm.trans hy))]
      refine (h.data y hy).of_getElem? fun i hi => hout _ fun hin => ?_
      rw [h.length y hy] at hi
      have hxs := data_lt_size x.2
      have hys := data_lt_size y.2
      simp only [InData, DTProp.data, DTProp.sizeofProp] at hin hxs hys
      rcases properties_apart hmem hy with heq | hap
      · exact hxy heq
      · omega
  · intro y hy
    unfold marked
    split_ifs with hm
    · obtain rfl := Option.some.inj (hx.symm.trans hm)
      rw [length_leBytes, h4]
    · exact h.length y hy

theorem loadU32_of_data {o : ℕ} {data : Bytes} (h : At mem o data) (h4 : data.length = 4) :
    loadU32 mem o = .ok (UInt32.ofNat (ofLE data)) := by
  have hbytes := leBytes_ofLE data
  rw [h4] at hbytes
  apply loadU32_of_at
  rw [hbytes]
  exact h

/-- The word has four bytes. -/
def UnitFits (p : ℕ × DTree) : Prop := ∀ x, internalUseOnlyUnit p = some x → x.2.data.length = 4

instance (p : ℕ × DTree) : Decidable (UnitFits p) :=
  inferInstanceAs (Decidable (∀ x, internalUseOnlyUnit p = some x → x.2.data.length = 4))

/-- The word is shown, set and shown again. Data of another size fails the first assertion. -/
theorem Shows.dumpInternalUseOnlyUnit_eq (h : Shows mem p d) (hw : p.2.WellFormed)
    (hq : scannedChild p DT.chosenLit = some q) :
    if UnitFits p then
      ∃ mem', DT.dumpInternalUseOnlyUnit mem q.1 = .ok (unitLines d p, mem') ∧
        Shows mem' p (marked d p) ∧
        ChangedIn {i | ∃ x, internalUseOnlyUnit p = some x ∧ InData x i} mem mem'
    else DT.dumpInternalUseOnlyUnit mem q.1 = .error .assertFailed := by
  have hqmem : q ∈ scanned p := List.mem_of_find?_eq_some hq
  have hprop := (h.laid.scanned hqmem).self.propertyAt_eq (hw.scanned hqmem).namesOk
    DT.internalUseOnlyUnitLit
  have hunit : internalUseOnlyUnit p = propertyAt DT.internalUseOnlyUnitLit q := by
    rw [internalUseOnlyUnit, hq, Option.bind_some]
  unfold DT.dumpInternalUseOnlyUnit
  rw [hprop, ok_bind]
  cases hx : propertyAt DT.internalUseOnlyUnitLit q with
  | none =>
    rw [hx] at hunit
    have hall : UnitFits p := by
      intro x hx
      rw [hunit] at hx
      cases hx
    have hmarked : marked d p = d := by
      funext y
      rw [marked, if_neg (by rw [hunit]; exact nofun)]
    rw [if_pos hall]
    refine ⟨mem, ?_, hmarked.symm ▸ h, .refl _ _⟩
    rw [unitLines, hunit]
    rfl
  | some x =>
    rw [hx] at hunit
    have hmem := internalUseOnlyUnit_mem hunit
    have hsize := h.laid.sizeRaw_eq hmem
    have hiff : UnitFits p ↔ x.2.data.length = 4 := by
      constructor
      · exact fun hall => hall x hunit
      · intro h4 y hy
        obtain rfl := Option.some.inj (hunit.symm.trans hy)
        exact h4
    simp only [Option.map_some]
    by_cases h4 : x.2.data.length = 4
    · rw [if_pos (hiff.mpr h4)]
      have hsize4 : DTProp.sizeRaw mem x.1 = .ok 4 := by rw [hsize, h4]; rfl
      have hdata := h.data x hmem
      have hlen := (h.length x hmem).trans h4
      have hin := hdata.length_le fun h0 => by simp [h0] at hlen
      rw [hlen, ← length_leBytes 4 1] at hin
      obtain ⟨mem', hpatch⟩ := patch_isSome hin
      have hshows := h.store hunit h4 hpatch
      have hsize' : DTProp.sizeRaw mem' x.1 = .ok 4 := by
        rw [hshows.laid.sizeRaw_eq hmem, h4]
        rfl
      have hafter : loadU32 mem' (DTProp.data x.1) = .ok 1 := loadU32_of_at (at_patch hpatch)
      refine ⟨mem', ?_, hshows, ?_⟩
      · simp only [asU32_eq hsize4, ok_bind, loadU32_of_data hdata hlen, hsize4,
          beq_self_eq_true, assertThat_true, store_of_patch hpatch, asU32_eq hsize', hafter,
          unitLines, hunit]
        rfl
      · refine (ChangedIn.of_patch hpatch).mono fun i hi => ⟨x, hunit, ?_⟩
        rw [length_leBytes, Set.mem_Ico] at hi
        unfold InData
        rwa [h4]
    · rw [if_neg fun hall => h4 (hiff.mp hall)]
      have hne : (UInt32.ofNat x.2.data.length == 4) = false := by
        rw [beq_eq_false_iff_ne]
        exact fun heq => h4 ((sizeWord_eq_iff x.2 (by decide)).mp heq)
      simp only [DTProp.asU32, hsize, ok_bind, hne]
      rfl

/-- The tokens of a C string, all of them. -/
theorem elements_tokens {o : ℕ} {v : Bytes} (h : cstr mem o = .ok v) :
    ∃ first, rangeForDelimitedCStr mem NVRAMProxyData.space (some o) = .ok first ∧
      (DelimitedCStrIterator.cursor mem NVRAMProxyData.space).elements (mem.length + 1) first =
        .ok (v.splitOn NVRAMProxyData.space) := by
  obtain ⟨h0, hat⟩ := cstr_eq_ok h
  obtain ⟨first, hfirst, hv⟩ := exists_visits_splitOn (d := NVRAMProxyData.space) (by decide)
    hat h0
  have hlen := length_splitOn_le NVRAMProxyData.space v
  have hin := hat.length_le (by simp)
  rw [List.length_append, List.length_singleton] at hin
  exact ⟨first, hfirst, hv.elements _ (by omega)⟩

/-- The boot arguments of the system partition are shown whole, token by token, and asked for
`-v`. -/
theorem Shows.dumpBootArgs_eq (h : Shows mem p d) (hw : p.2.WellFormed)
    (hq : scannedChild p DT.chosenLit = some q)
    (hdata : ∀ x, nvramProxyData p = some x → img.bytes <+: d x) :
    DT.dumpBootArgs mem q.1 = .ok (argLines img p) := by
  have hqmem : q ∈ scanned p := List.mem_of_find?_eq_some hq
  have hproxy : nvramProxyData p = propertyAt DT.nvramProxyDataLit q := by
    rw [nvramProxyData, hq, Option.bind_some]
  unfold DT.dumpBootArgs argLines
  rw [(h.laid.scanned hqmem).self.propertyAt_eq (hw.scanned hqmem).namesOk, ok_bind, hproxy]
  cases hx : propertyAt DT.nvramProxyDataLit q with
  | none => rfl
  | some x =>
    have hx' : nvramProxyData p = some x := hproxy.trans hx
    have hat : At mem (DTProp.data x.1) img.bytes :=
      (hdata x hx').trans (h.data x (nvramProxyData_mem hx'))
    have hvars := NVRAMPartition.holdsVars (NVRAMContent.at_partitions hat).2
    simp only [Option.map_some, NVRAMContent.extractProxyData_eq hat, ok_bind]
    rcases NVRAMPartition.first_or_none NVRAMProxyData.bootArgsLit img.system.strs with
      hnone | ⟨pre, s, post, heq, hs, hpre⟩
    · rw [hvars.varNamed_of_none hnone, NVRAMProxyData.bootArgsOf_of_none hnone]
      rfl
    · have hname := NVRAMProxyData.varName_bootArgsLit
      obtain ⟨v, rfl⟩ := (NVRAMPartition.nameOf_eq_iff hname).mp hs
      rw [heq] at hvars ⊢
      obtain ⟨hvar, hcstr⟩ := hvars.varNamed_of_first hs hpre
      obtain ⟨hval, hv⟩ := NVRAMPartition.varValue_eq hname.no_eq hcstr
      obtain ⟨first, hfirst, htokens⟩ := elements_tokens hv
      have hverbose : NVRAMProxyData.systemHasBootArg mem
          (img.proxyData (DTProp.data x.1)) dashV = _ :=
        NVRAMProxyData.hasBootArg_of_first hvars hpre dashV
      rw [hvar, ok_bind]
      dsimp only
      rw [hval, ok_bind]
      dsimp only
      rw [hv, ok_bind, hfirst, ok_bind, htokens, ok_bind, hverbose, ok_bind,
        NVRAMProxyData.bootArgsOf_of_first hpre]
      rfl

/-- The CPUs that have no register are counted by their lines. -/
theorem foldlM_cpuLines {α : Type} {body : List DumpLine → α → Exec (List DumpLine)}
    (missing : α → Bool) {cpus : List α}
    (hbody : ∀ cpu ∈ cpus, ∀ lines, body lines cpu =
      .ok (if missing cpu then lines ++ [.cpuImplRegMissing] else lines))
    (lines : List DumpLine) : cpus.foldlM body lines = .ok (lines ++ cpus.filterMap fun cpu =>
      if missing cpu then some .cpuImplRegMissing else none) := by
  induction cpus generalizing lines with
  | nil => rw [List.filterMap_nil, List.append_nil]; rfl
  | cons cpu cpus ih =>
    have hrest := ih fun c hc => hbody c (List.mem_cons_of_mem cpu hc)
    rw [List.foldlM_cons, hbody cpu List.mem_cons_self, ok_bind, hrest, List.filterMap_cons]
    cases missing cpu with
    | false => rfl
    | true => simp

theorem Shows.dumpCpus_eq (h : Shows mem p d) (hw : p.2.WellFormed) :
    DT.dumpCpus mem p.1 = .ok (cpuLines p) := by
  unfold DT.dumpCpus cpuLines
  rw [h.laid.childNamed_eq hw, ok_bind]
  cases hc : scannedChild p DT.cpusLit with
  | none => rfl
  | some cpus =>
    have hcpus : cpus ∈ DTree.scanned p := List.mem_of_find?_eq_some hc
    have hl := h.laid.scanned hcpus
    have hwf := hw.scanned hcpus
    simp only [Option.map_some, hl.self.children_eq, ok_bind,
      SizedIterator.sz_ofSize _ _ hl.self.length_children_lt]
    rw [hl.visits_children.accumulate _ _ (by
      rw [List.length_map]
      exact (Rose.length_scanned headerSize cpus).le), List.foldlM_map,
      foldlM_cpuLines fun cpu => (propertyAt DT.cpuImplRegLit cpu).isNone]
    · simp only [List.nil_append, Option.isNone_iff_eq_none]
    · intro cpu hcpu lines
      rw [(hl.scanned hcpu).self.propertyAt_eq (hwf.scanned hcpu).namesOk, ok_bind]
      cases propertyAt DT.cpuImplRegLit cpu with
      | none => rfl
      | some x => rfl

theorem cpuImplRegs_marked (d : ℕ × Property → Bytes) (p : ℕ × DTree) :
    cpuImplRegs (marked d p) p = cpuImplRegs d p := by
  unfold cpuImplRegs
  cases scannedChild p DT.cpusLit with
  | none => rfl
  | some cpus =>
    refine List.filterMap_congr fun cpu _ => Option.map_congr fun x hx => ?_
    have hne : x.2.name ≠ DT.internalUseOnlyUnitLit := by
      rw [name_of_propertyAt hx]
      decide
    rw [marked_of_name hne]

/-- The part about `chosen`. -/
theorem Shows.dumpChosen_eq (h : Shows mem p d) (hw : p.2.WellFormed)
    (hdata : ∀ x, nvramProxyData p = some x → img.bytes <+: d x)
    (hunit : UnitFits p) (hq : scannedChild p DT.chosenLit = some q) :
    ∃ mem', DT.dumpInternalUseOnlyUnit mem q.1 = .ok (unitLines d p, mem') ∧
      DT.dumpBootArgs mem' q.1 = .ok (argLines img p) ∧ Shows mem' p (marked d p) ∧
      ChangedIn {i | ∃ x, internalUseOnlyUnit p = some x ∧ InData x i} mem mem' := by
  have hword := h.dumpInternalUseOnlyUnit_eq hw hq
  rw [if_pos hunit] at hword
  obtain ⟨mem', hrun, hshows, hchanged⟩ := hword
  refine ⟨mem', hrun, hshows.dumpBootArgs_eq hw hq fun x hx => ?_, hshows, hchanged⟩
  have hname : x.2.name = DT.nvramProxyDataLit := by
    obtain ⟨r, -, hx⟩ := Option.bind_eq_some_iff.mp hx
    exact name_of_propertyAt hx
  have hne : x.2.name ≠ DT.internalUseOnlyUnitLit := by
    rw [hname]
    decide
  rw [marked_of_name hne]
  exact hdata x hx

/-- A dump of a tree with this data: what it prints, and the data it leaves. -/
theorem Shows.dumpDtree_eq (vector : FixedCapacity UInt64 DT.maxCpus) (h : Shows mem p d)
    (hw : p.2.WellFormed) (hdata : ∀ x, nvramProxyData p = some x → img.bytes <+: d x)
    (h8 : ∀ x ∈ allProperties p, x.2.name = DT.cpuImplRegLit → 8 ≤ (d x).length)
    (hlen : (cpuImplRegs d p).length ≤ DT.maxCpus) :
    if UnitFits p then
      ∃ mem', DT.dumpDtree vector mem p.1 = .ok (dumpLines d img p, mem') ∧
        Shows mem' p (marked d p) ∧
        ChangedIn {i | ∃ x, internalUseOnlyUnit p = some x ∧ InData x i} mem mem'
    else DT.dumpDtree vector mem p.1 = .error .assertFailed := by
  have hprops : DTNode.propertiesSize mem p.1 = .ok (UInt32.ofNat p.2.label.length) :=
    loadU32_of_at h.laid.self.nprops
  have hchildren : DTNode.childrenSize mem p.1 = .ok (UInt32.ofNat p.2.children.length) :=
    h.laid.self.nchildren_eq
  -- what is done after `chosen`, in the memory it leaves
  have hrest : ∀ mem', Shows mem' p (marked d p) → DT.dumpCpus mem' p.1 = .ok (cpuLines p) ∧
      DT.getCPUImplRegAddrs vector mem' p.1 = .ok (cpuImplRegs d p) := by
    intro mem' h'
    have hregs := h'.laid.getCPUImplRegAddrs_eq vector hw h'.data fun x hx hname => by
      have hne : x.2.name ≠ DT.internalUseOnlyUnitLit := by
        rw [hname]
        decide
      rw [marked_of_name hne]
      exact h8 x hx hname
    rw [cpuImplRegs_marked, foldlM_regs_eq vector hlen] at hregs
    exact ⟨h'.dumpCpus_eq hw, hregs⟩
  unfold DT.dumpDtree
  rw [hprops, ok_bind, hchildren, ok_bind, h.laid.childNamed_eq hw, ok_bind]
  cases hq : scannedChild p DT.chosenLit with
  | none =>
    have hnone : internalUseOnlyUnit p = none := by rw [internalUseOnlyUnit, hq, Option.bind_none]
    have hmarked : marked d p = d := by
      funext y
      rw [marked, if_neg (by rw [hnone]; exact nofun)]
    have hunit : UnitFits p := by
      rw [UnitFits, hnone]
      exact nofun
    have hshows : Shows mem p (marked d p) := hmarked.symm ▸ h
    obtain ⟨hcpus, hregs⟩ := hrest mem hshows
    rw [if_pos hunit]
    refine ⟨mem, ?_, hshows, .refl _ _⟩
    simp only [Option.map_none, pure_eq_ok, ok_bind, hcpus, hregs, dumpLines, hq, if_true]
  | some q =>
    simp only [Option.map_some]
    by_cases hunit : UnitFits p
    · obtain ⟨mem', hword, hargs, hshows, hchanged⟩ := h.dumpChosen_eq hw hdata hunit hq
      obtain ⟨hcpus, hregs⟩ := hrest mem' hshows
      rw [if_pos hunit]
      refine ⟨mem', ?_, hshows, hchanged⟩
      simp only [hword, hargs, pure_eq_ok, ok_bind, hcpus, hregs, dumpLines, hq, reduceCtorEq,
        if_false]
    · have hword := h.dumpInternalUseOnlyUnit_eq hw hq
      rw [if_neg hunit] at hword ⊢
      rw [hword]
      rfl

/-- What a dump leaves: only the one word is set, paths lead where they did, and another dump shows
the same with the word as it is now. -/
structure Dumped (vector : FixedCapacity UInt64 DT.maxCpus) (split : SplitView) (mem : Bytes)
    (p : ℕ × DTree) (img : NVRAMContent) (mem' : Bytes) : Prop where
  changed : ChangedIn {i | ∃ x, internalUseOnlyUnit p = some x ∧ InData x i} mem mem'
  word : ∀ x, internalUseOnlyUnit p = some x → At mem' (DTProp.data x.1) (leBytes 4 1)
  lookups : ∀ path, DTNode.lookupProperty split mem' p.1 path =
    DTNode.lookupProperty split mem p.1 path
  again : DT.dumpDtree vector mem' p.1 = .ok (dumpLines (marked (fun x => x.2.data) p) img p, mem')

/-- Two images with the same data that differ at most in the word are the same. -/
theorem Shows.unique (h : Shows mem p d) (h' : Shows mem' p d)
    (hc : ChangedIn {i | ∃ x, internalUseOnlyUnit p = some x ∧ InData x i} mem mem') :
    mem' = mem := by
  refine List.ext_getElem? fun i => ?_
  by_cases hi : ∃ x, internalUseOnlyUnit p = some x ∧ InData x i
  · obtain ⟨x, hx, hin⟩ := hi
    have hmem := internalUseOnlyUnit_mem hx
    obtain ⟨k, rfl⟩ := Nat.exists_eq_add_of_le hin.1
    have hk : k < (d x).length := by
      have hlt := hin.2
      rw [h.length x hmem]
      omega
    rw [(h.data x hmem).getElem? hk, (h'.data x hmem).getElem? hk]
  · exact hc.2 i hi

theorem marked_marked (d : ℕ × Property → Bytes) (p : ℕ × DTree) :
    marked (marked d p) p = marked d p := by
  funext x
  unfold marked
  split_ifs <;> rfl

/-- A tree is dumped as it is, with the boot arguments of its NVRAM image and the registers of its
CPUs, unless an assertion fails. -/
theorem dumpDtree_dumped (vector : FixedCapacity UInt64 DT.maxCpus) (split : SplitView)
    (h : Image mem p) (hw : p.2.WellFormed)
    (hdata : ∀ x, nvramProxyData p = some x → img.bytes <+: x.2.data)
    (h8 : ∀ x ∈ allProperties p, x.2.name = DT.cpuImplRegLit → 8 ≤ x.2.data.length)
    (hlen : (cpuImplRegs (fun x => x.2.data) p).length ≤ DT.maxCpus) :
    if UnitFits p then
      ∃ mem', DT.dumpDtree vector mem p.1 = .ok (dumpLines (fun x => x.2.data) img p, mem') ∧
        Dumped vector split mem p img mem'
    else DT.dumpDtree vector mem p.1 = .error .assertFailed := by
  have hrun := h.shows.dumpDtree_eq vector hw hdata h8 hlen
  by_cases hunit : UnitFits p
  · rw [if_pos hunit] at hrun ⊢
    obtain ⟨mem', hrun, hshows, hchanged⟩ := hrun
    have hdata' : ∀ x, nvramProxyData p = some x → img.bytes <+: marked (·.2.data) p x := by
      intro x hx
      have hne : x.2.name ≠ DT.internalUseOnlyUnitLit := by
        obtain ⟨r, -, hx⟩ := Option.bind_eq_some_iff.mp hx
        rw [name_of_propertyAt hx]
        decide
      rw [marked_of_name hne]
      exact hdata x hx
    have h8' : ∀ x ∈ allProperties p, x.2.name = DT.cpuImplRegLit →
        8 ≤ (marked (·.2.data) p x).length := by
      intro x hx hname
      rw [hshows.length x hx]
      exact h8 x hx hname
    have hagain := hshows.dumpDtree_eq vector hw hdata' h8'
      ((cpuImplRegs_marked (·.2.data) p).symm ▸ hlen)
    rw [if_pos hunit, marked_marked] at hagain
    obtain ⟨mem'', hrun', hshows', hchanged'⟩ := hagain
    rw [hshows.unique hshows' hchanged'] at hrun'
    refine ⟨mem', hrun, hchanged, fun x hx => ?_, fun path => ?_, hrun'⟩
    · have hword := hshows.data x (internalUseOnlyUnit_mem hx)
      rwa [marked, if_pos hx] at hword
    · rw [hshows.laid.lookupProperty_eq hw, h.laid.lookupProperty_eq hw]
  · rwa [if_neg hunit] at hrun ⊢

/-- An image whose system partition has boot arguments. -/
def verboseImage : NVRAMContent :=
  { NVRAMContent.someImage with
    system :=
      { NVRAMContent.someContent with
        strs := NVRAMProxyData.withBootArgs
        packable := by decide
        ne_nil := by decide
        fits := by decide } }

theorem length_internalUseOnlyUnit_le : DT.internalUseOnlyUnitLit.length ≤ 32 := by decide

theorem length_nvramProxyData_le : DT.nvramProxyDataLit.length ≤ 32 := by decide

theorem length_cpuImplReg_le : DT.cpuImplRegLit.length ≤ 32 := by decide

theorem length_cpus_lt : (DT.cpusLit ++ [0]).length < 2 ^ 31 := by decide

theorem length_word_lt : (leBytes 4 7).length < 2 ^ 31 := by decide

theorem length_register_lt : (leBytes 8 1).length < 2 ^ 31 := by decide

theorem length_verboseImage_lt : verboseImage.bytes.length < 2 ^ 31 := by
  rw [NVRAMContent.length_bytes]
  decide

/-- A tree with the word, the image and one CPU. -/
def dumpTree : DTree :=
  .node [] [.node [.ofData nameLit (DT.chosenLit ++ [0]) length_nameLit_le length_chosen_lt,
      .ofData DT.internalUseOnlyUnitLit (leBytes 4 7) length_internalUseOnlyUnit_le
        length_word_lt,
      .ofData DT.nvramProxyDataLit verboseImage.bytes length_nvramProxyData_le
        length_verboseImage_lt] [],
    .node [.ofData nameLit (DT.cpusLit ++ [0]) length_nameLit_le length_cpus_lt]
      [named 'c' [.ofData DT.cpuImplRegLit (leBytes 8 1) length_cpuImplReg_le
        length_register_lt] []]]

theorem dumpDtree_dumped_dumpTree : ∃ mem',
    DT.dumpDtree .stopping dumpTree.flatten 0 =
        .ok (dumpLines (fun x => x.2.data) verboseImage (0, dumpTree), mem') ∧
      Dumped .stopping (fun s d => s.splitOn d) dumpTree.flatten (0, dumpTree) verboseImage
        mem' := by
  have hdata : ∀ x, nvramProxyData (0, dumpTree) = some x → verboseImage.bytes <+: x.2.data := by
    intro x hx
    have hmap : (nvramProxyData (0, dumpTree)).map (fun x => x.2.data) =
        some verboseImage.bytes := by decide +kernel
    rw [hx] at hmap
    exact Option.some.inj hmap ▸ List.prefix_refl _
  have hunit : UnitFits (0, dumpTree) := by decide +kernel
  have h := dumpDtree_dumped .stopping (p := (0, dumpTree)) (fun s d => s.splitOn d)
    (image_flatten _ (by decide +kernel)) (by decide +kernel) hdata (by decide +kernel)
    (by decide +kernel)
  rwa [if_pos hunit] at h

end DTree
end JevMachO

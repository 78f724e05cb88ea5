import JevMachO.DeviceTree.TableEdits
import JevMachO.MachO.CommandFrame
import JevMachO.XNUBoot.Load

/-! What the edits leave in the memory map. Renaming a region and replacing its register touches
no other property, and no region is SEPFW's or the boot arguments' property, so these keep their
registers until the end and every segment keeps the region it was given. -/
namespace JevMachO
open Lib

/-! ### One region -/

section region
variable {mem mem₁ mem' : Bytes} {n p o : ℕ} {xs : List Property} {q : ℕ × Property}

theorem nameStartsWith_eq_ok {start : ℕ → Exec Bytes}
    (h : DTProp.nameStartsWith start mem p = .ok true) :
    ∃ name s, DTProp.name mem p = .ok name ∧ start p = .ok s ∧ s <+: name := by
  obtain ⟨name, hname, h⟩ := bind_eq_ok.mp h
  obtain ⟨s, hs, h⟩ := bind_eq_ok.mp h
  exact ⟨name, s, hname, hs, List.isPrefixOf_iff_prefix.mp (Except.ok.inj h)⟩

theorem name_subset_editable (hq : q ∈ tableAt n xs) :
    Set.Ico q.1 (q.1 + DTProp.sizeofNameBuf) ⊆ editable n xs (· = q.1) :=
  fun _ hi => ⟨q, hq, rfl, .inl hi⟩

theorem data_subset_editable (hq : q ∈ tableAt n xs) :
    Set.Ico (DTProp.data q.1) (DTProp.data q.1 + q.2.data.length) ⊆ editable n xs (· = q.1) :=
  fun _ hi => ⟨q, hq, rfl, .inr hi⟩

/-- The property is in the table and has a register's worth of data. -/
def HasRegister (n : ℕ) (xs : List Property) (p : ℕ) : Prop :=
  ∃ x, (p, x) ∈ tableAt n xs ∧ x.data.length = DTRegister.sizeofRegister

theorem PropertyTable.asReg_of_hasRegister (h : PropertyTable mem n xs) (hp : HasRegister n xs p) :
    DTProp.asReg mem p = .ok (DTProp.data p) := by
  obtain ⟨x, hx, hlen⟩ := hp
  have hsz : (UInt32.ofNat x.data.length).toNat = DTRegister.sizeofRegister := by
    rw [hlen]
    rfl
  rw [DTProp.asReg, Property.sizeRaw_eq (h.sizeWord _ hx), ok_bind, hsz, beq_self_eq_true,
    assertThat_true, ok_bind, pure_eq_ok]

/-- A register is read unchanged when other properties are edited. -/
theorem HasRegister.read_changedIn {E : ℕ → Prop} (hp : HasRegister n xs p) (hE : ¬E p)
    (hc : ChangedIn (editable n xs E) mem mem') :
    DTRegister.read mem' (DTProp.data p) = DTRegister.read mem (DTProp.data p) := by
  obtain ⟨x, hx, hlen⟩ := hp
  have hd := disjoint_data hx hE
  rw [hlen] at hd
  exact DTRegister.read_changedIn hc hd

theorem HasRegister.name_changedIn {E : ℕ → Prop} (hp : HasRegister n xs p) (hE : ¬E p)
    (hc : ChangedIn (editable n xs E) mem mem') : DTProp.name mem' p = DTProp.name mem p := by
  obtain ⟨x, hx, -⟩ := hp
  exact JevMachO.name_changedIn hc (disjoint_name hx hE)

/-- A property with a register is inside its table. -/
theorem HasRegister.subset_tableRange (hp : HasRegister n xs p) :
    Set.Ico p (p + DTProp.sizeofNameBuf) ⊆ tableRange n xs ∧
      Set.Ico (DTProp.data p) (DTProp.data p + DTRegister.sizeofRegister) ⊆ tableRange n xs := by
  obtain ⟨x, hx, hlen⟩ := hp
  rw [← hlen]
  exact ⟨fun _ hi => record_subset_tableRange hx (mem_record_of_mem_fields (.inl hi)),
    fun _ hi => record_subset_tableRange hx (mem_record_of_mem_fields (.inr hi))⟩

/-- Changes outside the table leave a property's name and register. -/
theorem HasRegister.of_disjoint {S : Set ℕ} (hp : HasRegister n xs p)
    (hd : Disjoint (tableRange n xs) S) (hc : ChangedIn S mem mem') :
    DTProp.name mem' p = DTProp.name mem p ∧
      DTRegister.read mem' (DTProp.data p) = DTRegister.read mem (DTProp.data p) :=
  ⟨JevMachO.name_changedIn hc (hd.mono_left hp.subset_tableRange.1),
    DTRegister.read_changedIn hc (hd.mono_left hp.subset_tableRange.2)⟩

/-- A register is replaced inside its property. -/
theorem PropertyTable.write_register (h : PropertyTable mem n xs) (hq : q ∈ tableAt n xs)
    (ho : DTProp.asReg mem q.1 = .ok o) {reg : DTRegister}
    (hw : DTRegister.write mem o reg = .ok mem') :
    ChangedIn (editable n xs (· = q.1)) mem mem' ∧ DTProp.name mem' q.1 = DTProp.name mem q.1 ∧
      DTRegister.read mem' (DTProp.data q.1) = .ok reg := by
  obtain ⟨rfl, hlen⟩ := h.asReg_eq_ok hq ho
  obtain ⟨hc, hread⟩ := DTRegister.write_eq_ok hw
  rw [← hlen] at hc
  refine ⟨hc.mono (data_subset_editable hq), name_changedIn hc ?_, hread⟩
  exact Set.disjoint_left.mpr fun i hi hi' => by
    simp only [DTProp.sizeofNameBuf, DTProp.data, DTProp.sizeofProp, Set.mem_Ico] at hi hi'
    omega

/-- A region is renamed and its register replaced. -/
theorem PropertyTable.edit_region (h : PropertyTable mem n xs) (hq : q ∈ tableAt n xs)
    {newName : Bytes} (hname : DTProp.setName mem q.1 newName = .ok mem₁)
    (ho : DTProp.asReg mem₁ q.1 = .ok o) {reg : DTRegister}
    (hw : DTRegister.write mem₁ o reg = .ok mem') :
    ChangedIn (editable n xs (· = q.1)) mem mem' ∧
      DTProp.name mem' q.1 = .ok (untilNul newName) ∧
      HasRegister n xs q.1 ∧ DTRegister.read mem' (DTProp.data q.1) = .ok reg := by
  obtain ⟨hc₁, hname₁⟩ := DTProp.setName_eq_ok hname
  have hc₁ := hc₁.mono (name_subset_editable hq)
  obtain ⟨hc₂, hname₂, hread⟩ := (h.of_changedIn hc₁).write_register hq ho hw
  exact ⟨hc₁.trans hc₂, hname₂.trans hname₁,
    ⟨q.2, hq, ((h.of_changedIn hc₁).asReg_eq_ok hq ho).2⟩, hread⟩

end region

namespace XNUBoot

/-! ### The properties that are not regions -/

/-- The memory map's properties, among them the registers of SEPFW and of the boot arguments. -/
structure MapFound (mem : Bytes) (memoryMap : ℕ) (xs : List Property) (sepfwProp baProp : ℕ) :
    Prop where
  table : PropertyTable mem memoryMap xs
  sepfw : HasRegister memoryMap xs sepfwProp
  bootArgs : HasRegister memoryMap xs baProp
  sepfw_name : DTProp.name mem sepfwProp = .ok sepfwLit
  bootArgs_name : DTProp.name mem baProp = .ok bootArgsLit

/-- Neither view lets the property of SEPFW or of the boot arguments through. -/
structure Spares (dead : DeadPrefix) (sepfwProp baProp : ℕ) : Prop where
  sepfw : ∀ start ∈ [kernelDash, memoryMapReservedDash], ∀ s, dead start sepfwProp = .ok s →
    ¬s <+: sepfwLit
  bootArgs : ∀ start ∈ [kernelDash, memoryMapReservedDash], ∀ s, dead start baProp = .ok s →
    ¬s <+: bootArgsLit

theorem spares_intact (sepfwProp baProp : ℕ) : Spares .intact sepfwProp baProp := by
  constructor
  all_goals
    intro start hstart s hs
    obtain rfl := Except.ok.inj hs
    simp only [List.mem_cons, List.not_mem_nil, or_false] at hstart
    obtain rfl | rfl := hstart <;> decide

/-- Neither of the two. -/
def IsRegion (sepfwProp baProp p : ℕ) : Prop := p ≠ sepfwProp ∧ p ≠ baProp

namespace MapFound
variable {mem mem' : Bytes} {memoryMap sepfwProp baProp p : ℕ} {xs : List Property}

theorem congr (h : MapFound mem memoryMap xs sepfwProp baProp)
    (ht : PropertyTable mem' memoryMap xs)
    (hs : DTProp.name mem' sepfwProp = DTProp.name mem sepfwProp)
    (hb : DTProp.name mem' baProp = DTProp.name mem baProp) :
    MapFound mem' memoryMap xs sepfwProp baProp where
  table := ht
  sepfw := h.sepfw
  bootArgs := h.bootArgs
  sepfw_name := hs.trans h.sepfw_name
  bootArgs_name := hb.trans h.bootArgs_name

theorem of_changedIn (h : MapFound mem memoryMap xs sepfwProp baProp)
    (hc : ChangedIn (editable memoryMap xs (IsRegion sepfwProp baProp)) mem mem') :
    MapFound mem' memoryMap xs sepfwProp baProp :=
  h.congr (h.table.of_changedIn hc) (h.sepfw.name_changedIn (fun hr => hr.1 rfl) hc)
    (h.bootArgs.name_changedIn (fun hr => hr.2 rfl) hc)

theorem of_disjoint {S : Set ℕ} (h : MapFound mem memoryMap xs sepfwProp baProp)
    (hd : Disjoint (tableRange memoryMap xs) S) (hc : ChangedIn S mem mem') :
    MapFound mem' memoryMap xs sepfwProp baProp :=
  h.congr (h.table.of_disjoint hd hc) (h.sepfw.of_disjoint hd hc).1
    (h.bootArgs.of_disjoint hd hc).1

/-- A property with another name is a region. -/
theorem isRegion (h : MapFound mem memoryMap xs sepfwProp baProp) {name : Bytes}
    (hname : DTProp.name mem p = .ok name) (hs : name ≠ sepfwLit) (hb : name ≠ bootArgsLit) :
    IsRegion sepfwProp baProp p := by
  constructor
  · rintro rfl
    exact hs (Except.ok.inj (hname.symm.trans h.sepfw_name))
  · rintro rfl
    exact hb (Except.ok.inj (hname.symm.trans h.bootArgs_name))

/-- A property that a view lets through is a region. -/
theorem isRegion_of_accepted (h : MapFound mem memoryMap xs sepfwProp baProp) {dead : DeadPrefix}
    (hdead : Spares dead sepfwProp baProp) {start : Bytes}
    (hstart : start ∈ [kernelDash, memoryMapReservedDash])
    (hp : DTProp.nameStartsWith (dead start) mem p = .ok true) :
    IsRegion sepfwProp baProp p := by
  obtain ⟨name, s, hname, hs, hpre⟩ := nameStartsWith_eq_ok hp
  constructor
  · rintro rfl
    obtain rfl := Except.ok.inj (h.sepfw_name.symm.trans hname)
    exact hdead.sepfw start hstart s hs hpre
  · rintro rfl
    obtain rfl := Except.ok.inj (h.bootArgs_name.symm.trans hname)
    exact hdead.bootArgs start hstart s hs hpre

theorem sepfw_ne_bootArgs (h : MapFound mem memoryMap xs sepfwProp baProp) :
    sepfwProp ≠ baProp := by
  rintro rfl
  have hlit := Except.ok.inj (h.sepfw_name.symm.trans h.bootArgs_name)
  exact absurd hlit (by decide)

theorem region_changedIn (hr : IsRegion sepfwProp baProp p)
    (hc : ChangedIn (editable memoryMap xs (· = p)) mem mem') :
    ChangedIn (editable memoryMap xs (IsRegion sepfwProp baProp)) mem mem' :=
  hc.mono (editable_mono fun _ hp => hp ▸ hr)

end MapFound

section edits
variable {mem mem' : Bytes} {c : Checked} {memoryMap sepfwProp baProp : ℕ} {xs : List Property}
  {dead : DeadPrefix}

/-! ### Reserved regions -/

theorem reserveRegion_changedIn (h : MapFound mem memoryMap xs sepfwProp baProp) {i i' : ℤ}
    {q : ℕ × Property} (hq : q ∈ tableAt memoryMap xs) (hregion : IsRegion sepfwProp baProp q.1)
    (hr : reserveRegion (mem, i) q.1 = .ok (mem', i')) :
    ChangedIn (editable memoryMap xs (IsRegion sepfwProp baProp)) mem mem' := by
  obtain ⟨name, -, hr⟩ := bind_eq_ok.mp hr
  split_ifs at hr
  · obtain rfl := congrArg Prod.fst (Except.ok.inj hr)
    exact .refl _ _
  · obtain ⟨mem₁, h₁, hr⟩ := bind_eq_ok.mp hr
    obtain ⟨o, ho, hr⟩ := bind_eq_ok.mp hr
    obtain ⟨mem₂, h₂, hr⟩ := bind_eq_ok.mp hr
    obtain rfl := congrArg Prod.fst (Except.ok.inj hr)
    exact MapFound.region_changedIn hregion (h.table.edit_region hq h₁ ho h₂).1

theorem reserveRegions_changedIn (h : MapFound mem memoryMap xs sepfwProp baProp)
    (hdead : Spares dead sepfwProp baProp) (hr : reserveRegions dead mem memoryMap = .ok mem') :
    ChangedIn (editable memoryMap xs (IsRegion sepfwProp baProp)) mem mem' := by
  obtain ⟨props, -, hr⟩ := bind_eq_ok.mp hr
  obtain ⟨regions, hregions, hr⟩ := bind_eq_ok.mp hr
  obtain ⟨⟨mem₁, i₁⟩, hloop, hr⟩ := bind_eq_ok.mp hr
  obtain rfl := Except.ok.inj hr
  have hfirst : Stands memoryMap xs (DTProp.nameStartsWith (dead kernelDash) mem)
      regions.first := h.table.stands_first hregions
  -- the iterator stands where the test lets through, in memory as the loop has left it
  obtain ⟨it, ⟨hc, -⟩, -⟩ := Cursor.forLoop_inv
    (P := fun it s => ChangedIn (editable memoryMap xs (IsRegion sepfwProp baProp)) mem s.1 ∧
      Stands memoryMap xs (DTProp.nameStartsWith (dead kernelDash) s.1) it)
    (by
      rintro it ⟨mem₂, i⟩ p ⟨mem₃, i'⟩ it' ⟨hc, hstands⟩ - hd hbody hnext
      obtain ⟨x, hx⟩ := hstands.onTable.mem hd
      have h₂ := h.of_changedIn hc
      have hc₃ := reserveRegion_changedIn h₂ hx
        (h₂.isRegion_of_accepted hdead List.mem_cons_self (hstands.accepted p hd)) hbody
      exact ⟨hc.trans hc₃, (h₂.of_changedIn hc₃).table.stands_next hstands.onTable hnext⟩)
    ⟨.refl _ _, hfirst⟩ hloop
  exact hc

/-! ### The segments' regions -/

/-- The region has the name and the place of the segment. -/
structure GivenTo (entry mem : Bytes) (machoBase : UInt64) (seg region : ℕ) : Prop where
  name : ∃ name, DTProp.name mem region = .ok name ∧ kernelDash <+: name ∧
    ∀ segName, cstr entry seg = .ok segName → segName.length < 16 → name = kernelDash ++ segName
  register : ∃ file, SegmentCommand.fileRange entry seg = .ok file ∧
    DTRegister.read mem (DTProp.data region) = .ok ⟨machoBase + file.min, file.size⟩

theorem GivenTo.congr {entry : Bytes} {machoBase : UInt64} {seg region : ℕ}
    (h : GivenTo entry mem machoBase seg region)
    (hname : DTProp.name mem' region = DTProp.name mem region)
    (hread : DTRegister.read mem' (DTProp.data region) =
      DTRegister.read mem (DTProp.data region)) : GivenTo entry mem' machoBase seg region where
  name := by
    rw [hname]
    exact h.name
  register := by
    rw [hread]
    exact h.register

theorem GivenTo.of_changedIn {entry : Bytes} {machoBase : UInt64} {seg region : ℕ} {E : ℕ → Prop}
    (h : GivenTo entry mem machoBase seg region) (hp : HasRegister memoryMap xs region)
    (hE : ¬E region) (hc : ChangedIn (editable memoryMap xs E) mem mem') :
    GivenTo entry mem' machoBase seg region :=
  h.congr (hp.name_changedIn hE hc) (hp.read_changedIn hE hc)

/-- The name that `snprintf` makes of a segment's. -/
theorem untilNul_snprintfName {segName : Bytes} (h0 : (0 : UInt8) ∉ segName) :
    untilNul (snprintfName (kernelDash ++ segName)) =
      (kernelDash ++ segName).take (DTProp.sizeofNameBuf - 1) := by
  refine untilNul_of_not_mem fun h => ?_
  rcases List.mem_append.mp (List.mem_of_mem_take h) with hk | hs
  · exact absurd hk (by decide)
  · exact h0 hs

/-- What memory looked like before anything was written, and that no write has reached the
commands of the payload. -/
structure CommandsKept (entry : Bytes) (kc : ℕ) (lcs : List ℕ) (S : Set ℕ) : Prop where
  commands : MachO.Commands entry kc lcs
  disjoint : Disjoint (MachO.commandBytes entry kc) S

section assign
variable {entry : Bytes} {kc cend lc : ℕ} {lcs rest : List ℕ} {S : Set ℕ}
  {machoBase : UInt64} {count : ℕ} {s s' : Assigning}

/-- What the round over a segment has to leave for its region. -/
theorem givenTo_of_edit (hk : CommandsKept entry kc lcs S) (hS : ChangedIn S entry mem)
    (hlc : lc ∈ lcs) (hseg : MachO.isSegment entry lc = true) {p : ℕ} {segName : Bytes}
    {file : AddrRange} (hsegName : cstr mem (LoadCommand.subcmd lc) = .ok segName)
    (hname : DTProp.name mem' p = .ok (untilNul (snprintfName (kernelDash ++ segName))))
    (hfile : SegmentCommand.fileRange entry (LoadCommand.subcmd lc) = .ok file)
    (hread : DTRegister.read mem' (DTProp.data p) = .ok ⟨machoBase + file.min, file.size⟩) :
    GivenTo entry mem' machoBase (LoadCommand.subcmd lc) p := by
  refine ⟨?_, file, hfile, hread⟩
  rw [untilNul_snprintfName (cstr_eq_ok hsegName).1] at hname
  refine ⟨_, hname, List.prefix_take_iff.mpr ⟨List.prefix_append _ _, by decide⟩, ?_⟩
  intro segName' hentry hlt
  have hsame := MachO.segname_changedIn hS hk.disjoint hk.commands hlc hseg hentry hlt
  obtain rfl := Except.ok.inj (hsegName.symm.trans hsame)
  apply List.take_of_length_le
  rw [List.length_append]
  simp only [kernelDash, ascii, List.length_map, List.length_cons, List.length_nil,
    DTProp.sizeofNameBuf]
  omega

/-- One round: the region the iterator stands on becomes the segment's. -/
theorem assignRegion_eq_ok (hk : CommandsKept entry kc lcs S)
    (hE : editable memoryMap xs (IsRegion sepfwProp baProp) ⊆ S) (hS : ChangedIn S entry s.mem)
    (h : MapFound s.mem memoryMap xs sepfwProp baProp) (hdead : Spares dead sepfwProp baProp)
    (hst : Stands memoryMap xs (DTProp.nameStartsWith (dead memoryMapReservedDash) s.mem) s.region)
    (hlc : lc ∈ lcs) (hseg : MachO.isSegment entry lc = true)
    (hr : assignRegion dead machoBase count s (LoadCommand.subcmd lc) = .ok s') :
    ∃ p, s.region.deref = .ok p ∧ s'.assigned = s.assigned ++ [(LoadCommand.subcmd lc, p)] ∧
      HasRegister memoryMap xs p ∧ IsRegion sepfwProp baProp p ∧
      (∀ p', s'.region.deref = .ok p' → p < p') ∧
      ChangedIn (editable memoryMap xs (· = p)) s.mem s'.mem ∧
      GivenTo entry s'.mem machoBase (LoadCommand.subcmd lc) p ∧
      Stands memoryMap xs (DTProp.nameStartsWith (dead memoryMapReservedDash) s'.mem)
        s'.region := by
  obtain ⟨p, hp, hr⟩ := bind_eq_ok.mp hr
  obtain ⟨segName, hsegName, hr⟩ := bind_eq_ok.mp hr
  obtain ⟨mem₁, h₁, hr⟩ := bind_eq_ok.mp hr
  obtain ⟨vm, -, hr⟩ := bind_eq_ok.mp hr
  obtain ⟨file, hfile, hr⟩ := bind_eq_ok.mp hr
  obtain ⟨u, -, hr⟩ := bind_eq_ok.mp hr
  obtain ⟨o, ho, hr⟩ := bind_eq_ok.mp hr
  obtain ⟨mem₂, h₂, hr⟩ := bind_eq_ok.mp hr
  obtain ⟨next, hnext, hr⟩ := bind_eq_ok.mp hr
  obtain rfl := Except.ok.inj hr
  obtain ⟨x, hx⟩ := hst.onTable.mem hp
  have hregion := h.isRegion_of_accepted hdead (by simp) (hst.accepted p hp)
  obtain ⟨hc, hname₂, hreg, hread⟩ := h.table.edit_region hx h₁ ho h₂
  have hc₁ : ChangedIn S s.mem mem₁ := (DTProp.setName_eq_ok h₁).1.mono
    (((name_subset_editable hx).trans (editable_mono fun _ hp => hp ▸ hregion)).trans hE)
  have hfile' := hfile
  rw [MachO.fileRange_changedIn (hS.trans hc₁) hk.disjoint hk.commands hlc hseg] at hfile'
  have htable := h.table.of_changedIn hc
  exact ⟨p, hp, rfl, hreg, hregion,
    fun p' => htable.lt_of_filter_next hst.onTable hp hnext, hc,
    givenTo_of_edit hk hS hlc hseg hsegName hname₂ hfile' hread,
    htable.stands_next hst.onTable hnext⟩

/-- Some segments are done, and a walk from `pos` begins with the next one. -/
def SegmentsLeft (entry : Bytes) (cend : ℕ) (lcs : List ℕ) (pos : ℕ) (done : List ℕ) : Prop :=
  ∃ rest, (LoadCommand.cursor entry cend).Visits pos rest ∧ rest ⊆ lcs ∧
    (∀ lc ∈ rest.head?, MachO.isSegment entry lc = true) ∧
    MachO.segmentsIn entry lcs = done ++ MachO.segmentsIn entry rest

/-- The search for the next segment succeeds, in memory as it is now. -/
theorem CommandsKept.exists_findIf (hk : CommandsKept entry kc lcs S)
    (hS : ChangedIn S entry mem) {pos : ℕ} {done : List ℕ}
    (hv : (LoadCommand.cursor entry cend).Visits pos rest) (hsub : rest ⊆ lcs)
    (hdone : MachO.segmentsIn entry lcs = done ++ MachO.segmentsIn entry rest) :
    ∃ pos', (LoadCommand.cursor mem cend).findIf (MachO.hasType mem LoadCommandType.segment64)
      mem.length pos = .ok pos' ∧ SegmentsLeft entry cend lcs pos' done := by
  have hd : ∀ lc ∈ rest, Disjoint (Set.Ico lc (lc + LoadCommand.sizeofLoadCommand)) S :=
    fun lc hlc => (MachO.disjoint_commandRange hk.disjoint hk.commands (hsub hlc)).mono_left
      (MachO.header_subset_commandRange entry lc)
  obtain ⟨pos', hpos', hv'⟩ := MachO.exists_findSegment hS hd hv
  refine ⟨pos', hpos', _, hv',
    fun lc hlc => hsub ((List.dropWhile_suffix _).subset hlc), fun lc hlc => ?_, ?_⟩
  · have hhead := List.head?_dropWhile_not (fun lc => !MachO.isSegment entry lc) rest
    rw [Option.mem_def.mp hlc] at hhead
    simpa using hhead
  · rw [MachO.segmentsIn_dropWhile]
    exact hdone

/-- The range of the segments begins at the first one. -/
theorem CommandsKept.exists_segments (hk : CommandsKept entry kc lcs S)
    (hS : ChangedIn S entry mem) : ∃ cend first, MachO.lcCend mem kc = .ok cend ∧
      MachO.segments mem kc = .ok ⟨first, segmentCursor cend mem⟩ ∧
      SegmentsLeft entry cend lcs first [] := by
  obtain ⟨cend, hcend, hv⟩ := hk.commands
  rw [← MachO.lcCend_changedIn hS hk.disjoint] at hcend
  obtain ⟨first, hfirst, hleft⟩ := hk.exists_findIf hS hv (List.Subset.refl lcs)
    (List.nil_append _).symm
  refine ⟨cend, first, hcend, ?_, hleft⟩
  unfold MachO.segments MachO.segmentLoadCommands MachO.loadCommands Range.filter
  simp only [hcend, ok_bind, hfirst, pure_eq_ok]
  rfl

theorem SegmentsLeft.head {pos : ℕ} {done : List ℕ} (h : SegmentsLeft entry cend lcs pos done)
    (he : (LoadCommand.cursor entry cend).atEnd pos = .ok false) :
    pos ∈ lcs ∧ MachO.isSegment entry pos = true := by
  obtain ⟨rest, hv, hsub, hhead, -⟩ := h
  cases hv with
  | nil he' => simp [he] at he'
  | cons _ hd _ _ =>
    obtain rfl := Except.ok.inj hd
    exact ⟨hsub List.mem_cons_self, hhead _ rfl⟩

theorem SegmentsLeft.exists_next (hk : CommandsKept entry kc lcs S) (hS : ChangedIn S entry mem)
    {pos : ℕ} {done : List ℕ} (h : SegmentsLeft entry cend lcs pos done)
    (he : (LoadCommand.cursor entry cend).atEnd pos = .ok false) :
    ∃ pos', (segmentCursor cend mem).next pos = .ok pos' ∧
      SegmentsLeft entry cend lcs pos' (done ++ [LoadCommand.subcmd pos]) := by
  have hseg := (h.head he).2
  obtain ⟨rest, hv, hsub, -, hdone⟩ := h
  cases hv with
  | nil he' => simp [he] at he'
  | @cons _ p a as _ hd hstep hrest =>
    obtain rfl := Except.ok.inj hd
    have hhead := (MachO.disjoint_commandRange hk.disjoint hk.commands
      (hsub List.mem_cons_self)).mono_left (MachO.header_subset_commandRange entry pos)
    have hp : (LoadCommand.cursor mem cend).next pos = .ok p := by
      simp only [LoadCommand.cursor, MachO.cmdsize_changedIn hS hhead]
      exact hstep
    have hdone' : MachO.segmentsIn entry lcs =
        (done ++ [LoadCommand.subcmd pos]) ++ MachO.segmentsIn entry as := by
      rw [hdone, MachO.segmentsIn, List.filter_cons_of_pos hseg, List.map_cons, List.append_assoc]
      rfl
    obtain ⟨pos', hpos', hleft⟩ := hk.exists_findIf hS hrest
      (fun lc hlc => hsub (List.mem_cons_of_mem pos hlc)) hdone'
    refine ⟨pos', ?_, hleft⟩
    simp only [segmentCursor, Cursor.transform, Cursor.filter, hp, ok_bind, hpos']

theorem SegmentsLeft.next (hk : CommandsKept entry kc lcs S) (hS : ChangedIn S entry mem)
    {pos pos' : ℕ} {done : List ℕ} (h : SegmentsLeft entry cend lcs pos done)
    (he : (LoadCommand.cursor entry cend).atEnd pos = .ok false)
    (hn : (segmentCursor cend mem).next pos = .ok pos') :
    SegmentsLeft entry cend lcs pos' (done ++ [LoadCommand.subcmd pos]) := by
  obtain ⟨r, hr, hleft⟩ := h.exists_next hk hS he
  obtain rfl := Except.ok.inj (hr.symm.trans hn)
  exact hleft

/-- The walk is at its end exactly when all segments are done. -/
theorem SegmentsLeft.atEnd_of_done {pos : ℕ} {done : List ℕ}
    (h : SegmentsLeft entry cend lcs pos done) (hdone : MachO.segmentsIn entry lcs = done) :
    (LoadCommand.cursor entry cend).atEnd pos = .ok true := by
  obtain ⟨rest, hv, -, hhead, hrest⟩ := h
  cases hv with
  | nil he => exact he
  | cons he hd _ _ =>
    have hseg := hhead _ rfl
    rw [hdone, MachO.segmentsIn, List.filter_cons_of_pos hseg, List.map_cons] at hrest
    simp at hrest

theorem SegmentsLeft.at_segment {pos seg : ℕ} {done segs : List ℕ}
    (h : SegmentsLeft entry cend lcs pos done)
    (hdone : MachO.segmentsIn entry lcs = done ++ seg :: segs) :
    (LoadCommand.cursor entry cend).atEnd pos = .ok false ∧ LoadCommand.subcmd pos = seg := by
  obtain ⟨rest, hv, -, hhead, hrest⟩ := h
  rw [hdone] at hrest
  have hrest := List.append_cancel_left hrest
  cases hv with
  | nil => cases hrest
  | cons he hd _ _ =>
    obtain rfl := Except.ok.inj hd
    rw [MachO.segmentsIn, List.filter_cons_of_pos (hhead _ rfl), List.map_cons] at hrest
    exact ⟨he, (List.cons.inj hrest).1.symm⟩

/-- What the loop over the segments keeps. The regions that were given are behind the iterator. -/
structure AssignInv (dead : DeadPrefix) (entry mem : Bytes) (memoryMap : ℕ) (xs : List Property)
    (sepfwProp baProp : ℕ) (machoBase : UInt64) (cend : ℕ) (lcs : List ℕ) (pos : ℕ)
    (s : Assigning) : Prop where
  changed : ChangedIn (editable memoryMap xs (IsRegion sepfwProp baProp)) mem s.mem
  region : Stands memoryMap xs (DTProp.nameStartsWith (dead memoryMapReservedDash) s.mem) s.region
  behind : ∀ a ∈ s.assigned, ∀ p, s.region.deref = .ok p → a.2 < p
  left : SegmentsLeft entry cend lcs pos (s.assigned.map Prod.fst)
  given : ∀ a ∈ s.assigned, HasRegister memoryMap xs a.2 ∧
    GivenTo entry s.mem machoBase a.1 a.2

variable {pos pos' : ℕ}

theorem AssignInv.step (hk : CommandsKept entry kc lcs S)
    (hE : editable memoryMap xs (IsRegion sepfwProp baProp) ⊆ S) (hS : ChangedIn S entry mem)
    (h : MapFound mem memoryMap xs sepfwProp baProp) (hdead : Spares dead sepfwProp baProp)
    (hi : AssignInv dead entry mem memoryMap xs sepfwProp baProp machoBase cend lcs pos s)
    (he : (segmentCursor cend s.mem).atEnd pos = .ok false)
    (hr : assignRegion dead machoBase count s (LoadCommand.subcmd pos) = .ok s')
    (hn : (segmentCursor cend s'.mem).next pos = .ok pos') :
    AssignInv dead entry mem memoryMap xs sepfwProp baProp machoBase cend lcs pos' s' := by
  obtain ⟨hlc, hseg⟩ := hi.left.head he
  obtain ⟨p, hp, hassigned, hreg, hregion, hlater, hc, hgiven, hst⟩ := assignRegion_eq_ok hk hE
    (hS.trans (hi.changed.mono hE)) (h.of_changedIn hi.changed) hdead hi.region hlc hseg hr
  have hc' := hi.changed.trans (MapFound.region_changedIn hregion hc)
  refine ⟨hc', hst, fun a ha p' hp' => ?_, ?_, ?_⟩
  · rw [hassigned, List.mem_append, List.mem_singleton] at ha
    rcases ha with ha | rfl
    · exact (hi.behind a ha p hp).trans (hlater p' hp')
    · exact hlater p' hp'
  · rw [hassigned, List.map_append]
    exact hi.left.next hk (hS.trans (hc'.mono hE)) he hn
  · intro a ha
    rw [hassigned, List.mem_append] at ha
    rcases ha with ha | ha
    · obtain ⟨hreg', hgiven'⟩ := hi.given a ha
      have hne : a.2 ≠ p := (hi.behind a ha p hp).ne
      exact ⟨hreg', hgiven'.of_changedIn hreg' hne hc⟩
    · obtain rfl := List.mem_singleton.mp ha
      exact ⟨hreg, hgiven⟩

/-- Every segment of the payload has a region of its own at the end. -/
theorem assignRegions_eq_ok (hk : CommandsKept entry c.payloadBase.toNat lcs S)
    (hE : editable c.memoryMap xs (IsRegion sepfwProp baProp) ⊆ S) (hS : ChangedIn S entry mem)
    (h : MapFound mem c.memoryMap xs sepfwProp baProp) (hdead : Spares dead sepfwProp baProp)
    {assigned : List (ℕ × ℕ)} (hr : assignRegions dead mem c = .ok (mem', assigned)) :
    ChangedIn (editable c.memoryMap xs (IsRegion sepfwProp baProp)) mem mem' ∧
      assigned.map Prod.fst = MachO.segmentsIn entry lcs ∧
      ∀ a ∈ assigned, HasRegister c.memoryMap xs a.2 ∧
        GivenTo entry mem' c.machoBase a.1 a.2 := by
  obtain ⟨props, -, hr⟩ := bind_eq_ok.mp hr
  obtain ⟨regions, hregions, hr⟩ := bind_eq_ok.mp hr
  obtain ⟨cend, hcend, hr⟩ := bind_eq_ok.mp hr
  obtain ⟨segs, hsegs, hr⟩ := bind_eq_ok.mp hr
  obtain ⟨s, hloop, hr⟩ := bind_eq_ok.mp hr
  obtain ⟨rfl, rfl⟩ := Prod.mk.inj (Except.ok.inj hr)
  have hstands : Stands c.memoryMap xs (DTProp.nameStartsWith (dead memoryMapReservedDash) mem)
      regions.first := h.table.stands_first hregions
  obtain ⟨cend', first, hcend', hsegs', hfirst⟩ := hk.exists_segments hS
  obtain rfl := Except.ok.inj (hcend'.symm.trans hcend)
  obtain rfl := Except.ok.inj (hsegs'.symm.trans hsegs)
  obtain ⟨pos, hinv, hend⟩ := Cursor.forLoop_inv
    (P := AssignInv dead entry mem c.memoryMap xs sepfwProp baProp c.machoBase cend' lcs)
    (by
      intro pos s seg s' pos' hi he hd hbody hn
      obtain rfl := Except.ok.inj hd
      exact hi.step hk hE hS h hdead he hbody hn)
    ⟨.refl _ _, hstands, by simp, hfirst, by simp⟩ hloop
  obtain ⟨rest, hrest, -, -, hdone⟩ := hinv.left
  cases hrest with
  | nil => exact ⟨hinv.changed, by rw [hdone]; exact (List.append_nil _).symm, hinv.given⟩
  | cons he _ _ _ =>
    have hend' : (LoadCommand.cursor entry cend').atEnd pos = .ok true := hend
    rw [he] at hend'
    cases hend'

end assign

/-! ### All edits -/

variable {k : Copies} {sepfw bootArgs : DTRegister}

theorem moveRegisters_eq_ok (h : MapFound mem c.memoryMap xs c.sepfwProp k.baProp)
    (hs : c.sepfwReg = DTProp.data c.sepfwProp) (hb : k.baReg = DTProp.data k.baProp)
    (hsr : DTRegister.read mem c.sepfwReg = .ok sepfw)
    (hbr : DTRegister.read mem k.baReg = .ok bootArgs)
    (hr : moveRegisters mem c k = .ok mem') :
    ChangedIn (editable c.memoryMap xs fun p => p = c.sepfwProp ∨ p = k.baProp) mem mem' ∧
      MapFound mem' c.memoryMap xs c.sepfwProp k.baProp ∧
      DTRegister.read mem' c.sepfwReg = .ok ⟨c.afterStub c.sepfwCopyBase, sepfw.size⟩ ∧
      DTRegister.read mem' k.baReg = .ok ⟨c.afterStub k.baCopyBase, bootArgs.size⟩ := by
  obtain ⟨reg₁, hreg₁, hr⟩ := bind_eq_ok.mp hr
  obtain rfl := Except.ok.inj (hsr.symm.trans hreg₁)
  obtain ⟨mem₁, h₁, hr⟩ := bind_eq_ok.mp hr
  obtain ⟨reg₂, hreg₂, h₂⟩ := bind_eq_ok.mp hr
  have hne := h.sepfw_ne_bootArgs
  obtain ⟨x, hx, -⟩ := h.sepfw
  obtain ⟨y, hy, -⟩ := h.bootArgs
  rw [hs] at h₁
  obtain ⟨hc₁, hname₁, hread₁⟩ :=
    h.table.write_register hx (h.table.asReg_of_hasRegister h.sepfw) h₁
  have hf₁ := h.congr (h.table.of_changedIn hc₁) hname₁ (h.bootArgs.name_changedIn hne.symm hc₁)
  rw [hb, h.bootArgs.read_changedIn hne.symm hc₁, ← hb] at hreg₂
  obtain rfl := Except.ok.inj (hbr.symm.trans hreg₂)
  rw [hb] at h₂
  obtain ⟨hc₂, hname₂, hread₂⟩ :=
    hf₁.table.write_register hy (hf₁.table.asReg_of_hasRegister h.bootArgs) h₂
  refine ⟨?_, hf₁.congr (hf₁.table.of_changedIn hc₂) (h.sepfw.name_changedIn hne hc₂) hname₂,
    ?_, ?_⟩
  · exact (hc₁.mono (editable_mono fun _ => .inl)).trans (hc₂.mono (editable_mono fun _ => .inr))
  · rw [hs, h.sepfw.read_changedIn hne hc₂, hread₁]
  · rw [hb, hread₂]

/-- What the memory map says in the end. -/
structure Edited (entry mem : Bytes) (xs : List Property) (c : Checked) (k : Copies)
    (lcs : List ℕ) (assigned : List (ℕ × ℕ)) : Prop where
  found : MapFound mem c.memoryMap xs c.sepfwProp k.baProp
  sepfw : DTRegister.read mem (DTProp.data c.sepfwProp) =
    .ok ⟨c.afterStub c.sepfwCopyBase, k.sepfw.size⟩
  bootArgs : DTRegister.read mem (DTProp.data k.baProp) =
    .ok ⟨c.afterStub k.baCopyBase, k.bootArgs.size⟩
  segments : assigned.map Prod.fst = MachO.segmentsIn entry lcs
  given : ∀ a ∈ assigned, HasRegister c.memoryMap xs a.2 ∧
    GivenTo entry mem c.machoBase a.1 a.2

theorem editMemoryMap_eq_ok {entry : Bytes} {lcs : List ℕ} {S : Set ℕ}
    (hk : CommandsKept entry c.payloadBase.toNat lcs S) (hE : tableRange c.memoryMap xs ⊆ S)
    (hS : ChangedIn S entry mem) (h : MapFound mem c.memoryMap xs c.sepfwProp k.baProp)
    (hdead : Spares dead c.sepfwProp k.baProp) (hs : c.sepfwReg = DTProp.data c.sepfwProp)
    (hb : k.baReg = DTProp.data k.baProp)
    (hsr : DTRegister.read mem c.sepfwReg = .ok k.sepfw)
    (hbr : DTRegister.read mem k.baReg = .ok k.bootArgs) {assigned : List (ℕ × ℕ)}
    (hr : editMemoryMap dead mem c k = .ok (mem', assigned)) :
    ChangedIn (tableRange c.memoryMap xs) mem mem' ∧ Edited entry mem' xs c k lcs assigned := by
  obtain ⟨u, -, hr⟩ := bind_eq_ok.mp hr
  obtain ⟨mem₁, h₁, hr⟩ := bind_eq_ok.mp hr
  obtain ⟨⟨mem₂, assigned'⟩, h₂, hr⟩ := bind_eq_ok.mp hr
  obtain ⟨mem₃, h₃, hr⟩ := bind_eq_ok.mp hr
  obtain ⟨u', -, hr⟩ := bind_eq_ok.mp hr
  obtain ⟨rfl, rfl⟩ := Prod.mk.inj (Except.ok.inj hr)
  have hc₁ := reserveRegions_changedIn h hdead h₁
  obtain ⟨hc₂, hsegments, hgiven⟩ := assignRegions_eq_ok hk (editable_subset.trans hE)
    (hS.trans (hc₁.mono (editable_subset.trans hE))) (h.of_changedIn hc₁) hdead h₂
  have hc := hc₁.trans hc₂
  have hf₂ := h.of_changedIn hc
  rw [hs, ← h.sepfw.read_changedIn (fun hr => hr.1 rfl) hc, ← hs] at hsr
  rw [hb, ← h.bootArgs.read_changedIn (fun hr => hr.2 rfl) hc, ← hb] at hbr
  obtain ⟨hc₃, hf₃, hsepfw, hbootArgs⟩ := moveRegisters_eq_ok hf₂ hs hb hsr hbr h₃
  rw [hs] at hsepfw
  rw [hb] at hbootArgs
  refine ⟨(hc.mono editable_subset).trans (hc₃.mono editable_subset), hf₃, hsepfw, hbootArgs,
    hsegments, fun a ha => ?_⟩
  obtain ⟨hreg, hgiv⟩ := hgiven a ha
  obtain ⟨name, hname, hpre, -⟩ := hgiv.name
  have hregion := hf₂.isRegion hname (fun h => absurd (h ▸ hpre) (by decide))
    (fun h => absurd (h ▸ hpre) (by decide))
  exact ⟨hreg, hgiv.of_changedIn hreg (fun hp => hp.elim hregion.1 hregion.2) hc₃⟩

end edits
end XNUBoot
end JevMachO

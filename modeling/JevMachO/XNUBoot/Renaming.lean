import JevMachO.XNUBoot.Bail
import JevMachO.XNUBoot.MemoryMap

/-! The two loops that hand the memory map's regions to the segments. Each walks a filter view
over the very names it changes: behind the iterator they no longer matter, and before it they are
as the loop found them. The second loop takes a region for every segment and never asks whether
there is one. What the views compare the names with is anything at all, because their predicates
refer to a parameter that is gone. -/
namespace JevMachO
open Lib

namespace XNUBoot

/-- The renaming loops, one after the other. -/
def renameRegions (dead : DeadPrefix) (mem : Bytes) (c : Checked) :
    Exec (Bytes × List (ℕ × ℕ)) := do
  let mem ← reserveRegions dead mem c.memoryMap
  assignRegions dead mem c

theorem editMemoryMap_eq (dead : DeadPrefix) (mem : Bytes) (c : Checked) (k : Copies) :
    editMemoryMap dead mem c k = (do
      printRegions mem c.memoryMap
      let (mem, assigned) ← renameRegions dead mem c
      let mem ← moveRegisters mem c k
      printRegions mem c.memoryMap
      return (mem, assigned)) := by
  simp only [editMemoryMap, renameRegions, bind_assoc]

/-! ### Regions -/

/-- A region of the running kernel, which is to be replaced. -/
def isKernelRegion (x : Property) : Bool :=
  kernelDash.isPrefixOf x.name && x.name != machHeaderLit

/-- A region that segments can have. -/
def isAvailable (x : Property) : Bool :=
  isKernelRegion x || memoryMapReservedDash.isPrefixOf x.name

/-- The regions that segments can have, in order, among the properties from an offset on. -/
def availableFrom (o : ℕ) (ys : List Property) : List (ℕ × Property) :=
  (locate Property.size o ys).filter fun q => isAvailable q.2

/-- The regions of a memory map that segments can have. -/
def availableAt (n : ℕ) (xs : List Property) : List (ℕ × Property) :=
  availableFrom (n + DTNode.sizeofNode) xs

/-- The memory map as the loops find it. -/
structure RegionMap (mem : Bytes) (n : ℕ) (xs : List Property) : Prop where
  table : PropertyTable mem n xs
  records : ∀ q ∈ tableAt n xs, At mem q.1 q.2.bytes
  name_ok : ∀ x ∈ xs, x.NameOk
  register : ∀ x ∈ xs, kernelDash <+: x.name ∨ memoryMapReservedDash <+: x.name →
    x.data.length = DTRegister.sizeofRegister

/-- The name a property has between the loops, when the next kernel region gets the number `i`. -/
def nameBetween (i : ℤ) (x : Property) : Bytes :=
  if isKernelRegion x then memoryMapReservedDash ++ decimal i else x.name

/-- The properties from an offset on with their names between the loops. -/
def betweenFrom : ℤ → ℕ → List Property → List ((ℕ × Property) × Bytes)
  | _, _, [] => []
  | i, o, y :: ys => ((o, y), nameBetween i y) ::
      betweenFrom (if isKernelRegion y then i - 1 else i) (o + y.size) ys

/-- The test of a property with this name answers as for the prefix that was passed. -/
def AnswersAs (start : Bytes) (read : ℕ → Exec Bytes) (p : ℕ) (name : Bytes) : Prop :=
  ∃ s, read p = .ok s ∧ s.isPrefixOf name = start.isPrefixOf name

/-- All tests of both loops answer as for the prefixes that were passed. -/
structure TestsRight (dead : DeadPrefix) (n : ℕ) (xs : List Property) : Prop where
  kernel : ∀ q ∈ tableAt n xs, AnswersAs kernelDash (dead kernelDash) q.1 q.2.name
  reserved : ∀ a ∈ betweenFrom 99 (n + DTNode.sizeofNode) xs,
    AnswersAs memoryMapReservedDash (dead memoryMapReservedDash) a.1.1 a.2

theorem testsRight_intact (n : ℕ) (xs : List Property) : TestsRight .intact n xs :=
  ⟨fun _ _ => ⟨_, rfl, rfl⟩, fun _ _ => ⟨_, rfl, rfl⟩⟩

/-- A segment whose name ends in its field and whose ranges pass their checks. -/
structure SegmentFits (mem : Bytes) (seg : ℕ) : Prop where
  name : ∃ name, cstr mem seg = .ok name ∧ name.length < 16
  ranges : ∃ vm file, SegmentCommand.vmaddrRange mem seg = .ok vm ∧
    SegmentCommand.fileRange mem seg = .ok file ∧ vm.size = file.size

/-- A region of the running kernel after the first loop. -/
structure IsReserved (mem : Bytes) (p : ℕ) : Prop where
  name : ∃ i, DTProp.name mem p = .ok (memoryMapReservedDash ++ decimal i)
  register : DTRegister.read mem (DTProp.data p) = .ok .zero

/-! ### Names -/

theorem nul_not_mem_decimal (i : ℤ) : (0 : UInt8) ∉ decimal i := by
  have hdigits : (0 : UInt8) ∉ (Nat.toDigits 10 i.natAbs).map Char.toUInt8 := by
    intro h
    obtain ⟨c, hc, hzero⟩ := List.mem_map.mp h
    have hdigit := Nat.isDigit_of_mem_toDigits (by decide) (by decide) hc
    simp only [Char.isDigit, Bool.and_eq_true, decide_eq_true_eq, ge_iff_le,
      UInt32.le_iff_toNat_le] at hdigit
    have hval := congrArg UInt8.toNat hzero
    simp only [Char.toUInt8, UInt32.toNat_toUInt8, UInt8.toNat_zero] at hval
    have hlo : 48 ≤ c.val.toNat := hdigit.1
    have hhi : c.val.toNat ≤ 57 := hdigit.2
    omega
  unfold decimal
  split_ifs
  · rw [List.mem_cons, not_or]
    exact ⟨by decide, hdigits⟩
  · exact hdigits

theorem length_decimal_le {i : ℤ} (h : i.natAbs < 10 ^ 12) : (decimal i).length ≤ 13 := by
  have hdigits := (Nat.length_toDigits_le_iff (by decide) (by decide)).mpr h
  unfold decimal
  split_ifs
  · rw [List.length_cons, List.length_map]
    omega
  · rw [List.length_map]
    omega

theorem length_snprintfName_lt (text : Bytes) :
    (snprintfName text).length < DTProp.sizeofNameBuf := by
  rw [snprintfName, List.length_take]
  exact (Nat.min_le_left _ _).trans_lt (by decide)

/-- The number of any region fits into the field. -/
theorem untilNul_reservedName {i : ℤ} (h : i.natAbs < 10 ^ 12) :
    untilNul (snprintfName (memoryMapReservedDash ++ decimal i)) =
      memoryMapReservedDash ++ decimal i := by
  have hlen := length_decimal_le h
  rw [snprintfName, List.take_of_length_le]
  · refine untilNul_of_not_mem fun h0 => ?_
    rcases List.mem_append.mp h0 with hk | hd
    · exact absurd hk (by decide)
    · exact nul_not_mem_decimal i hd
  · rw [List.length_append]
    have hdash : memoryMapReservedDash.length = 18 := rfl
    simp only [DTProp.sizeofNameBuf]
    omega

/-! ### One edit -/

section edit
variable {mem mem' : Bytes} {n o : ℕ} {xs ys : List Property} {y : Property} {q : ℕ × Property}

theorem setName_isOk {newName : Bytes} (hlt : newName.length < DTProp.sizeofNameBuf)
    (hin : o + DTProp.sizeofNameBuf ≤ mem.length) :
    ∃ mem', DTProp.setName mem o newName = .ok mem' := by
  have hzeros : o + (List.replicate DTProp.sizeofNameBuf (0 : UInt8)).length ≤ mem.length := by
    rwa [List.length_replicate]
  obtain ⟨mem₁, h₁⟩ := patch_isSome hzeros
  have hname : o + (newName ++ [0]).length ≤ mem₁.length := by
    rw [length_patch h₁, List.length_append, List.length_singleton]
    omega
  obtain ⟨mem₂, h₂⟩ := patch_isSome hname
  refine ⟨mem₂, ?_⟩
  rw [DTProp.setName, decide_eq_true hlt, assertThat_true, ok_bind, store_of_patch h₁, ok_bind,
    store_of_patch h₂]

/-- A record inside memory with a register's worth of data takes a name and a register. -/
theorem edit_isOk (h : PropertyTable mem n xs) (hq : q ∈ tableAt n xs)
    (hin : q.1 + q.2.size ≤ mem.length) (hdata : q.2.data.length = DTRegister.sizeofRegister)
    (text : Bytes) (reg : DTRegister) :
    ∃ mem₁ mem₂, DTProp.setName mem q.1 (snprintfName text) = .ok mem₁ ∧
      DTProp.asReg mem₁ q.1 = .ok (DTProp.data q.1) ∧
      DTRegister.write mem₁ (DTProp.data q.1) reg = .ok mem₂ := by
  have hsz := q.2.data_length_le_size
  simp only [DTProp.sizeofProp, hdata, DTRegister.sizeofRegister] at hsz
  have hname : q.1 + DTProp.sizeofNameBuf ≤ mem.length := by
    simp only [DTProp.sizeofNameBuf]
    omega
  obtain ⟨mem₁, h₁⟩ := setName_isOk (length_snprintfName_lt text) hname
  have hc := (DTProp.setName_eq_ok h₁).1
  have htable := h.of_changedIn (hc.mono (name_subset_editable hq))
  have hreg : DTProp.data q.1 + reg.bytes.length ≤ mem₁.length := by
    rw [reg.length_bytes, hc.1]
    simp only [DTProp.data, DTProp.sizeofProp, DTRegister.sizeofRegister]
    omega
  obtain ⟨mem₂, h₂⟩ := patch_isSome hreg
  exact ⟨mem₁, mem₂, h₁, htable.asReg_of_hasRegister ⟨q.2, hq, hdata⟩, store_of_patch h₂⟩

/-- Of a table's record the bytes are inside memory. -/
theorem record_le_length (h : At mem q.1 q.2.bytes) : q.1 + q.2.size ≤ mem.length := by
  have hpos := q.2.data_length_le_size
  have hlen := q.2.length_bytes
  rw [← hlen]
  refine h.length_le fun hnil => ?_
  rw [hnil, List.length_nil] at hlen
  simp only [DTProp.sizeofProp] at hpos
  omega

/-- Later records do not begin where an earlier one does. -/
theorem ne_of_mem_tail (hq : q ∈ locate Property.size (o + y.size) ys) : q.1 ≠ o := by
  have hb := (locate_bounds Property.size hq).1
  have hpos := y.data_length_le_size
  simp only [DTProp.sizeofProp] at hpos
  omega

theorem record_changedIn {E : ℕ → Prop} (hq : q ∈ tableAt n xs) (hE : ¬E q.1)
    (hc : ChangedIn (editable n xs E) mem mem') (h : At mem q.1 q.2.bytes) :
    At mem' q.1 q.2.bytes := by
  refine hc.at_of_at ?_ h
  rw [q.2.length_bytes]
  exact disjoint_editable hq hE

theorem AnswersAs.nameStartsWith_eq {start name : Bytes} {read : ℕ → Exec Bytes} {p : ℕ}
    (h : AnswersAs start read p name) (hname : DTProp.name mem p = .ok name) :
    DTProp.nameStartsWith read mem p = .ok (start.isPrefixOf name) := by
  obtain ⟨s, hs, hpre⟩ := h
  rw [DTProp.nameStartsWith, hname, ok_bind, hs, ok_bind, hpre, pure_eq_ok]

theorem nameStartsWith_eq {start : Bytes} {read : ℕ → Exec Bytes} (h : At mem q.1 q.2.bytes)
    (hok : q.2.NameOk) (hread : AnswersAs start read q.1 q.2.name) :
    DTProp.nameStartsWith read mem q.1 = .ok (start.isPrefixOf q.2.name) :=
  hread.nameStartsWith_eq (Property.name_eq (Property.at_nameBuf h) hok)

theorem isPrefixOf_nameBetween (i : ℤ) (x : Property) :
    memoryMapReservedDash.isPrefixOf (nameBetween i x) = isAvailable x := by
  unfold nameBetween isAvailable
  cases isKernelRegion x with
  | true =>
    rw [if_pos rfl, Bool.true_or]
    exact List.isPrefixOf_iff_prefix.mpr (List.prefix_append _ _)
  | false => rw [if_neg Bool.false_ne_true, Bool.false_or]

/-- Every property has a name between the loops. -/
theorem exists_betweenFrom (i : ℤ) (hq : q ∈ locate Property.size o ys) :
    ∃ name, (q, name) ∈ betweenFrom i o ys ∧
      memoryMapReservedDash.isPrefixOf name = isAvailable q.2 := by
  induction ys generalizing o i with
  | nil => cases hq
  | cons y ys ih =>
    rcases List.mem_cons.mp hq with rfl | hq
    · exact ⟨nameBetween i y, List.mem_cons_self, isPrefixOf_nameBetween i y⟩
    · obtain ⟨name, hname, hpre⟩ := ih (if isKernelRegion y then i - 1 else i) hq
      exact ⟨name, List.mem_cons_of_mem _ hname, hpre⟩

end edit

/-! ### The first loop -/

section reserve
variable {mem : Bytes} {n o : ℕ} {xs ys : List Property} {q : ℕ × Property} {i : ℤ}
  {dead : DeadPrefix}

theorem IsReserved.of_changedIn {mem' : Bytes} {E : ℕ → Prop} {p : ℕ} (h : IsReserved mem p)
    (hp : HasRegister n xs p) (hE : ¬E p) (hc : ChangedIn (editable n xs E) mem mem') :
    IsReserved mem' p where
  name := by
    rw [hp.name_changedIn hE hc]
    exact h.name
  register := by
    rw [hp.read_changedIn hE hc]
    exact h.register

/-- One round: a kernel region becomes a reserved one, and the header is left alone. -/
theorem reserveRegion_isOk (h : PropertyTable mem n xs) (hq : q ∈ tableAt n xs)
    (hrec : At mem q.1 q.2.bytes) (hok : q.2.NameOk)
    (hdata : q.2.data.length = DTRegister.sizeofRegister)
    (hk : kernelDash.isPrefixOf q.2.name = true) (hi : i.natAbs < 10 ^ 12) :
    ∃ mem', reserveRegion (mem, i) q.1 =
        .ok (mem', if isKernelRegion q.2 then i - 1 else i) ∧
      ChangedIn (editable n xs fun p => p = q.1 ∧ isKernelRegion q.2 = true) mem mem' ∧
      DTProp.name mem' q.1 = .ok (nameBetween i q.2) ∧
      (isKernelRegion q.2 = true → IsReserved mem' q.1) := by
  have hname := Property.name_eq (Property.at_nameBuf hrec) hok
  unfold reserveRegion
  simp only [hname, ok_bind]
  by_cases hheader : q.2.name = machHeaderLit
  · have hnot : isKernelRegion q.2 = false := by simp [isKernelRegion, hheader]
    refine ⟨mem, ?_, .refl _ _, ?_, fun hregion => ?_⟩
    · rw [if_pos hheader, pure_eq_ok, hnot, if_neg Bool.false_ne_true]
    · rw [hname, nameBetween, hnot, if_neg Bool.false_ne_true]
    · rw [hnot] at hregion
      cases hregion
  · have hregion : isKernelRegion q.2 = true := by simp [isKernelRegion, hk, hheader]
    obtain ⟨mem₁, mem₂, h₁, ho, h₂⟩ := edit_isOk h hq (record_le_length hrec) hdata
      (memoryMapReservedDash ++ decimal i) .zero
    obtain ⟨hc, hname₂, -, hread⟩ := h.edit_region hq h₁ ho h₂
    rw [untilNul_reservedName hi] at hname₂
    refine ⟨mem₂, ?_, hc.mono (editable_mono fun p hp => ⟨hp, hregion⟩), ?_,
      fun _ => ⟨⟨i, hname₂⟩, hread⟩⟩
    · rw [if_neg hheader, if_pos hregion]
      simp only [h₁, ho, h₂, ok_bind, pure_eq_ok]
    · rw [hname₂, nameBetween, if_pos hregion]

/-- The rest of the table is as the loop found it. -/
structure Fresh (mem : Bytes) (n : ℕ) (xs : List Property) (o : ℕ) (ys : List Property) :
    Prop where
  table : PropertyTable mem n xs
  rest : TableFrom n xs o ys
  records : ∀ q ∈ locate Property.size o ys, At mem q.1 q.2.bytes

namespace Fresh

theorem findIf_eq (h : Fresh mem n xs o ys) (hok : ∀ x ∈ xs, x.NameOk) {start : Bytes}
    {read : ℕ → Exec Bytes} (hread : ∀ q ∈ tableAt n xs, AnswersAs start read q.1 q.2.name) :
    (DTProp.cursor mem).findIf (DTProp.nameStartsWith read mem) xs.length
      (.ofSize o (UInt32.ofNat ys.length)) =
        .ok (firstFrom (fun x => start.isPrefixOf x.name) o ys) :=
  h.table.findIf_eq h.rest (fun q hq => nameStartsWith_eq (h.records q hq)
    (hok _ (mem_of_mem_tableAt (h.rest.mem_tableAt q hq)))
    (hread q (h.rest.mem_tableAt q hq))) h.rest.length_le

/-- An edit of the first record leaves the others. -/
theorem tail {mem' : Bytes} {y : Property} {E : ℕ → Prop} (h : Fresh mem n xs o (y :: ys))
    (hc : ChangedIn (editable n xs E) mem mem') (hE : ∀ p, E p → p = o) :
    Fresh mem' n xs (o + y.size) ys where
  table := h.table.of_changedIn hc
  rest := h.rest.tail
  records q hq := record_changedIn (h.rest.tail.mem_tableAt q hq)
    (fun hEq => ne_of_mem_tail hq (hE _ hEq)) hc (h.records q (List.mem_cons_of_mem _ hq))

theorem next_eq {mem' : Bytes} {y : Property} (h : Fresh mem n xs o (y :: ys))
    (htail : Fresh mem' n xs (o + y.size) ys) (hok : ∀ x ∈ xs, x.NameOk) {start : Bytes}
    {read : ℕ → Exec Bytes} (hread : ∀ q ∈ tableAt n xs, AnswersAs start read q.1 q.2.name) :
    ((DTProp.cursor mem').filter (DTProp.nameStartsWith read mem') xs.length).next
      (.ofSize o (UInt32.ofNat (ys.length + 1))) =
        .ok (firstFrom (fun x => start.isPrefixOf x.name) (o + y.size) ys) := by
  simp only [Cursor.filter, htail.table.next_eq h.rest, ok_bind, htail.findIf_eq hok hread]

end Fresh

/-- The records of kernel regions from an offset on. -/
def kernelFrom (o : ℕ) (ys : List Property) (p : ℕ) : Prop :=
  ∃ x, (p, x) ∈ locate Property.size o ys ∧ isKernelRegion x = true

/-- The loop from any place on: the kernel regions become reserved, and nothing else changes.
By induction on the rest of the table, in the memory that the rounds so far have left. -/
theorem reserve_run (h : Fresh mem n xs o ys) (hok : ∀ x ∈ xs, x.NameOk)
    (hread : ∀ q ∈ tableAt n xs, AnswersAs kernelDash (dead kernelDash) q.1 q.2.name)
    (hreg : ∀ x ∈ xs, kernelDash <+: x.name → x.data.length = DTRegister.sizeofRegister)
    (hi : i ≤ 99) (hroom : (ys.length : ℤ) ≤ i + 2 ^ 32) {k : ℕ} (hk : ys.length ≤ k) :
    ∃ mem' i', Cursor.forLoop
      (fun s => (DTProp.cursor s.1).filter (DTProp.nameStartsWith (dead kernelDash) s.1)
        xs.length)
      reserveRegion k (firstFrom (fun x => kernelDash.isPrefixOf x.name) o ys) (mem, i) =
        .ok (mem', i') ∧
      ChangedIn (editable n xs (kernelFrom o ys)) mem mem' ∧
      (∀ a ∈ betweenFrom i o ys, DTProp.name mem' a.1.1 = .ok a.2) ∧
      ∀ q ∈ locate Property.size o ys, isKernelRegion q.2 = true → IsReserved mem' q.1 := by
  induction ys generalizing o mem i k with
  | nil =>
    exact ⟨mem, i, Cursor.forLoop_end rfl, .refl _ _, fun a ha => (by cases ha),
      fun q hq => (by cases hq)⟩
  | cons y ys ih =>
    obtain ⟨m, rfl⟩ := Nat.exists_eq_add_of_le' hk
    rw [List.length_cons] at hroom
    have hmono : ∀ p, kernelFrom (o + y.size) ys p → kernelFrom o (y :: ys) p :=
      fun p ⟨x, hx, hx'⟩ => ⟨x, List.mem_cons_of_mem _ hx, hx'⟩
    have hy := h.rest.mem_tableAt _ List.mem_cons_self
    have hmem := mem_of_mem_tableAt hy
    have hne : ¬kernelFrom (o + y.size) ys o := fun ⟨x, hx, _⟩ => ne_of_mem_tail hx rfl
    cases hky : kernelDash.isPrefixOf y.name with
    | false =>
      -- the filter view passes the record
      have hnot : isKernelRegion y = false := by rw [isKernelRegion, hky, Bool.false_and]
      obtain ⟨mem', i', hrun, hc, hnames, hreserved⟩ := ih (h.tail (.refl _ _) fun p hp => hp) hi
        (by omega) (k := m + (y :: ys).length) (by rw [List.length_cons]; omega)
      refine ⟨mem', i', ?_, hc.mono (editable_mono hmono), fun a ha => ?_, fun q hq hregion => ?_⟩
      · rw [firstFrom, if_neg (by rw [hky]; exact Bool.false_ne_true)]
        exact hrun
      · rw [betweenFrom, nameBetween, hnot, if_neg Bool.false_ne_true,
          if_neg Bool.false_ne_true] at ha
        rcases List.mem_cons.mp ha with rfl | ha
        · rw [name_changedIn hc (disjoint_name hy hne)]
          exact Property.name_eq (Property.at_nameBuf (h.records _ List.mem_cons_self)) (hok y hmem)
        · exact hnames a ha
      · rcases List.mem_cons.mp hq with rfl | hq
        · rw [hnot] at hregion
          cases hregion
        · exact hreserved q hq hregion
    | true =>
      have hdata := hreg y hmem (List.isPrefixOf_iff_prefix.mp hky)
      have hle := h.rest.length_le.trans_lt h.table.length_lt
      rw [List.length_cons] at hle
      obtain ⟨mem₁, hround, hc₁, hname₁, hreserved₁⟩ := reserveRegion_isOk h.table hy
        (h.records _ List.mem_cons_self) (hok y hmem) hdata hky (i := i) (by omega)
      have htail : Fresh mem₁ n xs (o + y.size) ys := h.tail hc₁ fun p hp => hp.1
      obtain ⟨mem', i', hrun, hc, hnames, hreserved⟩ := ih htail
        (i := if isKernelRegion y then i - 1 else i) (by split_ifs <;> omega)
        (by split_ifs <;> omega) (k := m + ys.length) (by omega)
      have hnext := h.next_eq htail hok hread
      refine ⟨mem', i', ?_, ?_, fun a ha => ?_, fun q hq hregion => ?_⟩
      · rw [firstFrom, if_pos hky, ← hrun]
        rw [SizedIterator.ofSize_succ hle] at hnext ⊢
        have hend : (DTProp.cursor mem).atEnd ⟨some o, UInt32.ofNat (ys.length + 1)⟩ =
            .ok false := SizedIterator.atEnd_some _ _ _
        exact Cursor.forLoop_step hend rfl hround hnext
      · refine (hc₁.mono (editable_mono ?_)).trans (hc.mono (editable_mono hmono))
        rintro p ⟨rfl, hregion⟩
        exact ⟨y, List.mem_cons_self, hregion⟩
      · rcases List.mem_cons.mp ha with rfl | ha
        · rw [name_changedIn hc (disjoint_name hy hne), hname₁]
        · exact hnames a ha
      · rcases List.mem_cons.mp hq with rfl | hq
        · exact (hreserved₁ hregion).of_changedIn ⟨y, hy, hdata⟩ hne hc
        · exact hreserved q hq hregion

/-- The first loop begins at the first property that its view lets through. -/
theorem reserveRegions_eq (h : PropertyTable mem n xs) (dead : DeadPrefix) :
    reserveRegions dead mem n = (do
      let first ← (DTProp.cursor mem).findIf (DTProp.nameStartsWith (dead kernelDash) mem)
        xs.length (.ofSize (n + DTNode.sizeofNode) (UInt32.ofNat xs.length))
      let (mem, _) ← Cursor.forLoop
        (fun s => (DTProp.cursor s.1).filter (DTProp.nameStartsWith (dead kernelDash) s.1)
          xs.length)
        reserveRegion xs.length first (mem, 99)
      return mem) := by
  unfold reserveRegions DTNode.propertiesNamedWithPrefix DTNode.propertiesWhere Range.filter
  simp only [h.properties_eq, ok_bind, SizedIterator.sz_ofSize _ _ h.length_lt, bind_assoc,
    pure_bind]

theorem reserveRegions_isOk (h : RegionMap mem n xs) (htests : TestsRight dead n xs) :
    ∃ mem', reserveRegions dead mem n = .ok mem' ∧
      ChangedIn (editable n xs (kernelFrom (n + DTNode.sizeofNode) xs)) mem mem' ∧
      (∀ a ∈ betweenFrom 99 (n + DTNode.sizeofNode) xs, DTProp.name mem' a.1.1 = .ok a.2) ∧
      ∀ q ∈ tableAt n xs, isKernelRegion q.2 = true → IsReserved mem' q.1 := by
  have hfresh : Fresh mem n xs (n + DTNode.sizeofNode) xs := ⟨h.table, .whole n xs, h.records⟩
  have hlt := h.table.length_lt
  obtain ⟨mem', i', hrun, hc, hnames, hreserved⟩ := reserve_run hfresh h.name_ok htests.kernel
    (fun x hx hk => h.register x hx (.inl hk)) (le_refl 99) (by omega) (le_refl xs.length)
  refine ⟨mem', ?_, hc, hnames, hreserved⟩
  rw [reserveRegions_eq h.table, hfresh.findIf_eq h.name_ok htests.kernel, ok_bind, hrun]
  rfl

/-- Behind the first loop every region that segments can have is a reserved one by its name. -/
theorem TestsRight.nameStartsWith_eq (htests : TestsRight dead n xs)
    (hnames : ∀ a ∈ betweenFrom 99 (n + DTNode.sizeofNode) xs, DTProp.name mem a.1.1 = .ok a.2)
    (hq : q ∈ tableAt n xs) :
    DTProp.nameStartsWith (dead memoryMapReservedDash) mem q.1 = .ok (isAvailable q.2) := by
  obtain ⟨name, ha, hpre⟩ := exists_betweenFrom 99 hq
  rw [(htests.reserved _ ha).nameStartsWith_eq (hnames _ ha), hpre]

end reserve

/-! ### The second loop -/

section assign
variable {entry mem : Bytes} {n o kc cend pos : ℕ} {xs ys : List Property} {y : Property}
  {lcs done segs : List ℕ} {seg : ℕ} {S : Set ℕ} {machoBase : UInt64} {s : Assigning}
  {dead : DeadPrefix}

/-- The regions that the iterator will come to. -/
structure Awaits (dead : DeadPrefix) (mem : Bytes) (n : ℕ) (xs : List Property) (o : ℕ)
    (ys : List Property) : Prop where
  table : PropertyTable mem n xs
  rest : TableFrom n xs o ys
  inside : ∀ q ∈ tableAt n xs, q.1 + q.2.size ≤ mem.length
  names : ∀ q ∈ locate Property.size o ys,
    DTProp.nameStartsWith (dead memoryMapReservedDash) mem q.1 = .ok (isAvailable q.2)

namespace Awaits

theorem findIf_eq (h : Awaits dead mem n xs o ys) :
    (DTProp.cursor mem).findIf (DTProp.nameStartsWith (dead memoryMapReservedDash) mem) xs.length
      (.ofSize o (UInt32.ofNat ys.length)) = .ok (firstFrom isAvailable o ys) :=
  h.table.findIf_eq h.rest h.names h.rest.length_le

theorem tail {mem' : Bytes} (h : Awaits dead mem n xs o (y :: ys))
    (hc : ChangedIn (editable n xs (· = o)) mem mem') : Awaits dead mem' n xs (o + y.size) ys where
  table := h.table.of_changedIn hc
  rest := h.rest.tail
  inside := by
    rw [hc.1]
    exact h.inside
  names q hq := by
    have hname : DTProp.name mem' q.1 = DTProp.name mem q.1 :=
      name_changedIn hc (disjoint_name (h.rest.tail.mem_tableAt q hq) (ne_of_mem_tail hq))
    have hq' := h.names q (List.mem_cons_of_mem _ hq)
    unfold DTProp.nameStartsWith at hq' ⊢
    rw [hname]
    exact hq'

theorem next_eq {mem' : Bytes} (h : Awaits dead mem n xs o (y :: ys))
    (hc : ChangedIn (editable n xs (· = o)) mem mem') :
    ((DTProp.cursor mem').filter (DTProp.nameStartsWith (dead memoryMapReservedDash) mem')
      xs.length).next (.ofSize o (UInt32.ofNat (ys.length + 1))) =
        .ok (firstFrom isAvailable (o + y.size) ys) := by
  have htail := h.tail hc
  simp only [Cursor.filter, htail.table.next_eq h.rest, ok_bind, htail.findIf_eq]

end Awaits

/-- One round: the region the iterator stands on becomes the segment's, and the iterator goes on
to the next one. -/
theorem assignRegion_isOk (machoBase : UInt64) (hk : CommandsKept entry kc lcs S)
    (hE : tableRange n xs ⊆ S) (hS : ChangedIn S entry s.mem)
    (h : Awaits dead s.mem n xs o (y :: ys)) (hy : isAvailable y = true)
    (hdata : y.data.length = DTRegister.sizeofRegister)
    (hleft : SegmentsLeft entry cend lcs pos done)
    (hdone : MachO.segmentsIn entry lcs = done ++ seg :: segs) (hfits : SegmentFits entry seg)
    (hregion : s.region = firstFrom isAvailable o (y :: ys)) :
    ∃ mem' pos', assignRegion dead machoBase xs.length s seg =
        .ok ⟨mem', firstFrom isAvailable (o + y.size) ys, s.assigned ++ [(seg, o)]⟩ ∧
      (segmentCursor cend mem').next pos = .ok pos' ∧
      SegmentsLeft entry cend lcs pos' (done ++ [seg]) ∧
      ChangedIn (editable n xs (· = o)) s.mem mem' ∧
      GivenTo entry mem' machoBase seg o := by
  obtain ⟨he, rfl⟩ := hleft.at_segment hdone
  obtain ⟨hlc, hseg⟩ := hleft.head he
  obtain ⟨segName, hsegName, hlt⟩ := hfits.name
  obtain ⟨vm, file, hvm, hfile, hsize⟩ := hfits.ranges
  have hq := h.rest.mem_tableAt _ List.mem_cons_self
  have hle := h.rest.length_le.trans_lt h.table.length_lt
  rw [List.length_cons] at hle
  have hsegName' := MachO.segname_changedIn hS hk.disjoint hk.commands hlc hseg hsegName hlt
  obtain ⟨mem₁, mem₂, h₁, ho, h₂⟩ := edit_isOk h.table hq (h.inside _ hq) hdata
    (kernelDash ++ segName) ⟨machoBase + file.min, file.size⟩
  obtain ⟨hc, hname, -, hread⟩ := h.table.edit_region hq h₁ ho h₂
  -- the segment's ranges are read when the region has its new name
  have hS₁ : ChangedIn S entry mem₁ := hS.trans ((DTProp.setName_eq_ok h₁).1.mono
    (((name_subset_editable hq).trans editable_subset).trans hE))
  have hS₂ : ChangedIn S entry mem₂ := hS.trans (hc.mono (editable_subset.trans hE))
  rw [← MachO.vmaddrRange_changedIn hS₁ hk.disjoint hk.commands hlc hseg] at hvm
  have hfile' := hfile
  rw [← MachO.fileRange_changedIn hS₁ hk.disjoint hk.commands hlc hseg] at hfile'
  obtain ⟨pos', hpos', hleft'⟩ := hleft.exists_next hk hS₂ he
  have hderef : s.region.deref = .ok o := by
    rw [hregion, firstFrom, if_pos hy, SizedIterator.ofSize_succ hle]
    rfl
  refine ⟨mem₂, pos', ?_, hpos', hleft', hc,
    givenTo_of_edit hk hS hlc hseg hsegName' hname hfile hread⟩
  have hnext := h.next_eq hc
  rw [firstFrom, if_pos hy] at hregion
  rw [← hregion] at hnext
  unfold assignRegion
  simp only [hderef, hsegName', h₁, hvm, hfile', hsize, beq_self_eq_true, assertThat_true, ho, h₂,
    hnext, ok_bind, pure_eq_ok]

/-- The records of the first `k` regions that segments can have, from an offset on. -/
def takenFrom (o : ℕ) (ys : List Property) (k : ℕ) (p : ℕ) : Prop :=
  ∃ q ∈ (availableFrom o ys).take k, q.1 = p

theorem availableFrom_take (hy : isAvailable y = true) (o : ℕ) (ys : List Property) :
    availableFrom o (y :: ys) = (o, y) :: availableFrom (o + y.size) ys :=
  List.filter_cons_of_pos hy

theorem availableFrom_skip (hy : isAvailable y = false) (o : ℕ) (ys : List Property) :
    availableFrom o (y :: ys) = availableFrom (o + y.size) ys :=
  List.filter_cons_of_neg (by rw [hy]; exact Bool.false_ne_true)

theorem mem_of_mem_availableFrom {q : ℕ × Property} (hq : q ∈ availableFrom o ys) :
    q ∈ locate Property.size o ys ∧ isAvailable q.2 = true := List.mem_filter.mp hq

/-- What the loop has done when it has come to its end: the regions are given in order. -/
structure AssignedFrom (entry : Bytes) (n : ℕ) (xs : List Property) (machoBase : UInt64)
    (segs : List ℕ) (o : ℕ) (ys : List Property) (s s' : Assigning) : Prop where
  assigned : s'.assigned = s.assigned ++ segs.zip ((availableFrom o ys).map Prod.fst)
  changed : ChangedIn (editable n xs (takenFrom o ys segs.length)) s.mem s'.mem
  given : ∀ a ∈ segs.zip (availableFrom o ys), GivenTo entry s'.mem machoBase a.1 a.2.1

theorem AssignedFrom.nil : AssignedFrom entry n xs machoBase [] o ys s s :=
  ⟨(List.append_nil _).symm, .refl _ _, fun a ha => by cases ha⟩

theorem AssignedFrom.skip {s' : Assigning} (hy : isAvailable y = false)
    (hrest : AssignedFrom entry n xs machoBase segs (o + y.size) ys s s') :
    AssignedFrom entry n xs machoBase segs o (y :: ys) s s' := by
  obtain ⟨hassigned, hc, hgiven⟩ := hrest
  unfold takenFrom at hc
  rw [← availableFrom_skip hy] at hassigned hc hgiven
  exact ⟨hassigned, hc, hgiven⟩

theorem AssignedFrom.cons {s₁ s' : Assigning} (h : Awaits dead s.mem n xs o (y :: ys))
    (hy : isAvailable y = true) (hdata : y.data.length = DTRegister.sizeofRegister)
    (hassigned : s₁.assigned = s.assigned ++ [(seg, o)])
    (hc : ChangedIn (editable n xs (· = o)) s.mem s₁.mem)
    (hgiven : GivenTo entry s₁.mem machoBase seg o)
    (hrest : AssignedFrom entry n xs machoBase segs (o + y.size) ys s₁ s') :
    AssignedFrom entry n xs machoBase (seg :: segs) o (y :: ys) s s' where
  assigned := by
    rw [hrest.assigned, hassigned, availableFrom_take hy, List.map_cons, List.zip_cons_cons,
      List.append_assoc]
    rfl
  changed := by
    refine (hc.mono (editable_mono ?_)).trans (hrest.changed.mono (editable_mono ?_))
    · rintro p rfl
      refine ⟨(p, y), ?_, rfl⟩
      rw [availableFrom_take hy]
      exact List.mem_cons_self
    · rintro p ⟨q, hq, rfl⟩
      refine ⟨q, ?_, rfl⟩
      rw [availableFrom_take hy]
      exact List.mem_cons_of_mem _ hq
  given a ha := by
    rw [availableFrom_take hy, List.zip_cons_cons, List.mem_cons] at ha
    rcases ha with rfl | ha
    · have hne : ¬takenFrom (o + y.size) ys segs.length o := fun ⟨q, hq, hqo⟩ =>
        ne_of_mem_tail (mem_of_mem_availableFrom (List.mem_of_mem_take hq)).1 hqo
      exact hgiven.of_changedIn ⟨y, h.rest.mem_tableAt _ List.mem_cons_self, hdata⟩ hne
        hrest.changed
    · exact hrest.given a ha

/-- A round with a segment but no region left. -/
theorem assignRegion_atEnd (hregion : s.region = .sentinel) (seg : ℕ) :
    assignRegion dead machoBase xs.length s seg = .error .nullDeref := by
  unfold assignRegion
  rw [hregion]
  rfl

/-- The loop behind the last segment. -/
theorem assign_done (hleft : SegmentsLeft entry cend lcs pos done)
    (hdone : MachO.segmentsIn entry lcs = done ++ []) (k : ℕ) :
    Cursor.forLoop (fun s : Assigning => segmentCursor cend s.mem)
      (assignRegion dead machoBase xs.length) k pos s = .ok s :=
  Cursor.forLoop_end (hleft.atEnd_of_done (hdone.trans (List.append_nil _)))

/-- The second loop begins with the first property that its view lets through and the first
segment. -/
theorem assignRegions_eq {c : Checked} (h : PropertyTable mem c.memoryMap xs)
    (hcend : MachO.lcCend mem c.payloadBase.toNat = .ok cend) {first : ℕ}
    (hsegments : MachO.segments mem c.payloadBase.toNat = .ok ⟨first, segmentCursor cend mem⟩)
    (dead : DeadPrefix) : assignRegions dead mem c = (do
      let region ← (DTProp.cursor mem).findIf
        (DTProp.nameStartsWith (dead memoryMapReservedDash) mem) xs.length
        (.ofSize (c.memoryMap + DTNode.sizeofNode) (UInt32.ofNat xs.length))
      let s ← Cursor.forLoop (fun s : Assigning => segmentCursor cend s.mem)
        (assignRegion dead c.machoBase xs.length) mem.length first ⟨mem, region, []⟩
      return (s.mem, s.assigned)) := by
  unfold assignRegions DTNode.propertiesNamedWithPrefix DTNode.propertiesWhere Range.filter
  simp only [h.properties_eq, ok_bind, SizedIterator.sz_ofSize _ _ h.length_lt, hcend, hsegments,
    bind_assoc, pure_bind]

/-- The loop from any place on. By induction on the rest of the table: with a region for every
segment it comes to its end, and otherwise it dereferences the end of the range. -/
theorem assign_run (machoBase : UInt64) (hk : CommandsKept entry kc lcs S)
    (hE : tableRange n xs ⊆ S) (hS : ChangedIn S entry s.mem) (h : Awaits dead s.mem n xs o ys)
    (hreg : ∀ x ∈ xs, isAvailable x = true → x.data.length = DTRegister.sizeofRegister)
    (hleft : SegmentsLeft entry cend lcs pos done)
    (hdone : MachO.segmentsIn entry lcs = done ++ segs)
    (hfits : ∀ seg ∈ segs, SegmentFits entry seg)
    (hregion : s.region = firstFrom isAvailable o ys) {k : ℕ} (hfuel : segs.length ≤ k) :
    (segs.length ≤ (availableFrom o ys).length → ∃ s',
      Cursor.forLoop (fun s : Assigning => segmentCursor cend s.mem)
        (assignRegion dead machoBase xs.length) k pos s = .ok s' ∧
      AssignedFrom entry n xs machoBase segs o ys s s') ∧
    ((availableFrom o ys).length < segs.length →
      Cursor.forLoop (fun s : Assigning => segmentCursor cend s.mem)
        (assignRegion dead machoBase xs.length) k pos s = .error .nullDeref) := by
  induction ys generalizing o s pos done segs k with
  | nil =>
    cases segs with
    | nil =>
      exact ⟨fun _ => ⟨s, assign_done hleft hdone k, .nil⟩, fun hlt => absurd hlt (Nat.lt_irrefl 0)⟩
    | cons seg segs =>
      refine ⟨fun hle => absurd hle (Nat.not_succ_le_zero _), fun _ => ?_⟩
      obtain ⟨m, rfl⟩ := Nat.exists_eq_add_of_le' hfuel
      obtain ⟨he, hsubcmd⟩ := hleft.at_segment hdone
      exact Cursor.forLoop_error (a := seg) he (congrArg Except.ok hsubcmd)
        (assignRegion_atEnd hregion seg)
  | cons y ys ih =>
    cases hy : isAvailable y with
    | false =>
      have hregion' : s.region = firstFrom isAvailable (o + y.size) ys := by
        rw [hregion, firstFrom, if_neg (by rw [hy]; exact Bool.false_ne_true)]
      obtain ⟨hfound, hnone⟩ := ih hS (h.tail (.refl _ _)) hleft hdone hfits hregion' hfuel
      rw [availableFrom_skip hy]
      refine ⟨fun hle => ?_, hnone⟩
      obtain ⟨s', hrun, hassigned⟩ := hfound hle
      exact ⟨s', hrun, hassigned.skip hy⟩
    | true =>
      rw [availableFrom_take hy, List.length_cons]
      cases segs with
      | nil =>
        exact ⟨fun _ => ⟨s, assign_done hleft hdone k, .nil⟩,
          fun hlt => absurd hlt (Nat.not_lt_zero _)⟩
      | cons seg segs =>
        rw [List.forall_mem_cons] at hfits
        rw [List.length_cons] at hfuel ⊢
        obtain ⟨m, rfl⟩ := Nat.exists_eq_add_of_le' hfuel
        have hdata := hreg y
          (mem_of_mem_tableAt (h.rest.mem_tableAt _ List.mem_cons_self)) hy
        obtain ⟨mem₁, pos', hround, hpos', hleft', hc, hgiven⟩ := assignRegion_isOk machoBase
          hk hE hS h hy hdata hleft hdone hfits.1 hregion
        have hS₁ := hS.trans (hc.mono (editable_subset.trans hE))
        have hdone' : MachO.segmentsIn entry lcs = (done ++ [seg]) ++ segs := by
          rw [hdone, List.append_assoc]
          rfl
        obtain ⟨hfound, hnone⟩ := ih (k := m + segs.length)
          (s := ⟨mem₁, firstFrom isAvailable (o + y.size) ys, s.assigned ++ [(seg, o)]⟩)
          hS₁ (h.tail hc) hleft' hdone' hfits.2 rfl (Nat.le_add_left _ _)
        obtain ⟨he, hsubcmd⟩ := hleft.at_segment hdone
        have hstep := Cursor.forLoop_step (n := m + segs.length) (a := seg)
          (c := fun s : Assigning => segmentCursor cend s.mem) he (congrArg Except.ok hsubcmd)
          hround hpos'
        rw [← Nat.add_assoc, hstep]
        refine ⟨fun hle => ?_, fun hlt => hnone (Nat.lt_of_succ_lt_succ hlt)⟩
        obtain ⟨s', hrun, hassigned⟩ := hfound (Nat.le_of_succ_le_succ hle)
        exact ⟨s', hrun, hassigned.cons h hy hdata rfl hc hgiven⟩

end assign

/-! ### Both loops -/

/-- Memory as the loops find it: the memory map and, apart from it, the kernel cache's segments. -/
structure MapAndSegments (mem : Bytes) (c : Checked) (xs : List Property) (segs : List ℕ) :
    Prop where
  regions : RegionMap mem c.memoryMap xs
  visited : MachO.segmentsVisited mem c.payloadBase.toNat = .ok segs
  fits : ∀ seg ∈ segs, SegmentFits mem seg
  disjoint : Disjoint (MachO.commandBytes mem c.payloadBase.toNat) (tableRange c.memoryMap xs)

/-- What the loops are to leave in the memory map. -/
structure Renamed (mem mem' : Bytes) (c : Checked) (xs : List Property) (segs : List ℕ) :
    Prop where
  given : ∀ a ∈ segs.zip (availableAt c.memoryMap xs), GivenTo mem mem' c.machoBase a.1 a.2.1
  reserved : ∀ q ∈ (availableAt c.memoryMap xs).drop segs.length, isKernelRegion q.2 = true →
    IsReserved mem' q.1
  unchanged : ∀ q ∈ tableAt c.memoryMap xs, q ∉ (availableAt c.memoryMap xs).take segs.length →
    isKernelRegion q.2 = false → At mem' q.1 q.2.bytes

/-- The loops stay inside the properties, and rename as they are to when there are regions
enough. -/
structure KeepsToRegions (dead : DeadPrefix) (mem : Bytes) (c : Checked) (xs : List Property)
    (segs : List ℕ) : Prop where
  inside : renameRegions dead mem c ≠ .error .nullDeref
  renamed : segs.length ≤ (availableAt c.memoryMap xs).length → ∃ mem',
    renameRegions dead mem c = .ok (mem', segs.zip ((availableAt c.memoryMap xs).map Prod.fst)) ∧
      Renamed mem mem' c xs segs

section loops
variable {mem mem₁ mem' : Bytes} {c : Checked} {xs : List Property} {segs : List ℕ}
  {dead : DeadPrefix}

theorem MapAndSegments.commands (h : MapAndSegments mem c xs segs) :
    ∃ lcs, MachO.Commands mem c.payloadBase.toNat lcs ∧ MachO.segmentsIn mem lcs = segs := by
  obtain ⟨r, hr, hvisited⟩ := bind_eq_ok.mp h.visited
  have hv := Cursor.visits_of_elements hvisited
  obtain ⟨lcs, hlcs⟩ := MachO.commands_of_visits hr hv
  obtain ⟨r', hr', hs⟩ := hlcs.sees_segments
  obtain rfl := Except.ok.inj (hr.symm.trans hr')
  exact ⟨lcs, hlcs, Cursor.Visits.unique hs hv⟩

theorem MapAndSegments.length_le (h : MapAndSegments mem c xs segs) :
    segs.length ≤ mem.length := by
  obtain ⟨lcs, hlcs, rfl⟩ := h.commands
  rw [MachO.segmentsIn, List.length_map]
  exact (List.length_filter_le _ _).trans (MachO.length_le_of_commands hlcs)

theorem availableAt_subset {n : ℕ} {q : ℕ × Property} (hq : q ∈ availableAt n xs) :
    q ∈ tableAt n xs := (mem_of_mem_availableFrom hq).1

/-- A region's offset tells which it is, so that none is among the first and the later ones. -/
theorem not_takenFrom {n k : ℕ} {q : ℕ × Property} (hq : q ∈ tableAt n xs)
    (hnot : q ∉ (availableAt n xs).take k) :
    ¬takenFrom (n + DTNode.sizeofNode) xs k q.1 := by
  rintro ⟨r, hr, hrq⟩
  have hr' := availableAt_subset (List.mem_of_mem_take hr)
  exact hnot (Prod.ext hrq (tableAt_fst_inj hr' hq hrq) ▸ hr)

theorem isAvailable_register (h : RegionMap mem c.memoryMap xs) :
    ∀ x ∈ xs, isAvailable x = true → x.data.length = DTRegister.sizeofRegister := by
  intro x hx hav
  refine h.register x hx ?_
  simp only [isAvailable, isKernelRegion, Bool.or_eq_true, Bool.and_eq_true,
    List.isPrefixOf_iff_prefix] at hav
  exact hav.imp And.left id

/-- What both loops leave, from what each does. -/
theorem renamed_of_loops (h : RegionMap mem c.memoryMap xs)
    (hc : ChangedIn (editable c.memoryMap xs (kernelFrom (c.memoryMap + DTNode.sizeofNode) xs))
      mem mem₁)
    (hreserved : ∀ q ∈ tableAt c.memoryMap xs, isKernelRegion q.2 = true → IsReserved mem₁ q.1)
    (hc₁ : ChangedIn (editable c.memoryMap xs
      (takenFrom (c.memoryMap + DTNode.sizeofNode) xs segs.length)) mem₁ mem')
    (hgiven : ∀ a ∈ segs.zip (availableAt c.memoryMap xs),
      GivenTo mem mem' c.machoBase a.1 a.2.1) : Renamed mem mem' c xs segs where
  given := hgiven
  reserved q hq hregion := by
    have hav := List.mem_of_mem_drop hq
    have hq' := availableAt_subset hav
    have hdata := isAvailable_register h _ (mem_of_mem_tableAt hq')
      (mem_of_mem_availableFrom hav).2
    refine (hreserved q hq' hregion).of_changedIn ⟨q.2, hq', hdata⟩
      (not_takenFrom hq' fun htake => ?_) hc₁
    have hnodup : (availableAt c.memoryMap xs).Nodup := (nodup_tableAt _ _).filter _
    exact List.disjoint_take_drop hnodup (le_refl segs.length) htake hq
  unchanged q hq hnot hregion := by
    have hE : ¬kernelFrom (c.memoryMap + DTNode.sizeofNode) xs q.1 := by
      rintro ⟨x, hx, hx'⟩
      obtain rfl : x = q.2 := tableAt_fst_inj hx hq rfl
      rw [hx'] at hregion
      cases hregion
    exact record_changedIn hq (not_takenFrom hq hnot) hc₁
      (record_changedIn hq hE hc (h.records q hq))

theorem renameRegions_run (h : MapAndSegments mem c xs segs)
    (htests : TestsRight dead c.memoryMap xs) :
    (segs.length ≤ (availableAt c.memoryMap xs).length → ∃ mem',
      renameRegions dead mem c = .ok (mem', segs.zip ((availableAt c.memoryMap xs).map Prod.fst)) ∧
        Renamed mem mem' c xs segs) ∧
    ((availableAt c.memoryMap xs).length < segs.length →
      renameRegions dead mem c = .error .nullDeref) := by
  obtain ⟨lcs, hlcs, hsegs⟩ := h.commands
  obtain ⟨mem₁, hreserve, hc, hnames, hreserved⟩ := reserveRegions_isOk h.regions htests
  have hk : CommandsKept mem c.payloadBase.toNat lcs (tableRange c.memoryMap xs) :=
    ⟨hlcs, h.disjoint⟩
  have hS := hc.mono editable_subset
  obtain ⟨cend, first, hcend, hsegments, hleft⟩ := hk.exists_segments hS
  have htable := h.regions.table.of_changedIn hc
  have hawaits : Awaits dead mem₁ c.memoryMap xs (c.memoryMap + DTNode.sizeofNode) xs :=
    { table := htable
      rest := .whole _ _
      inside := fun q hq => by
        rw [hc.1]
        exact record_le_length (h.regions.records q hq)
      names := fun q hq => htests.nameStartsWith_eq hnames hq }
  have hfuel : segs.length ≤ mem₁.length := by
    rw [hc.1]
    exact h.length_le
  obtain ⟨hfound, hnone⟩ := assign_run c.machoBase
    (s := ⟨mem₁, firstFrom isAvailable (c.memoryMap + DTNode.sizeofNode) xs, []⟩) hk
    (Set.Subset.refl _) hS hawaits (isAvailable_register h.regions) hleft
    (hsegs.trans (List.nil_append segs).symm) h.fits rfl hfuel
  have hrun : renameRegions dead mem c = (do
      let s ← Cursor.forLoop (fun s : Assigning => segmentCursor cend s.mem)
        (assignRegion dead c.machoBase xs.length) mem₁.length first
        ⟨mem₁, firstFrom isAvailable (c.memoryMap + DTNode.sizeofNode) xs, []⟩
      return (s.mem, s.assigned)) := by
    rw [renameRegions, hreserve, ok_bind, assignRegions_eq htable hcend hsegments,
      hawaits.findIf_eq, ok_bind]
  rw [hrun]
  constructor
  · intro hle
    obtain ⟨s', hs', hassigned⟩ := hfound hle
    refine ⟨s'.mem, ?_, renamed_of_loops h.regions hc hreserved hassigned.changed
      hassigned.given⟩
    rw [hs', ok_bind, hassigned.assigned, List.nil_append, pure_eq_ok]
    rfl
  · intro hlt
    rw [hnone hlt]
    rfl

/-- Where the tests find a text that no name begins with, no view lets anything through, and the
first segment goes to the end of the range. -/
theorem renameRegions_of_noneBegins (h : MapAndSegments mem c xs segs) (hsegs : segs ≠ [])
    {s : Bytes} (hnone : ∀ x ∈ xs, ¬s <+: x.name) :
    renameRegions (fun _ _ => .ok s) mem c = .error .nullDeref := by
  obtain ⟨lcs, hlcs, hin⟩ := h.commands
  obtain ⟨seg, rest, rfl⟩ := List.exists_cons_of_ne_nil hsegs
  have hk : CommandsKept mem c.payloadBase.toNat lcs (tableRange c.memoryMap xs) :=
    ⟨hlcs, h.disjoint⟩
  obtain ⟨cend, first, hcend, hsegments, hleft⟩ := hk.exists_segments (.refl _ _)
  obtain ⟨he, hsubcmd⟩ := hleft.at_segment (hin.trans (List.nil_append _).symm)
  have htable := h.regions.table
  have hfind : (DTProp.cursor mem).findIf (DTProp.nameStartsWith (fun _ => .ok s) mem) xs.length
      (.ofSize (c.memoryMap + DTNode.sizeofNode) (UInt32.ofNat xs.length)) = .ok .sentinel := by
    refine Eq.trans (b := .ok (firstFrom (fun _ => false) _ xs))
      (htable.findIf_eq (.whole _ _) (fun q hq => ?_) le_rfl) (by rw [firstFrom_false])
    rw [DTProp.nameStartsWith, Property.name_eq (Property.at_nameBuf (h.regions.records q hq))
      (h.regions.name_ok _ (mem_of_mem_tableAt hq)), ok_bind, ok_bind, pure_eq_ok,
      Bool.eq_false_iff.mpr fun hpre => hnone _ (mem_of_mem_tableAt hq)
        (List.isPrefixOf_iff_prefix.mp hpre)]
  have hreserve : reserveRegions (fun _ _ => .ok s) mem c.memoryMap = .ok mem := by
    rw [reserveRegions_eq htable, hfind, ok_bind, Cursor.forLoop_end rfl]
    rfl
  obtain ⟨m, hm⟩ := Nat.exists_eq_add_of_le' h.length_le
  rw [List.length_cons, ← Nat.add_assoc] at hm
  have hround : Cursor.forLoop (fun s : Assigning => segmentCursor cend s.mem)
      (assignRegion (fun _ _ => .ok s) c.machoBase xs.length) mem.length first
      ⟨mem, .sentinel, []⟩ = .error .nullDeref := by
    rw [hm]
    exact Cursor.forLoop_error (a := seg) he (congrArg Except.ok hsubcmd)
      (assignRegion_atEnd rfl seg)
  rw [renameRegions, hreserve, ok_bind, assignRegions_eq htable hcend hsegments, hfind, ok_bind,
    hround]
  rfl

/-- Where the tests find no text, already the first property's is a fault. -/
theorem renameRegions_of_fault (h : MapAndSegments mem c xs segs) (hxs : xs ≠ []) (f : Fault) :
    renameRegions (fun _ _ => .error f) mem c = .error f := by
  obtain ⟨y, ys, rfl⟩ := List.exists_cons_of_ne_nil hxs
  have htable := h.regions.table
  have hlt := htable.length_lt
  rw [List.length_cons] at hlt
  have hy : (c.memoryMap + DTNode.sizeofNode, y) ∈ tableAt c.memoryMap (y :: ys) :=
    List.mem_cons_self
  have htest : DTProp.nameStartsWith (fun _ => .error f) mem (c.memoryMap + DTNode.sizeofNode) =
      .error f := by
    rw [DTProp.nameStartsWith, Property.name_eq (Property.at_nameBuf (h.regions.records _ hy))
      (h.regions.name_ok y List.mem_cons_self), ok_bind]
    rfl
  have hfind : (DTProp.cursor mem).findIf (DTProp.nameStartsWith (fun _ => .error f) mem)
      (y :: ys).length
      (.ofSize (c.memoryMap + DTNode.sizeofNode) (UInt32.ofNat (y :: ys).length)) = .error f := by
    rw [List.length_cons, SizedIterator.ofSize_succ hlt]
    generalize UInt32.ofNat (ys.length + 1) = sz
    have hend : (DTProp.cursor mem).atEnd ⟨some (c.memoryMap + DTNode.sizeofNode), sz⟩ =
        .ok false := SizedIterator.atEnd_some _ _ _
    have hderef : (DTProp.cursor mem).deref ⟨some (c.memoryMap + DTNode.sizeofNode), sz⟩ =
        .ok (c.memoryMap + DTNode.sizeofNode) := rfl
    unfold Cursor.findIf Cursor.findIfWith
    simp [hend, hderef, htest]
  rw [renameRegions, reserveRegions_eq htable, hfind]
  rfl

/-- With the prefixes as they were passed the loops do what they are to exactly when every segment
finds a region. What the tests read is another matter: nothing is promised of it, so that only a
map without properties and a kernel cache without segments are safe from it. -/
theorem keepsToRegions_iff (h : MapAndSegments mem c xs segs) :
    (∀ dead, TestsRight dead c.memoryMap xs →
      (KeepsToRegions dead mem c xs segs ↔
        segs.length ≤ (availableAt c.memoryMap xs).length)) ∧
    ((∀ dead, KeepsToRegions dead mem c xs segs) ↔ xs = [] ∧ segs = []) := by
  have hright : ∀ dead, TestsRight dead c.memoryMap xs → (KeepsToRegions dead mem c xs segs ↔
      segs.length ≤ (availableAt c.memoryMap xs).length) := by
    intro dead htests
    obtain ⟨hfound, hnone⟩ := renameRegions_run h htests
    constructor
    · intro hkeeps
      by_contra hlt
      exact hkeeps.inside (hnone (Nat.lt_of_not_le hlt))
    · intro hle
      obtain ⟨mem', hrun, hrenamed⟩ := hfound hle
      refine ⟨?_, fun _ => ⟨mem', hrun, hrenamed⟩⟩
      rw [hrun]
      simp
  refine ⟨hright, fun hall => ?_, ?_⟩
  · have hsegs : segs = [] := by
      by_contra hne
      refine (hall _).inside (renameRegions_of_noneBegins h hne (s := List.replicate 33 0x78)
        fun x hx hpre => ?_)
      have hlong := hpre.length_le
      have hname : x.name.length ≤ x.nameBuf.length := (List.takeWhile_sublist _).length_le
      rw [List.length_replicate] at hlong
      rw [x.length_nameBuf] at hname
      omega
    refine ⟨?_, hsegs⟩
    by_contra hne
    obtain ⟨mem', hrun, -⟩ := (hall _).renamed (by rw [hsegs]; exact Nat.zero_le _)
    rw [renameRegions_of_fault h hne .outOfBounds] at hrun
    cases hrun
  · rintro ⟨rfl, rfl⟩ dead
    exact (hright dead ⟨fun q hq => (by cases hq), fun a ha => (by cases ha)⟩).mpr le_rfl

end loops

/-! ### Two segments -/

def twoSegments : List Command := [segmentCommand 0 16, segmentCommand 16 16]

/-- A node with regions alone, and behind it a kernel cache with two segments. -/
def sampleMap (regs : List Property) : Bytes :=
  DTree.header (.node regs []) ++ kernelCache twoSegments

/-- The memory map is at 0. -/
def sampleChecked (payloadBase : UInt64) : Checked where
  dt := 0
  commandLine := 0
  commandLineSize := 0
  memoryMap := 0
  machoBase := 4096
  payloadBase
  kcVmaddrRange := ⟨0, 32⟩
  entryPc := 4096
  sepfwProp := 0
  sepfwReg := 0

theorem mapAndSegments_sampleMap {regs : List Property} {base : UInt64} {segs : List ℕ}
    (hregions : RegionMap (sampleMap regs) 0 regs)
    (htable : MachO.CommandTable (sampleMap regs) base.toNat twoSegments)
    (hvisited : MachO.segmentsVisited (sampleMap regs) base.toNat = .ok segs)
    (hranges : ∀ seg ∈ segs, cstr (sampleMap regs) seg = .ok [0x54] ∧
      ∃ r ∈ [⟨0, 16⟩, ⟨16, 32⟩], SegmentCommand.vmaddrRange (sampleMap regs) seg = .ok r ∧
        SegmentCommand.fileRange (sampleMap regs) seg = .ok r)
    (hbehind : DTNode.sizeofNode + (regs.map Property.size).sum ≤ base.toNat) :
    MapAndSegments (sampleMap regs) (sampleChecked base) regs segs where
  regions := hregions
  visited := hvisited
  fits seg hseg := by
    obtain ⟨hname, r, -, hvm, hfile⟩ := hranges seg hseg
    exact ⟨⟨[0x54], hname, by decide⟩, r, r, hvm, hfile, rfl⟩
  disjoint := by
    refine Disjoint.mono_left (htable.commandBytes_subset (by decide))
      (Set.Ico_disjoint_Ico.mpr ?_)
    simp only [sampleChecked, Nat.zero_add]
    omega

theorem length_machHeaderLit_le : machHeaderLit.length ≤ 32 := by decide

theorem length_payloadLit_le : payloadLit.length ≤ 32 := by decide

/-- All regions but that of the header can be taken. -/
def twoRegions : List Property :=
  [regProp machHeaderLit ⟨4096, 0⟩ length_machHeaderLit_le,
    regProp payloadLit ⟨164, 0⟩ length_payloadLit_le,
    regProp (memoryMapReservedDash ++ decimal 5) ⟨8, 8⟩ (by decide)]

theorem mapAndSegments_twoRegions :
    MapAndSegments (sampleMap twoRegions) (sampleChecked 164) twoRegions [204, 276] :=
  mapAndSegments_sampleMap
    ⟨.of_at (by decide +kernel) (by decide +kernel) (by decide +kernel), by decide +kernel,
      by decide +kernel, by decide +kernel⟩
    ⟨by decide +kernel, by decide +kernel, by decide +kernel⟩ (by decide +kernel)
    (by decide +kernel) (by decide +kernel)

theorem keepsToRegions_twoRegions :
    KeepsToRegions .intact (sampleMap twoRegions) (sampleChecked 164) twoRegions [204, 276] :=
  ((keepsToRegions_iff mapAndSegments_twoRegions).1 .intact (testsRight_intact _ _)).mpr
    (by decide +kernel)

theorem mapAndSegments_oneRegion :
    MapAndSegments (sampleMap (twoRegions.take 2)) (sampleChecked 112) (twoRegions.take 2)
      [152, 224] :=
  mapAndSegments_sampleMap
    ⟨.of_at (by decide +kernel) (by decide +kernel) (by decide +kernel), by decide +kernel,
      by decide +kernel, by decide +kernel⟩
    ⟨by decide +kernel, by decide +kernel, by decide +kernel⟩ (by decide +kernel)
    (by decide +kernel) (by decide +kernel)

/-- With the prefixes as they were passed the second segment finds the iterator at the end. With
an `x` where they were already the first one does, however many regions there are. -/
theorem not_keepsToRegions_oneRegion :
    (MapAndSegments (sampleMap (twoRegions.take 2)) (sampleChecked 112) (twoRegions.take 2)
        [152, 224] ∧
      ¬KeepsToRegions .intact (sampleMap (twoRegions.take 2)) (sampleChecked 112)
        (twoRegions.take 2) [152, 224]) ∧
    MapAndSegments (sampleMap twoRegions) (sampleChecked 164) twoRegions [204, 276] ∧
    ¬KeepsToRegions (fun _ _ => .ok [0x78]) (sampleMap twoRegions) (sampleChecked 164) twoRegions
      [204, 276] := by
  refine ⟨⟨mapAndSegments_oneRegion, fun h => h.inside ?_⟩, mapAndSegments_twoRegions,
    fun h => h.inside ?_⟩
  · decide +kernel
  · decide +kernel

end XNUBoot
end JevMachO

import JevMachO.DeviceTree.Registers

/-! Edits of a node's property table that leave its size words alone: names and data change in
place, and the iterators still walk the same properties. -/
namespace JevMachO
open Lib

/-- The name fields and the data of the properties that `E` allows. -/
def editable (n : ℕ) (xs : List Property) (E : ℕ → Prop) : Set ℕ :=
  { i | ∃ q ∈ tableAt n xs, E q.1 ∧ (i ∈ Set.Ico q.1 (q.1 + DTProp.sizeofNameBuf) ∨
      i ∈ Set.Ico (DTProp.data q.1) (DTProp.data q.1 + q.2.data.length)) }

/-- All bytes of a node and its properties. -/
def tableRange (n : ℕ) (xs : List Property) : Set ℕ :=
  Set.Ico n (n + DTNode.sizeofNode + (xs.map Property.size).sum)

section records
variable {n : ℕ} {xs : List Property} {q r : ℕ × Property} {E : ℕ → Prop}

theorem Property.data_length_le_size (x : Property) :
    DTProp.sizeofProp + x.data.length ≤ x.size := by
  unfold Property.size
  omega

theorem tableAt_bounds (hq : q ∈ tableAt n xs) : n + DTNode.sizeofNode ≤ q.1 ∧
    q.1 + q.2.size ≤ n + DTNode.sizeofNode + (xs.map Property.size).sum :=
  locate_bounds Property.size hq

/-- No byte is in two properties. -/
theorem tableAt_unique (hq : q ∈ tableAt n xs) (hr : r ∈ tableAt n xs) {i : ℕ}
    (hiq : i ∈ Set.Ico q.1 (q.1 + q.2.size)) (hir : i ∈ Set.Ico r.1 (r.1 + r.2.size)) : q = r := by
  rw [Set.mem_Ico] at hiq hir
  refine locate_unique Property.size (fun x => ?_) hq hr (by omega) (by omega)
  have := x.data_length_le_size
  simp only [DTProp.sizeofProp] at this
  omega

/-- A property's offset tells which it is. -/
theorem tableAt_fst_inj (hq : q ∈ tableAt n xs) (hr : r ∈ tableAt n xs) (h : q.1 = r.1) :
    q.2 = r.2 := by
  have hpos := fun x : Property => x.data_length_le_size
  simp only [DTProp.sizeofProp] at hpos
  have hq' := hpos q.2
  have hr' := hpos r.2
  rw [tableAt_unique hq hr (i := q.1) (by rw [Set.mem_Ico]; omega) (by rw [Set.mem_Ico]; omega)]

theorem nodup_tableAt (n : ℕ) (xs : List Property) : (tableAt n xs).Nodup := by
  refine nodup_locate Property.size (fun x => ?_) _ _
  have := x.data_length_le_size
  simp only [DTProp.sizeofProp] at this
  omega

theorem mem_record_of_mem_fields {i : ℕ}
    (hi : i ∈ Set.Ico q.1 (q.1 + DTProp.sizeofNameBuf) ∨
      i ∈ Set.Ico (DTProp.data q.1) (DTProp.data q.1 + q.2.data.length)) :
    i ∈ Set.Ico q.1 (q.1 + q.2.size) := by
  have hsz := q.2.data_length_le_size
  simp only [DTProp.sizeofProp, DTProp.data, DTProp.sizeofNameBuf, Set.mem_Ico] at hsz hi ⊢
  omega

theorem editable_subset : editable n xs E ⊆ tableRange n xs := by
  rintro i ⟨q, hq, -, hi⟩
  have hb := tableAt_bounds hq
  have hrec := mem_record_of_mem_fields hi
  rw [Set.mem_Ico] at hrec
  exact ⟨by omega, by omega⟩

theorem record_subset_tableRange (hq : q ∈ tableAt n xs) :
    Set.Ico q.1 (q.1 + q.2.size) ⊆ tableRange n xs := by
  have hb := tableAt_bounds hq
  exact Set.Ico_subset_Ico (by omega) hb.2

/-- All bytes of a flattened tree. -/
def DTree.range (p : ℕ × DTree) : Set ℕ := Set.Ico p.1 (p.1 + p.2.size)

/-- A node of a tree, and its properties, are inside the tree. -/
theorem tableRange_subset {p q : ℕ × DTree} (hq : q ∈ DTree.nodesAt p.1 p.2) :
    tableRange q.1 q.2.label ⊆ DTree.range p := by
  obtain ⟨hlo, hhi⟩ := locate_bounds DTree.headerSize (DTree.mem_nodesAt.mp hq)
  exact Set.Ico_subset_Ico hlo (by rw [Nat.add_assoc]; exact hhi)

theorem editable_mono {E' : ℕ → Prop} (h : ∀ p, E p → E' p) :
    editable n xs E ⊆ editable n xs E' := by
  rintro i ⟨q, hq, hE, hi⟩
  exact ⟨q, hq, h _ hE, hi⟩

/-- What is not to be edited is not touched. -/
theorem disjoint_editable (hq : q ∈ tableAt n xs) (hE : ¬E q.1) :
    Disjoint (Set.Ico q.1 (q.1 + q.2.size)) (editable n xs E) := by
  refine Set.disjoint_left.mpr fun i hi => ?_
  rintro ⟨r, hr, hEr, hir⟩
  obtain rfl := tableAt_unique hq hr hi (mem_record_of_mem_fields hir)
  exact hE hEr

theorem disjoint_name (hq : q ∈ tableAt n xs) (hE : ¬E q.1) :
    Disjoint (Set.Ico q.1 (q.1 + DTProp.sizeofNameBuf)) (editable n xs E) :=
  (disjoint_editable hq hE).mono_left fun _ hi => mem_record_of_mem_fields (.inl hi)

theorem disjoint_data (hq : q ∈ tableAt n xs) (hE : ¬E q.1) :
    Disjoint (Set.Ico (DTProp.data q.1) (DTProp.data q.1 + q.2.data.length))
      (editable n xs E) :=
  (disjoint_editable hq hE).mono_left fun _ hi => mem_record_of_mem_fields (.inr hi)

theorem disjoint_sizeWord (hq : q ∈ tableAt n xs) :
    Disjoint (Set.Ico (q.1 + 32) (q.1 + 36)) (editable n xs E) := by
  have hsz := q.2.data_length_le_size
  simp only [DTProp.sizeofProp] at hsz
  refine Set.disjoint_left.mpr fun i hi => ?_
  rintro ⟨r, hr, -, hir⟩
  have hrec : i ∈ Set.Ico q.1 (q.1 + q.2.size) := by
    rw [Set.mem_Ico] at hi ⊢
    omega
  obtain rfl := tableAt_unique hq hr hrec (mem_record_of_mem_fields hir)
  simp only [DTProp.sizeofNameBuf, DTProp.data, DTProp.sizeofProp, Set.mem_Ico] at hi hir
  omega

end records

/-! ### Where iterators stand -/

/-- An iterator at a property of the table or at its end. -/
def OnTable (n : ℕ) (xs : List Property) (it : SizedIterator) : Prop :=
  ∃ pre post, xs = pre ++ post ∧
    it = .ofSize (n + DTNode.sizeofNode + (pre.map Property.size).sum) (UInt32.ofNat post.length)

/-- An iterator of a filter view over the table: not at the end, it is at a property the filter
accepts. -/
structure Stands (n : ℕ) (xs : List Property) (accepts : ℕ → Exec Bool) (it : SizedIterator) :
    Prop where
  onTable : OnTable n xs it
  accepted : ∀ p, it.deref = .ok p → accepts p = .ok true

theorem OnTable.mem {n p : ℕ} {xs : List Property} {it : SizedIterator} (h : OnTable n xs it)
    (hd : it.deref = .ok p) : ∃ x, (p, x) ∈ tableAt n xs := by
  obtain ⟨pre, post, rfl, rfl⟩ := h
  cases post with
  | nil => simp [SizedIterator.ofSize, SizedIterator.deref, SizedIterator.sentinel] at hd
  | cons x post =>
    unfold SizedIterator.ofSize at hd
    split_ifs at hd
    · cases hd
    · obtain rfl := Except.ok.inj hd
      refine ⟨x, ?_⟩
      rw [tableAt, locate_append, locate_cons]
      exact List.mem_append_right _ List.mem_cons_self

/-- From offset `o` on, the rest of the table is `ys`. -/
def TableFrom (n : ℕ) (xs : List Property) (o : ℕ) (ys : List Property) : Prop :=
  ∃ pre, xs = pre ++ ys ∧ o = n + DTNode.sizeofNode + (pre.map Property.size).sum

/-- Where a search from offset `o` stops. -/
def firstFrom (φ : Property → Bool) : ℕ → List Property → SizedIterator
  | _, [] => .sentinel
  | o, y :: ys =>
    if φ y then .ofSize o (UInt32.ofNat (ys.length + 1)) else firstFrom φ (o + y.size) ys

theorem firstFrom_false (o : ℕ) (ys : List Property) :
    firstFrom (fun _ => false) o ys = .sentinel := by
  induction ys generalizing o with
  | nil => rfl
  | cons y ys ih => exact ih (o + y.size)

namespace TableFrom
variable {n o : ℕ} {xs ys : List Property} {y : Property}

theorem whole (n : ℕ) (xs : List Property) : TableFrom n xs (n + DTNode.sizeofNode) xs :=
  ⟨[], rfl, rfl⟩

theorem tail (h : TableFrom n xs o (y :: ys)) : TableFrom n xs (o + y.size) ys := by
  obtain ⟨pre, rfl, rfl⟩ := h
  refine ⟨pre ++ [y], by simp, ?_⟩
  rw [List.map_append, List.sum_append, List.map_singleton, List.sum_singleton, Nat.add_assoc]

theorem length_le (h : TableFrom n xs o ys) : ys.length ≤ xs.length := by
  obtain ⟨pre, rfl, -⟩ := h
  rw [List.length_append]
  exact Nat.le_add_left _ _

theorem mem_tableAt (h : TableFrom n xs o ys) :
    ∀ q ∈ locate Property.size o ys, q ∈ tableAt n xs := by
  obtain ⟨pre, rfl, rfl⟩ := h
  intro q hq
  rw [tableAt, locate_append]
  exact List.mem_append_right _ hq

end TableFrom

namespace PropertyTable
variable {mem mem' : Bytes} {n : ℕ} {xs : List Property} {E : ℕ → Prop} {it it' : SizedIterator}
  {accepts : ℕ → Exec Bool}

/-- The table is a table after the edits. -/
theorem of_changedIn (h : PropertyTable mem n xs) (hc : ChangedIn (editable n xs E) mem mem') :
    PropertyTable mem' n xs where
  nprops := by
    refine hc.at_of_at (Set.disjoint_left.mpr fun i hi => ?_) h.nprops
    rintro ⟨q, hq, -, hiq⟩
    have hb := (tableAt_bounds hq).1
    have hrec := mem_record_of_mem_fields hiq
    rw [length_leBytes] at hi
    simp only [DTNode.sizeofNode, Set.mem_Ico] at hb hi hrec
    omega
  sizeWord x hx := by
    refine hc.at_of_at ?_ (h.sizeWord x hx)
    rw [length_leBytes]
    exact disjoint_sizeWord hx
  length_lt := h.length_lt

/-- Changes elsewhere leave the table. -/
theorem of_disjoint {S : Set ℕ} (h : PropertyTable mem n xs) (hd : Disjoint (tableRange n xs) S)
    (hc : ChangedIn S mem mem') : PropertyTable mem' n xs where
  nprops := by
    refine hc.at_of_at (hd.mono_left (Set.Ico_subset_Ico_right ?_)) h.nprops
    rw [length_leBytes]
    unfold DTNode.sizeofNode
    omega
  sizeWord x hx := by
    refine hc.at_of_at (hd.mono_left ?_) (h.sizeWord x hx)
    have hsz := x.2.data_length_le_size
    simp only [DTProp.sizeofProp] at hsz
    refine (Set.Ico_subset_Ico (Nat.le_add_right _ _) ?_).trans (record_subset_tableRange hx)
    rw [length_leBytes]
    omega
  length_lt := h.length_lt

theorem onTable_properties (h : PropertyTable mem n xs) (hp : DTNode.properties mem n = .ok it) :
    OnTable n xs it := by
  rw [h.properties_eq] at hp
  obtain rfl := Except.ok.inj hp
  exact ⟨[], xs, rfl, rfl⟩

theorem next_eq (h : PropertyTable mem n xs) {o : ℕ} {y : Property} {ys : List Property}
    (hfrom : TableFrom n xs o (y :: ys)) :
    (DTProp.cursor mem).next (.ofSize o (UInt32.ofNat (ys.length + 1))) =
      .ok (.ofSize (o + y.size) (UInt32.ofNat ys.length)) := by
  have hlt := h.length_lt
  have hle := hfrom.length_le
  rw [List.length_cons] at hle
  have hy := hfrom.mem_tableAt _ List.mem_cons_self
  have hd := y.length_data
  have hext : (do return DTProp.sizeofProp + (← DTProp.sizePadded mem o).toNat : Exec ℕ) =
      .ok y.size := by
    simp only [Property.sizePadded_eq (h.sizeWord _ hy), ok_bind, pure_eq_ok, Property.size]
    rw [u32_toNat_ofNat (by omega)]
  exact SizedIterator.next_ofSize hext (by omega)

theorem onTable_next (h : PropertyTable mem n xs) (hit : OnTable n xs it)
    (hn : (DTProp.cursor mem).next it = .ok it') : OnTable n xs it' := by
  obtain ⟨pre, post, rfl, rfl⟩ := hit
  cases post with
  | nil => cases hn
  | cons x post =>
    have hfrom : TableFrom n (pre ++ x :: post) _ (x :: post) := ⟨pre, rfl, rfl⟩
    rw [List.length_cons, h.next_eq hfrom] at hn
    obtain rfl := Except.ok.inj hn
    obtain ⟨pre', hpre', ho⟩ := hfrom.tail
    exact ⟨pre', post, hpre', by rw [ho]⟩

/-- The iterator moves to a later property. -/
theorem exists_lt_of_next (h : PropertyTable mem n xs) (hit : OnTable n xs it)
    (hn : (DTProp.cursor mem).next it = .ok it') :
    ∃ p, it.deref = .ok p ∧ ∀ p', it'.deref = .ok p' → p < p' := by
  obtain ⟨pre, post, rfl, rfl⟩ := hit
  cases post with
  | nil => cases hn
  | cons x post =>
    have hfrom : TableFrom n (pre ++ x :: post) _ (x :: post) := ⟨pre, rfl, rfl⟩
    rw [List.length_cons, h.next_eq hfrom] at hn
    obtain rfl := Except.ok.inj hn
    have hlt := hfrom.length_le.trans_lt h.length_lt
    rw [List.length_cons] at hlt ⊢
    refine ⟨_, by rw [SizedIterator.ofSize_succ hlt]; rfl, fun p' hp' => ?_⟩
    have hpos := x.data_length_le_size
    simp only [DTProp.sizeofProp] at hpos
    unfold SizedIterator.ofSize at hp'
    split_ifs at hp'
    · cases hp'
    · obtain rfl := Except.ok.inj hp'
      omega

/-- Where `find_if` stops, for a predicate that `φ` describes on the records. -/
theorem findIf_eq (h : PropertyTable mem n xs) {φ : Property → Bool} {o k : ℕ}
    {ys : List Property} (hfrom : TableFrom n xs o ys)
    (hacc : ∀ q ∈ locate Property.size o ys, accepts q.1 = .ok (φ q.2)) (hk : ys.length ≤ k) :
    (DTProp.cursor mem).findIf accepts k (.ofSize o (UInt32.ofNat ys.length)) =
      .ok (firstFrom φ o ys) := by
  induction ys generalizing o k with
  | nil =>
    unfold Cursor.findIf Cursor.findIfWith
    rfl
  | cons y ys ih =>
    obtain ⟨m, rfl⟩ := Nat.exists_eq_add_of_le' hk
    rw [locate_cons, List.forall_mem_cons] at hacc
    have hlt : ys.length + 1 < 2 ^ 32 := hfrom.length_le.trans_lt h.length_lt
    have hnext := h.next_eq hfrom
    rw [SizedIterator.ofSize_succ hlt] at hnext
    unfold Cursor.findIf Cursor.findIfWith firstFrom
    rw [List.length_cons, SizedIterator.ofSize_succ hlt]
    generalize UInt32.ofNat (ys.length + 1) = sz at hnext ⊢
    have hend : (DTProp.cursor mem).atEnd ⟨some o, sz⟩ = .ok false :=
      SizedIterator.atEnd_some _ _ _
    have hderef : (DTProp.cursor mem).deref ⟨some o, sz⟩ = .ok o := rfl
    cases hφ : φ y with
    | true => simp [hend, hderef, hacc.1, hφ]
    | false =>
      have hrest := ih hfrom.tail hacc.2 (k := m + ys.length) (by omega)
      unfold Cursor.findIf at hrest
      simpa [hend, hderef, hacc.1, hφ, hnext] using hrest

/-- `find_if` stays on the table, and where it stops before the end its predicate accepts. -/
theorem stands_findIf (h : PropertyTable mem n xs) (hit : OnTable n xs it) {k : ℕ}
    (hf : (DTProp.cursor mem).findIf accepts k it = .ok it') : Stands n xs accepts it' where
  onTable := by
    obtain ⟨r, hr, hr'⟩ := bind_eq_ok.mp hf
    obtain rfl := Except.ok.inj hr'
    exact Cursor.findIfWith_inv (P := OnTable n xs) (fun s s' hs _ => h.onTable_next hs) hit hr
  accepted p hd := by
    rcases Cursor.findIf_stops hf with hend | ⟨a, ha, hpa⟩
    · have hptr : it'.ptr = some p := by
        unfold SizedIterator.deref at hd
        split at hd
        · rename_i q hq
          rw [hq, Except.ok.inj hd]
        · cases hd
      obtain ⟨ptr, sz⟩ := it'
      obtain rfl : ptr = some p := hptr
      rw [DTProp.cursor, SizedIterator.atEnd_some] at hend
      cases hend
    · obtain rfl := Except.ok.inj (hd.symm.trans ha)
      exact hpa

theorem stands_first (h : PropertyTable mem n xs) {r : Range Fault SizedIterator ℕ}
    (hr : DTNode.propertiesWhere accepts mem n = .ok r) : Stands n xs accepts r.first := by
  obtain ⟨props, hprops, hr⟩ := bind_eq_ok.mp hr
  obtain ⟨first, hfirst, hr⟩ := bind_eq_ok.mp hr
  obtain rfl := Except.ok.inj hr
  exact h.stands_findIf (h.onTable_properties hprops) hfirst

theorem stands_next (h : PropertyTable mem n xs) (hit : OnTable n xs it) {k : ℕ}
    (hn : ((DTProp.cursor mem).filter accepts k).next it = .ok it') : Stands n xs accepts it' := by
  obtain ⟨s, hs, hf⟩ := bind_eq_ok.mp hn
  exact h.stands_findIf (h.onTable_next hit hs) hf

/-- What a filter view's iterator has left is behind it. -/
theorem lt_of_filter_next (h : PropertyTable mem n xs) (hit : OnTable n xs it) {k p p' : ℕ}
    (hd : it.deref = .ok p) (hn : ((DTProp.cursor mem).filter accepts k).next it = .ok it')
    (hd' : it'.deref = .ok p') : p < p' := by
  obtain ⟨s, hs, hf⟩ := bind_eq_ok.mp hn
  obtain ⟨r, hr, hr'⟩ := bind_eq_ok.mp hf
  obtain rfl := Except.ok.inj hr'
  obtain ⟨q, hq, hlt⟩ := h.exists_lt_of_next hit hs
  obtain rfl := Except.ok.inj (hd.symm.trans hq)
  exact (Cursor.findIfWith_inv (P := fun s => OnTable n xs s ∧ ∀ p', s.deref = .ok p' → p < p')
    (fun s s' hs _ hn => by
      obtain ⟨q, hq, hlt'⟩ := h.exists_lt_of_next hs.1 hn
      exact ⟨h.onTable_next hs.1 hn, fun p' hp' => (hs.2 q hq).trans (hlt' p' hp')⟩)
    ⟨h.onTable_next hit hs, hlt⟩ hr).2 p' hd'

/-- A property that is found is in the table and has the name. -/
theorem of_propertyNamed (h : PropertyTable mem n xs) {name : Bytes} {p : ℕ}
    (hf : DTNode.propertyNamed mem n name = .ok (some p)) :
    (∃ x, (p, x) ∈ tableAt n xs) ∧ DTProp.name mem p = .ok name := by
  unfold DTNode.propertyNamed at hf
  rw [h.properties_eq, ok_bind] at hf
  constructor
  · obtain ⟨q, hq, rfl⟩ := List.mem_map.mp (h.visits.mem_of_findIfOrNull hf)
    exact ⟨q.2, hq⟩
  · have haccepts := Cursor.findIfOrNull_accepts hf
    obtain ⟨s, hs, heq⟩ := bind_eq_ok.mp haccepts
    rw [hs, eq_of_beq (Except.ok.inj heq)]

/-- A property that has a register has sixteen bytes of data. -/
theorem asReg_eq_ok (h : PropertyTable mem n xs) {q : ℕ × Property} (hq : q ∈ tableAt n xs)
    {o : ℕ} (ho : DTProp.asReg mem q.1 = .ok o) :
    o = DTProp.data q.1 ∧ q.2.data.length = DTRegister.sizeofRegister := by
  have hd := q.2.length_data
  unfold DTProp.asReg at ho
  rw [Property.sizeRaw_eq (h.sizeWord q hq), ok_bind, u32_toNat_ofNat (by omega)] at ho
  obtain ⟨u, hu, ho⟩ := bind_eq_ok.mp ho
  refine ⟨(Except.ok.inj ho).symm, ?_⟩
  unfold assertThat at hu
  split_ifs at hu with hlen
  exact eq_of_beq hlen

end PropertyTable

/-! ### Reads and writes -/

section fields
variable {S : Set ℕ} {mem mem' : Bytes} {p o : ℕ}

theorem name_changedIn (h : ChangedIn S mem mem')
    (hd : Disjoint (Set.Ico p (p + DTProp.sizeofNameBuf)) S) :
    DTProp.name mem' p = DTProp.name mem p := by
  have hl : load mem' p 32 = load mem p 32 := load_changedIn h hd
  unfold DTProp.name DTProp.nameBuf
  rw [hl]

theorem DTRegister.read_changedIn (h : ChangedIn S mem mem')
    (hd : Disjoint (Set.Ico o (o + DTRegister.sizeofRegister)) S) :
    DTRegister.read mem' o = DTRegister.read mem o := by
  have hbase : Disjoint (Set.Ico o (o + 8)) S :=
    hd.mono_left (Set.Ico_subset_Ico_right (Nat.add_le_add_left (by decide) o))
  have hsize : Disjoint (Set.Ico (o + 8) (o + 8 + 8)) S :=
    hd.mono_left (Set.Ico_subset_Ico_left (Nat.le_add_right o 8))
  unfold DTRegister.read
  rw [loadU64_changedIn h hbase, loadU64_changedIn h hsize]

theorem DTRegister.write_eq_ok {reg : DTRegister} (h : DTRegister.write mem o reg = .ok mem') :
    ChangedIn (Set.Ico o (o + DTRegister.sizeofRegister)) mem mem' ∧
      DTRegister.read mem' o = .ok reg := by
  have hc := store_changedIn h
  rw [reg.length_bytes] at hc
  refine ⟨hc, ?_⟩
  have hat := at_patch (store_eq_ok h)
  rw [DTRegister.bytes, at_append, length_leBytes] at hat
  rw [DTRegister.read, loadU64_of_at hat.1, loadU64_of_at hat.2, UInt64.ofNat_toNat,
    UInt64.ofNat_toNat]
  rfl

/-- The name field is replaced; a NUL in the text ends the name. -/
theorem DTProp.setName_eq_ok {newName : Bytes} (h : DTProp.setName mem p newName = .ok mem') :
    ChangedIn (Set.Ico p (p + DTProp.sizeofNameBuf)) mem mem' ∧
      DTProp.name mem' p = .ok (untilNul newName) := by
  obtain ⟨u, hu, h⟩ := bind_eq_ok.mp h
  obtain ⟨mem₁, h₁, h₂⟩ := bind_eq_ok.mp h
  have hlen : newName.length < DTProp.sizeofNameBuf := by
    unfold assertThat at hu
    split_ifs at hu with hlt
    exact of_decide_eq_true hlt
  have hc₁ := store_changedIn h₁
  have hc₂ := store_changedIn h₂
  rw [List.length_replicate] at hc₁
  rw [List.length_append, List.length_singleton] at hc₂
  have hc : ChangedIn (Set.Ico p (p + DTProp.sizeofNameBuf)) mem mem' :=
    hc₁.trans (hc₂.mono (Set.Ico_subset_Ico_right (by omega)))
  refine ⟨hc, ?_⟩
  have hat := at_patch (store_eq_ok h₂)
  have hin := (load_eq_ok (load_store h₁)).1
  rw [List.length_replicate, ← hc₂.1] at hin
  have hbuf : DTProp.nameBuf mem' p = .ok ((mem'.drop p).take DTProp.sizeofNameBuf) :=
    load_of_le hin
  obtain ⟨rest, hrest⟩ := hat
  rw [← hrest, List.take_append, List.take_of_length_le (by simp; omega)] at hbuf
  have h0 : (0 : UInt8) ∈ newName ++ [0] := by simp
  simp only [DTProp.name, hbuf, ok_bind]
  rw [List.contains_iff_mem.mpr (List.mem_append_left _ h0), assertThat_true, ok_bind,
    untilNul_append h0, untilNul_concat_nul]
  rfl

end fields
end JevMachO

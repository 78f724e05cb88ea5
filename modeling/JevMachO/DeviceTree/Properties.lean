import JevMachO.DeviceTree.Layout
import JevMachO.Lib.Words

/-! The property table of a node: the count after which the iterator stops, and the size words it
steps by. Names are read separately, so that a table stays walkable while names change. -/
namespace JevMachO
open Lib

/-! ### The shared iterator -/

namespace SizedIterator

theorem ofSize_succ {k : ℕ} (hk : k + 1 < 2 ^ 32) (o : ℕ) :
    ofSize o (UInt32.ofNat (k + 1)) = ⟨some o, UInt32.ofNat (k + 1)⟩ := by
  refine if_neg fun h => ?_
  have := congrArg UInt32.toNat h
  rw [u32_toNat_ofNat hk] at this
  simp at this

theorem atEnd_sentinel (extent : ℕ → Exec ℕ) : (cursor extent).atEnd sentinel = .ok true := rfl

theorem atEnd_some (extent : ℕ → Exec ℕ) (o : ℕ) (sz : UInt32) :
    (cursor extent).atEnd ⟨some o, sz⟩ = .ok false := by
  simp [cursor, ne, sentinel]

theorem next_ofSize {extent : ℕ → Exec ℕ} {o n k : ℕ} (h : extent o = .ok n)
    (hk : k + 1 < 2 ^ 32) :
    next extent (ofSize o (UInt32.ofNat (k + 1))) = .ok (ofSize (o + n) (UInt32.ofNat k)) := by
  have hsub : UInt32.ofNat (k + 1) - 1 = UInt32.ofNat k := by
    rw [UInt32.ofNat_add, UInt32.ofNat_one, UInt32.add_sub_cancel]
  rw [ofSize_succ hk]
  simp only [next, deref, ok_bind, h, hsub, pure_eq_ok, ofSize]
  split <;> rfl

/-- An iterator whose `extent` is the size of each record in turn stops at the records. -/
theorem visits {α : Type} (extent : ℕ → Exec ℕ) (len : α → ℕ) {o : ℕ} {xs : List α}
    (hext : ∀ p ∈ locate len o xs, extent p.1 = .ok (len p.2)) {k : ℕ} (hk : k ≤ xs.length)
    (hk32 : k < 2 ^ 32) :
    (cursor extent).Visits (ofSize o (UInt32.ofNat k))
      (((locate len o xs).take k).map Prod.fst) := by
  induction k generalizing o xs with
  | zero => exact .nil (atEnd_sentinel extent)
  | succ k ih =>
    cases xs with
    | nil => simp at hk
    | cons x xs =>
      rw [locate_cons, List.forall_mem_cons] at hext
      refine .cons ?_ ?_ (next_ofSize hext.1 hk32) (ih hext.2 (by simpa using hk) (by omega))
      · rw [ofSize_succ hk32]
        exact atEnd_some extent _ _
      · rw [ofSize_succ hk32]
        rfl

theorem sz_ofSize (o k : ℕ) (hk : k < 2 ^ 32) : (ofSize o (UInt32.ofNat k)).sz.toNat = k := by
  cases k with
  | zero => rfl
  | succ k => rw [ofSize_succ hk, u32_toNat_ofNat hk]

/-- What holds of a position and is kept by the distance to the next one holds of every
element found. -/
theorem found_inv {extent : ℕ → Exec ℕ} {P : ℕ → Prop}
    (hext : ∀ a k, P a → extent a = .ok k → P (a + k)) {pred : ℕ → Exec Bool} {n a : ℕ}
    {it : SizedIterator} (hit : ∀ a, it.ptr = some a → P a)
    (h : (cursor extent).findIfOrNull pred n it = .ok (some a)) : P a := by
  obtain ⟨s, hs, -, hd⟩ := Cursor.findIfOrNull_inv
    (P := fun it : SizedIterator => ∀ a, it.ptr = some a → P a) (by
      intro s s' hs _ hn b hb
      obtain ⟨a, ha, hn⟩ := bind_eq_ok.mp hn
      obtain ⟨k, hk, hn⟩ := bind_eq_ok.mp hn
      have hpa : P a := by
        apply hs a
        simp only [deref] at ha
        split at ha
        · rename_i hp
          rw [hp, Except.ok.inj ha]
        · simp at ha
      dsimp only at hn
      split_ifs at hn
      · obtain rfl := Except.ok.inj hn
        simp [sentinel] at hb
      · obtain rfl := Except.ok.inj hn
        obtain rfl := Option.some.inj hb
        exact hext a k hpa hk) hit h
  simp only [cursor, deref] at hd
  split at hd
  · rename_i hp
    exact hs a (by rw [hp, Except.ok.inj hd])
  · simp at hd

theorem ptr_ofSize {o a : ℕ} {sz : UInt32} (h : (ofSize o sz).ptr = some a) : a = o := by
  unfold ofSize at h
  split_ifs at h
  · simp [sentinel] at h
  · exact (Option.some.inj h).symm

end SizedIterator

/-- A fold whose step never fails is the pure fold. -/
private theorem foldlM_ok {α β : Type} {f : β → α → Exec β} {g : β → α → β} {as : List α}
    (h : ∀ a ∈ as, ∀ b, f b a = .ok (g b a)) (b : β) : as.foldlM f b = .ok (as.foldl g b) := by
  induction as generalizing b with
  | nil => rfl
  | cons a as ih =>
    rw [List.foldlM_cons, h a (by simp), ok_bind, ih fun c hc => h c (by simp [hc])]
    rfl

private theorem foldl_add_ofNat {α : Type} (len : α → ℕ) (xs : List (ℕ × α)) (b : UInt32) :
    xs.foldl (fun acc p => acc + UInt32.ofNat (len p.2)) b =
      b + UInt32.ofNat ((xs.map Prod.snd).map len).sum := by
  induction xs generalizing b with
  | nil => simp
  | cons x xs ih => simp [ih, UInt32.ofNat_add, UInt32.add_assoc]

/-- Adding up a 32-bit size per record. -/
theorem accumulate_sizes {α : Type} {c : Cursor Fault SizedIterator ℕ} {s : SizedIterator}
    {xs : List (ℕ × α)} (hv : c.Visits s (xs.map Prod.fst)) {f : UInt32 → ℕ → Exec UInt32}
    (len : α → ℕ) (hf : ∀ p ∈ xs, ∀ acc, f acc p.1 = .ok (acc + UInt32.ofNat (len p.2)))
    {n : ℕ} (hn : xs.length ≤ n) :
    c.accumulate f n s 0 = .ok (UInt32.ofNat ((xs.map Prod.snd).map len).sum) := by
  rw [hv.accumulate f n (by simpa using hn), List.foldlM_map,
    foldlM_ok (g := fun acc p => acc + UInt32.ofNat (len p.2)) hf, foldl_add_ofNat]
  simp

/-! ### Properties -/

namespace Property
variable {mem : Bytes} {p : ℕ} {x : Property}

theorem at_nameBuf (h : At mem p x.bytes) : At mem p x.nameBuf := by
  simp only [bytes, at_append] at h
  exact h.1.1.1

theorem at_sizeWord (h : At mem p x.bytes) : At mem (p + 32) (leBytes 4 x.sizeWord) := by
  simp only [bytes, at_append, x.length_nameBuf] at h
  exact h.1.1.2

theorem at_data (h : At mem p x.bytes) : At mem (DTProp.data p) x.data := by
  simp only [bytes, at_append, List.length_append, x.length_nameBuf, length_leBytes] at h
  exact h.1.2

theorem name_eq (h : At mem p x.nameBuf) (hx : x.NameOk) : DTProp.name mem p = .ok x.name := by
  have hl := load_of_at h (n := 32) x.length_nameBuf.symm (by
    intro hn
    have := x.length_nameBuf
    simp [hn] at this)
  have hc : x.nameBuf.contains 0 = true := List.contains_iff_mem.mpr hx
  simp only [DTProp.name, DTProp.nameBuf, hl, ok_bind, hc, assertThat_true, pure_eq_ok]
  rfl

theorem sizeRaw_eq (h : At mem (p + 32) (leBytes 4 x.sizeWord)) :
    DTProp.sizeRaw mem p = .ok (UInt32.ofNat x.data.length) := by
  have hd := x.length_data
  have hmask : ~~~DTProp.propSizeReplacementTag = 0x7fffffff := rfl
  simp only [DTProp.sizeRaw, DTProp.sz, loadU32_of_at h, ok_bind, pure_eq_ok, hmask]
  congr 1
  apply UInt32.toNat_inj.mp
  rw [u32_low_mask, UInt32.toNat_ofNat', u32_toNat_ofNat (by omega), sizeWord]
  split <;> omega

theorem sizePadded_eq (h : At mem (p + 32) (leBytes 4 x.sizeWord)) :
    DTProp.sizePadded mem p = .ok (UInt32.ofNat ((x.data.length + 3) / 4 * 4)) := by
  have hd := x.length_data
  have hmask : ~~~(3 : UInt32) = 0xfffffffc := rfl
  simp only [DTProp.sizePadded, sizeRaw_eq h, ok_bind, pure_eq_ok, hmask]
  congr 1
  apply UInt32.toNat_inj.mp
  rw [u32_round_down, UInt32.toNat_add, u32_toNat_ofNat (n := x.data.length) (by omega),
    u32_toNat_ofNat (by omega), show (3 : UInt32).toNat = 3 from rfl]
  omega

theorem isReplacement_eq (h : At mem (p + 32) (leBytes 4 x.sizeWord)) :
    DTProp.isReplacement mem p = .ok x.replacement := by
  have hd := x.length_data
  have hword : x.sizeWord < 2 ^ 32 := by
    unfold sizeWord
    split <;> omega
  have hbit : (UInt32.ofNat x.sizeWord &&& DTProp.propSizeReplacementTag).toNat =
      x.sizeWord / 2 ^ 31 * 2 ^ 31 := by
    rw [DTProp.propSizeReplacementTag, u32_high_bit, u32_toNat_ofNat hword]
  simp only [DTProp.isReplacement, DTProp.sz, loadU32_of_at h, ok_bind, pure_eq_ok, ne_eq,
    ← UInt32.toNat_inj, hbit, UInt32.toNat_zero]
  congr 1
  unfold sizeWord
  cases x.replacement with
  | false =>
    simp only [Bool.false_eq_true, if_false, Nat.add_zero, decide_eq_false_iff_not, not_not]
    omega
  | true =>
    simp only [if_true, decide_eq_true_eq]
    omega

/-- The data is where `size_raw` says, also when there is none. -/
theorem load_data (h : At mem p x.bytes) :
    load mem (DTProp.data p) x.data.length = .ok x.data := by
  have hl := h.length_le (List.ne_nil_of_length_pos (by
    rw [x.length_bytes]
    simp only [size, DTProp.sizeofProp]
    omega))
  rw [x.length_bytes] at hl
  simp only [size, DTProp.sizeofProp] at hl
  have hin : DTProp.data p + x.data.length ≤ mem.length := by
    simp only [DTProp.data, DTProp.sizeofProp]
    omega
  unfold load slice
  rw [if_pos hin, (at_data h).take_drop]

end Property

/-! ### The table of a node -/

/-- The properties of a node at `n`, each with its offset. -/
def tableAt (n : ℕ) (xs : List Property) : List (ℕ × Property) :=
  locate Property.size (n + DTNode.sizeofNode) xs

/-- The property count and the size words are in place. -/
structure PropertyTable (mem : Bytes) (n : ℕ) (xs : List Property) : Prop where
  nprops : At mem n (leBytes 4 xs.length)
  sizeWord : ∀ x ∈ tableAt n xs, At mem (x.1 + 32) (leBytes 4 x.2.sizeWord)
  length_lt : xs.length < 2 ^ 32

theorem mem_of_mem_tableAt {n : ℕ} {xs : List Property} {x : ℕ × Property}
    (hx : x ∈ tableAt n xs) : x.2 ∈ xs := by
  rw [← map_snd_locate Property.size (n + DTNode.sizeofNode) xs]
  exact List.mem_map_of_mem hx

theorem length_le_sum_size (xs : List Property) : xs.length ≤ (xs.map Property.size).sum :=
  length_le_sum Property.size (fun x => by
    simp only [Property.size, DTProp.sizeofProp]
    omega) xs

namespace PropertyTable
variable {mem : Bytes} {n : ℕ} {xs : List Property}

/-- Properties laid out behind their count form a table. -/
theorem of_at (hn : At mem n (leBytes 4 xs.length))
    (hx : At mem (n + DTNode.sizeofNode) (xs.flatMap Property.bytes))
    (hlt : (xs.map Property.size).sum < 2 ^ 31) : PropertyTable mem n xs where
  nprops := hn
  sizeWord x hx' := Property.at_sizeWord (locate_at Property.size Property.length_bytes hx x hx')
  length_lt := by
    have := length_le_sum_size xs
    omega

theorem nprops_eq (h : PropertyTable mem n xs) :
    DTNode.nprops mem n = .ok (UInt32.ofNat xs.length) := loadU32_of_at h.nprops

theorem propertiesCbegin_eq (h : PropertyTable mem n xs) : DTNode.propertiesCbegin mem n =
    .ok (.ofSize (n + DTNode.sizeofNode) (UInt32.ofNat xs.length)) := by
  simp only [DTNode.propertiesCbegin, DTNode.propertiesSize, h.nprops_eq, ok_bind, pure_eq_ok]

theorem properties_eq (h : PropertyTable mem n xs) : DTNode.properties mem n =
    .ok (.ofSize (n + DTNode.sizeofNode) (UInt32.ofNat xs.length)) := by
  simp only [DTNode.properties, DTNode.propertiesSize, h.nprops_eq, h.propertiesCbegin_eq,
    ok_bind, pure_eq_ok]
  split
  · rename_i h0
    rw [h0]
    rfl
  · rfl

/-- The property iterator stops at every property of the node. -/
theorem visits (h : PropertyTable mem n xs) : (DTProp.cursor mem).Visits
    (.ofSize (n + DTNode.sizeofNode) (UInt32.ofNat xs.length))
    ((tableAt n xs).map Prod.fst) := by
  have hv := SizedIterator.visits
    (fun p => do return DTProp.sizeofProp + (← DTProp.sizePadded mem p).toNat) Property.size
    (o := n + DTNode.sizeofNode) (by
      intro q hq
      have hd := q.2.length_data
      simp only [Property.sizePadded_eq (h.sizeWord q hq), ok_bind, pure_eq_ok, Property.size]
      rw [u32_toNat_ofNat (by omega)]) le_rfl h.length_lt
  rwa [List.take_of_length_le (by simp)] at hv

theorem propertiesSizeof_eq (h : PropertyTable mem n xs) : DTNode.propertiesSizeof mem n =
    .ok (UInt32.ofNat (xs.map Property.size).sum) := by
  have hacc := accumulate_sizes h.visits (f := fun accum prop => do
    return accum + UInt32.ofNat DTProp.sizeofProp + (← DTProp.sizePadded mem prop))
    Property.size (by
      intro q hq acc
      simp only [Property.sizePadded_eq (h.sizeWord q hq), ok_bind, pure_eq_ok, Property.size,
        UInt32.ofNat_add, UInt32.add_assoc]) (n := xs.length) (by simp [tableAt])
  rw [tableAt, map_snd_locate] at hacc
  unfold DTNode.propertiesSizeof
  rw [h.propertiesCbegin_eq, ok_bind, SizedIterator.sz_ofSize _ _ h.length_lt]
  exact hacc

/-- `property_named` returns the first property with the name. -/
theorem propertyNamed_eq (h : PropertyTable mem n xs)
    (hbuf : ∀ x ∈ tableAt n xs, At mem x.1 x.2.nameBuf) (hok : ∀ x ∈ xs, x.NameOk)
    (name : Bytes) : DTNode.propertyNamed mem n name =
      .ok (((tableAt n xs).find? fun q => q.2.name == name).map Prod.fst) := by
  have hfind := h.visits.findIfOrNull
    (fun prop => do return (← DTProp.name mem prop) == name) (fun q => q.2.name == name) (by
      intro q hq
      simp only [Property.name_eq (hbuf q hq) (hok _ (mem_of_mem_tableAt hq)), ok_bind,
        pure_eq_ok])
    xs.length (by simp [tableAt])
  unfold DTNode.propertyNamed
  rw [h.properties_eq, ok_bind, SizedIterator.sz_ofSize _ _ h.length_lt]
  exact hfind

end PropertyTable

/-! ### Properties laid out behind a header -/

/-- The properties a walk over `properties()` stops at. -/
def DTNode.propertiesVisited (mem : Bytes) (n : ℕ) : Exec (List ℕ) := do
  let first ← properties mem n
  (DTProp.cursor mem).elements first.sz.toNat first

/-- A visited property reports its name, size, data and replacement tag. -/
def Property.Reports (mem : Bytes) (p : ℕ) (x : Property) : Prop :=
  DTProp.name mem p = .ok x.name ∧
    DTProp.sizeRaw mem p = .ok (UInt32.ofNat x.data.length) ∧
    load mem (DTProp.data p) x.data.length = .ok x.data ∧
    DTProp.isReplacement mem p = .ok x.replacement

/-- The node at `n` has exactly the properties `xs`: in a walk, one by one, in total size, and in
lookups by name. -/
structure HasProperties (mem : Bytes) (n : ℕ) (xs : List Property) : Prop where
  visited : DTNode.propertiesVisited mem n = .ok ((tableAt n xs).map Prod.fst)
  reports : ∀ x ∈ tableAt n xs, Property.Reports mem x.1 x.2
  sizeof : DTNode.propertiesSizeof mem n = .ok (UInt32.ofNat (xs.flatMap Property.bytes).length)
  named : ∀ name, DTNode.propertyNamed mem n name =
    .ok (((tableAt n xs).find? fun x => x.2.name == name).map Prod.fst)

theorem hasProperties {mem : Bytes} {n : ℕ} {xs : List Property}
    (hn : At mem n (leBytes 4 xs.length))
    (hx : At mem (n + DTNode.sizeofNode) (xs.flatMap Property.bytes))
    (hok : ∀ x ∈ xs, x.NameOk) (hlt : (xs.flatMap Property.bytes).length < 2 ^ 31) :
    HasProperties mem n xs := by
  have hlen := length_flatMap_enc Property.size Property.length_bytes xs
  have htable := PropertyTable.of_at hn hx (by omega)
  have hbytes := locate_at Property.size Property.length_bytes hx
  refine { visited := ?_, reports := ?_, sizeof := ?_, named := ?_ }
  · unfold DTNode.propertiesVisited
    rw [htable.properties_eq, ok_bind, SizedIterator.sz_ofSize _ _ htable.length_lt]
    exact htable.visits.elements _ (by simp [tableAt])
  · intro x hx'
    have h := hbytes x hx'
    have hword := Property.at_sizeWord h
    exact ⟨Property.name_eq (Property.at_nameBuf h) (hok _ (mem_of_mem_tableAt hx')),
      Property.sizeRaw_eq hword, Property.load_data h, Property.isReplacement_eq hword⟩
  · rw [htable.propertiesSizeof_eq, hlen]
  · exact htable.propertyNamed_eq (fun x hx' => Property.at_nameBuf (hbytes x hx')) hok

theorem length_noData_lt : ([] : Bytes).length < 2 ^ 31 := by decide

/-- A tagged property of five bytes and an empty one, behind a header without children. -/
def taggedThenEmpty : List Property :=
  [{ Property.ofData (ascii ['r', 'e', 'g']) [1, 2, 3, 4, 5] (by decide) (by decide) with
      replacement := true },
    Property.ofData nameLit [] length_nameLit_le length_noData_lt]

theorem hasProperties_taggedThenEmpty :
    HasProperties (leBytes 4 2 ++ leBytes 4 0 ++ taggedThenEmpty.flatMap Property.bytes) 0
      taggedThenEmpty :=
  hasProperties (by decide) (by decide) (by decide) (by decide)

end JevMachO

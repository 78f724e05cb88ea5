import JevMachO.Lib.Bytes
import Mathlib.Data.Nat.Bitwise

/-! Numbers in groups of seven bits, lowest first. Every byte but the last has its top bit set,
so that a sequence of them can be cut up again from either end. -/
namespace Lib

/-- The number with the given groups. -/
def ofGroups : List UInt8 → ℕ
  | [] => 0
  | b :: bs => (b &&& 0x7F).toNat + 128 * ofGroups bs

theorem ends_iff {b : UInt8} : b &&& 0x80 = 0 ↔ b.toNat < 128 := by
  have hbit : (b &&& 0x80).toNat = (b.toNat.testBit 7).toNat * 2 ^ 7 := by
    rw [UInt8.toNat_and, ← Nat.and_two_pow]
    rfl
  have hb := b.toNat_lt
  rw [← UInt8.toNat_inj, hbit, Nat.testBit_eq_decide_div_mod_eq]
  by_cases hlt : b.toNat < 128
  · have hdiv : b.toNat / 128 % 2 = 0 := by omega
    simp [hdiv, hlt]
  · have hdiv : b.toNat / 128 % 2 = 1 := by omega
    simp [hdiv, hlt]

theorem toNat_and_0x7F (b : UInt8) : (b &&& 0x7F).toNat = b.toNat % 128 := by
  have hmask := Nat.and_two_pow_sub_one_eq_mod b.toNat 7
  rw [UInt8.toNat_and]
  exact hmask

/-- The single group of a one-byte number is the byte itself. -/
theorem ofGroups_singleton {b : UInt8} (h : b &&& 0x80 = 0) : ofGroups [b] = b.toNat := by
  have hlt := ends_iff.mp h
  rw [ofGroups, ofGroups, toNat_and_0x7F]
  omega

theorem ofGroups_lt (bs : List UInt8) : ofGroups bs < 128 ^ bs.length := by
  induction bs with
  | nil => exact Nat.one_pos
  | cons b bs ih =>
    rw [ofGroups, toNat_and_0x7F, List.length_cons, pow_succ]
    omega

/-- An encoding of a 64-bit number, in at most the ten bytes that such a number can need. -/
structure Varint where
  init : List UInt8
  last : UInt8
  continues : ∀ b ∈ init, b &&& 0x80 ≠ 0
  ends : last &&& 0x80 = 0
  length_lt : init.length < 10
  value_lt : ofGroups (init ++ [last]) < 2 ^ 64

namespace Varint

def bytes (v : Varint) : List UInt8 := v.init ++ [v.last]

def value (v : Varint) : UInt64 := UInt64.ofNat (ofGroups v.bytes)

theorem ofGroups_singleton_lt {b : UInt8} (h : b &&& 0x80 = 0) : ofGroups ([] ++ [b]) < 2 ^ 64 := by
  have hlt := ends_iff.mp h
  rw [List.nil_append, ofGroups_singleton h]
  omega

/-- A number below 128 in one byte. -/
def single (b : UInt8) (h : b &&& 0x80 = 0) : Varint where
  init := []
  last := b
  continues := List.forall_mem_nil _
  ends := h
  length_lt := by rw [List.length_nil]; omega
  value_lt := ofGroups_singleton_lt h

def zero : Varint := single 0 rfl

@[simp] theorem bytes_zero : zero.bytes = [0] := rfl

theorem toNat_value (v : Varint) : v.value.toNat = ofGroups v.bytes := by
  rw [value, UInt64.toNat_ofNat']
  exact Nat.mod_eq_of_lt v.value_lt

theorem length_bytes_pos (v : Varint) : 0 < v.bytes.length := by
  simp [bytes]

theorem bytes_of_init_nil {v : Varint} (h : v.init = []) : v.bytes = [v.last] := by
  rw [bytes, h, List.nil_append]

/-- A number in one byte is that byte. -/
theorem toUInt64_last {v : Varint} (h : v.init = []) : v.last.toUInt64 = v.value := by
  apply UInt64.toNat_inj.mp
  rw [v.toNat_value, bytes_of_init_nil h, ofGroups_singleton v.ends, UInt8.toNat_toUInt64]

/-- The encodings one after the other. -/
def concat (vs : List Varint) : List UInt8 := vs.flatMap bytes

@[simp] theorem concat_nil : concat [] = [] := rfl

@[simp] theorem concat_cons (v : Varint) (vs : List Varint) :
    concat (v :: vs) = v.bytes ++ concat vs := rfl

@[simp] theorem concat_append (vs ws : List Varint) :
    concat (vs ++ ws) = concat vs ++ concat ws := List.flatMap_append

theorem concat_eq_nil {vs : List Varint} : concat vs = [] ↔ vs = [] := by
  cases vs with
  | nil => simp
  | cons v vs =>
    have hpos := v.length_bytes_pos
    simp only [concat_cons, List.append_eq_nil_iff, reduceCtorEq, iff_false]
    rintro ⟨h, -⟩
    simp [h] at hpos

theorem length_le_concat (vs : List Varint) : vs.length ≤ (concat vs).length := by
  induction vs with
  | nil => exact Nat.le_refl 0
  | cons v vs ih =>
    have hpos := v.length_bytes_pos
    rw [concat_cons, List.length_append, List.length_cons]
    omega

/-- The byte before a later encoding ends the encoding it belongs to. -/
theorem concat_last_ends {vs : List Varint} {k : ℕ} (hk : (concat vs).length = k + 1) :
    ∃ b, (concat vs)[k]? = some b ∧ b &&& 0x80 = 0 := by
  rcases List.eq_nil_or_concat' vs with rfl | ⟨vs, v, rfl⟩
  · simp at hk
  · rw [concat_append, concat_cons, concat_nil, List.append_nil, bytes, ← List.append_assoc] at hk ⊢
    rw [List.length_append, List.length_singleton, Nat.add_right_cancel_iff] at hk
    refine ⟨v.last, ?_, v.ends⟩
    rw [← hk, List.getElem?_concat_length]

/-- Inside an encoding, the byte before each position goes on. -/
theorem getElem?_init_continues (v : Varint) (as bs : List UInt8) {k : ℕ}
    (hk : k < v.init.length) :
    ∃ b, (as ++ v.bytes ++ bs)[as.length + k]? = some b ∧ b &&& 0x80 ≠ 0 := by
  refine ⟨v.init[k], ?_, v.continues _ (List.getElem_mem hk)⟩
  rw [bytes, List.append_assoc, List.getElem?_append_right (by omega), Nat.add_sub_cancel_left,
    List.append_assoc, List.getElem?_append_left hk, List.getElem?_eq_getElem hk]

/-! ### Shortest encodings -/

/-- The groups of a number, the last one apart, when at most `k` come before it. -/
def groupsOf : ℕ → ℕ → List UInt8 × UInt8
  | 0, n => ([], UInt8.ofNat n)
  | k + 1, n =>
    if n < 128 then ([], UInt8.ofNat n)
    else (UInt8.ofNat (n % 128 + 128) :: (groupsOf k (n / 128)).1, (groupsOf k (n / 128)).2)

theorem toNat_ofNat_group (n : ℕ) : (UInt8.ofNat (n % 128 + 128)).toNat = n % 128 + 128 := by
  rw [UInt8.toNat_ofNat']
  omega

theorem continues_groupsOf (k n : ℕ) : ∀ b ∈ (groupsOf k n).1, b &&& 0x80 ≠ 0 := by
  induction k generalizing n with
  | zero => exact List.forall_mem_nil _
  | succ k ih =>
    unfold groupsOf
    split_ifs
    · exact List.forall_mem_nil _
    · intro b hb
      rcases List.mem_cons.mp hb with rfl | hb
      · rw [ne_eq, ends_iff, toNat_ofNat_group]
        omega
      · exact ih _ b hb

theorem length_groupsOf_le (k n : ℕ) : (groupsOf k n).1.length ≤ k := by
  induction k generalizing n with
  | zero => exact Nat.le_refl 0
  | succ k ih =>
    unfold groupsOf
    split_ifs
    · exact Nat.zero_le _
    · exact Nat.succ_le_succ (ih _)

theorem ends_groupsOf {k n : ℕ} (h : n < 128 ^ (k + 1)) : (groupsOf k n).2 &&& 0x80 = 0 := by
  have hsmall : ∀ {m : ℕ}, m < 128 → UInt8.ofNat m &&& 0x80 = 0 := fun {m} hm => by
    rw [ends_iff, UInt8.toNat_ofNat']
    omega
  induction k generalizing n with
  | zero => exact hsmall h
  | succ k ih =>
    unfold groupsOf
    split_ifs with hlt
    · exact hsmall hlt
    · exact ih (Nat.div_lt_of_lt_mul (by rwa [pow_succ'] at h))

theorem ofGroups_groupsOf {k n : ℕ} (h : n < 128 ^ (k + 1)) :
    ofGroups ((groupsOf k n).1 ++ [(groupsOf k n).2]) = n := by
  have hsmall : ∀ {m : ℕ}, m < 128 → ofGroups [UInt8.ofNat m] = m := fun {m} hm => by
    have hm' : (UInt8.ofNat m).toNat = m := by
      rw [UInt8.toNat_ofNat']
      omega
    rw [ofGroups_singleton (by rwa [ends_iff, hm']), hm']
  induction k generalizing n with
  | zero => exact hsmall h
  | succ k ih =>
    unfold groupsOf
    split_ifs with hlt
    · exact hsmall hlt
    · have hdiv := Nat.div_lt_of_lt_mul (by rwa [pow_succ'] at h)
      rw [List.cons_append, ofGroups, ih hdiv, toNat_and_0x7F, toNat_ofNat_group]
      omega

/-- A group is put in front of another one only when the number does not fit in it. -/
theorem pow_length_groupsOf_le {k n : ℕ} (h : (groupsOf k n).1 ≠ []) :
    128 ^ (groupsOf k n).1.length ≤ n := by
  induction k generalizing n with
  | zero => exact absurd rfl h
  | succ k ih =>
    unfold groupsOf at h ⊢
    split_ifs at h ⊢ with hlt
    · exact absurd rfl h
    · rw [List.length_cons, pow_succ]
      by_cases hnil : (groupsOf k (n / 128)).1 = []
      · rw [hnil, List.length_nil]
        omega
      · have := ih hnil
        omega

theorem toNat_lt_pow (x : UInt64) : x.toNat < 128 ^ (9 + 1) := x.toNat_lt.trans (by decide)

/-- The encoding of a number without needless groups. -/
def minimal (x : UInt64) : Varint where
  init := (groupsOf 9 x.toNat).1
  last := (groupsOf 9 x.toNat).2
  continues := continues_groupsOf 9 x.toNat
  ends := ends_groupsOf (toNat_lt_pow x)
  length_lt := Nat.lt_succ_of_le (length_groupsOf_le 9 x.toNat)
  value_lt := by
    rw [ofGroups_groupsOf (toNat_lt_pow x)]
    exact x.toNat_lt

@[simp] theorem value_minimal (x : UInt64) : (minimal x).value = x := by
  apply UInt64.toNat_inj.mp
  rw [toNat_value]
  exact ofGroups_groupsOf (toNat_lt_pow x)

/-- No encoding of the same number is shorter. -/
def IsMinimal (v : Varint) : Prop :=
  ∀ w : Varint, w.value = v.value → v.bytes.length ≤ w.bytes.length

theorem isMinimal_minimal (x : UInt64) : (minimal x).IsMinimal := by
  intro w hw
  rw [value_minimal] at hw
  have hlen : (minimal x).bytes.length = (groupsOf 9 x.toNat).1.length + 1 := by
    rw [bytes, List.length_append, List.length_singleton]
    rfl
  rw [hlen, Nat.succ_le_iff]
  by_cases hnil : (groupsOf 9 x.toNat).1 = []
  · rw [hnil]
    exact w.length_bytes_pos
  · have hle := pow_length_groupsOf_le hnil
    have hlt := ofGroups_lt w.bytes
    rw [← toNat_value, hw] at hlt
    exact (Nat.pow_lt_pow_iff_right (by omega)).mp (hle.trans_lt hlt)

/-! ### A decoder -/

/-- The byte count and the value of the groups up to the first byte that does not go on. -/
def readGroups : List UInt8 → Option (ℕ × ℕ)
  | [] => none
  | b :: bs =>
    if b &&& 0x80 = 0 then some (1, b.toNat)
    else (readGroups bs).map fun r => (r.1 + 1, (b &&& 0x7F).toNat + 128 * r.2)

def read (bs : List UInt8) : Option (ℕ × UInt64) :=
  (readGroups bs).map fun r => (r.1, UInt64.ofNat r.2)

theorem readGroups_append {init rest : List UInt8} {last : UInt8}
    (hcont : ∀ b ∈ init, b &&& 0x80 ≠ 0) (hends : last &&& 0x80 = 0) :
    readGroups (init ++ last :: rest) = some (init.length + 1, ofGroups (init ++ [last])) := by
  induction init with
  | nil => simp [readGroups, hends, ofGroups_singleton hends]
  | cons b init ih =>
    have hb : b &&& 0x80 ≠ 0 := hcont b List.mem_cons_self
    have hrest := ih fun c hc => hcont c (List.mem_cons_of_mem b hc)
    rw [List.cons_append, readGroups, if_neg hb, hrest]
    rfl

theorem read_append (v : Varint) (rest : List UInt8) :
    read (v.bytes ++ rest) = some (v.bytes.length, v.value) := by
  rw [read, bytes, List.append_assoc, List.singleton_append,
    readGroups_append v.continues v.ends, List.length_append]
  rfl

end Varint
end Lib

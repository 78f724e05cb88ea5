import Mathlib.Data.Nat.Bits
import Mathlib.Tactic.Ring

/-! Masks on machine words, as arithmetic on their values. -/
namespace Lib

/-- A mask of `k` bits from bit `s` on leaves that field where it is. -/
theorem and_field_mask (x s k : ℕ) : x &&& (2 ^ k - 1) * 2 ^ s = x / 2 ^ s % 2 ^ k * 2 ^ s := by
  rw [← Nat.shiftLeft_eq, ← Nat.shiftRight_eq_div_pow, ← Nat.shiftLeft_eq]
  apply Nat.eq_of_testBit_eq
  intro i
  rw [Nat.testBit_and, Nat.testBit_shiftLeft, Nat.testBit_shiftLeft, Nat.testBit_mod_two_pow,
    Nat.testBit_shiftRight, Nat.testBit_two_pow_sub_one]
  by_cases hi : s ≤ i
  · rw [Nat.add_sub_cancel' hi]
    simp [hi, Bool.and_comm]
  · simp [hi]

/-- Clearing the low `k` bits of a `w`-bit number rounds it down to a multiple of `2 ^ k`. -/
theorem and_high_mask {x w k : ℕ} (hx : x < 2 ^ w) (hk : k ≤ w) :
    x &&& (2 ^ w - 2 ^ k) = x / 2 ^ k * 2 ^ k := by
  have hmask : 2 ^ w - 2 ^ k = (2 ^ (w - k) - 1) * 2 ^ k := by
    rw [Nat.sub_mul, ← pow_add, Nat.sub_add_cancel hk, one_mul]
  have hlt : x / 2 ^ k < 2 ^ (w - k) := by
    rwa [Nat.div_lt_iff_lt_mul (Nat.two_pow_pos k), ← pow_add, Nat.sub_add_cancel hk]
  rw [hmask, and_field_mask, Nat.mod_eq_of_lt hlt]

theorem u32_low_bits (x : UInt32) {m : UInt32} (k : ℕ) (hm : m.toNat = 2 ^ k - 1) :
    (x &&& m).toNat = x.toNat % 2 ^ k := by
  rw [UInt32.toNat_and, hm, Nat.and_two_pow_sub_one_eq_mod]

theorem u32_high_bits (x : UInt32) {m : UInt32} {k : ℕ} (hk : k ≤ 32)
    (hm : m.toNat = 2 ^ 32 - 2 ^ k) : (x &&& m).toNat = x.toNat / 2 ^ k * 2 ^ k := by
  rw [UInt32.toNat_and, hm]
  exact and_high_mask x.toNat_lt hk

theorem u32_low_mask (x : UInt32) : (x &&& 0x7fffffff).toNat = x.toNat % 2 ^ 31 :=
  u32_low_bits x 31 rfl

theorem u32_round_down (x : UInt32) : (x &&& 0xfffffffc).toNat = x.toNat / 4 * 4 :=
  u32_high_bits (k := 2) x (by omega) rfl

theorem u32_high_bit (x : UInt32) : (x &&& 0x80000000).toNat = x.toNat / 2 ^ 31 * 2 ^ 31 :=
  u32_high_bits x (by omega) rfl

theorem u32_toNat_ofNat {n : ℕ} (h : n < 2 ^ 32) : (UInt32.ofNat n).toNat = n := by
  rw [UInt32.toNat_ofNat']
  exact Nat.mod_eq_of_lt h

theorem u64_high_bits (x : UInt64) {m : UInt64} {k : ℕ} (hk : k ≤ 64)
    (hm : m.toNat = 2 ^ 64 - 2 ^ k) : (x &&& m).toNat = x.toNat / 2 ^ k * 2 ^ k := by
  rw [UInt64.toNat_and, hm]
  exact and_high_mask x.toNat_lt hk

theorem u64_toNat_add {a b : UInt64} (h : a.toNat + b.toNat < 2 ^ 64) :
    (a + b).toNat = a.toNat + b.toNat := by
  rw [UInt64.toNat_add, Nat.mod_eq_of_lt h]

theorem u64_toInt_toInt64 (x : UInt64) : x.toInt64.toInt = (x.toNat : ℤ).bmod (2 ^ 64) :=
  BitVec.toInt_eq_toNat_bmod _

/-- A negative number becomes a huge one as an unsigned word. -/
theorem i64_toNat_toUInt64 (x : Int64) : (x.toUInt64.toNat : ℤ) = x.toInt % 2 ^ 64 := by
  have hx : x.toInt = (x.toUInt64.toNat : ℤ).bmod (2 ^ 64) := u64_toInt_toInt64 x.toUInt64
  have hlt : x.toUInt64.toNat < 2 ^ 64 := UInt64.toNat_lt _
  rw [hx, Int.bmod_def]
  split <;> omega

/-- What is checked for the 256 values holds of every byte. -/
theorem u8_forall {p : UInt8 → Bool} (h : (List.range 256).all fun n => p (UInt8.ofNat n))
    (b : UInt8) : p b = true := by
  have hb := List.all_eq_true.mp h b.toNat (List.mem_range.mpr b.toNat_lt)
  rwa [UInt8.ofNat_toNat] at hb

end Lib

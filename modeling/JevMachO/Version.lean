import Mathlib.Data.Nat.Bits
import Mathlib.Data.Nat.Bitwise

/-! The source version of a Mach-O, five numbers in one word. -/
namespace JevMachO

structure SourceVersion where
  version : UInt64
  deriving DecidableEq, Repr

namespace SourceVersion

/-- What the five accessors share. `(2 << bits) - 1` has one bit more than the field. -/
def field (v : SourceVersion) (shift bits : UInt64) : UInt64 :=
  (v.version >>> shift) &&& ((2 <<< bits) - 1)

def a (v : SourceVersion) : UInt32 := (v.field 40 24).toUInt32

def b (v : SourceVersion) : UInt16 := (v.field 30 10).toUInt16

def c (v : SourceVersion) : UInt16 := (v.field 20 10).toUInt16

def d (v : SourceVersion) : UInt16 := (v.field 10 10).toUInt16

def e (v : SourceVersion) : UInt16 := (v.field 0 10).toUInt16

/-- A.B.C.D.E packed as a24.b10.c10.d10.e10. -/
def pack (a b c d e : ℕ) : SourceVersion :=
  ⟨UInt64.ofNat (a * 2 ^ 40 + b * 2 ^ 30 + c * 2 ^ 20 + d * 2 ^ 10 + e)⟩

theorem toNat_field (v : SourceVersion) {shift bits : UInt64} (hs : shift.toNat < 64)
    (hb : bits.toNat < 63) :
    (v.field shift bits).toNat = v.version.toNat / 2 ^ shift.toNat % 2 ^ (bits.toNat + 1) := by
  have hpow : 2 ^ (bits.toNat + 1) < 2 ^ 64 := Nat.pow_lt_pow_right (by omega) (by omega)
  have hshl : (2 <<< bits : UInt64).toNat = 2 ^ (bits.toNat + 1) := by
    rw [UInt64.toNat_shiftLeft, Nat.mod_eq_of_lt (by omega : bits.toNat < 64), Nat.shiftLeft_eq,
      Nat.mod_eq_of_lt] <;> rw [show (2 : UInt64).toNat = 2 from rfl, ← pow_succ']
    exact hpow
  have hmask : ((2 <<< bits) - 1 : UInt64).toNat = 2 ^ (bits.toNat + 1) - 1 := by
    rw [UInt64.toNat_sub_of_le _ _ (UInt64.le_iff_toNat_le.mpr ?_), hshl]
    · rfl
    · rw [hshl]
      exact Nat.one_le_two_pow
  rw [field, UInt64.toNat_and, hmask, Nat.and_two_pow_sub_one_eq_mod, UInt64.toNat_shiftRight,
    Nat.mod_eq_of_lt hs, Nat.shiftRight_eq_div_pow]

/-- Every accessor but `a` reads the low bit of the next field too. -/
theorem fields_pack {a b c d e : ℕ} (ha : a < 2 ^ 24) (hb : b < 2 ^ 10) (hc : c < 2 ^ 10)
    (hd : d < 2 ^ 10) (he : e < 2 ^ 10) :
    (pack a b c d e).a.toNat = a ∧
      (pack a b c d e).b.toNat = b + a % 2 * 2 ^ 10 ∧
      (pack a b c d e).c.toNat = c + b % 2 * 2 ^ 10 ∧
      (pack a b c d e).d.toNat = d + c % 2 * 2 ^ 10 ∧
      (pack a b c d e).e.toNat = e + d % 2 * 2 ^ 10 := by
  have hv : (pack a b c d e).version.toNat =
      a * 2 ^ 40 + b * 2 ^ 30 + c * 2 ^ 20 + d * 2 ^ 10 + e := by
    rw [pack, UInt64.toNat_ofNat']
    exact Nat.mod_eq_of_lt (by omega)
  have h40 : (40 : UInt64).toNat = 40 := rfl
  have h30 : (30 : UInt64).toNat = 30 := rfl
  have h24 : (24 : UInt64).toNat = 24 := rfl
  have h20 : (20 : UInt64).toNat = 20 := rfl
  have h10 : (10 : UInt64).toNat = 10 := rfl
  have h0 : (0 : UInt64).toNat = 0 := rfl
  refine ⟨?_, ?_, ?_, ?_, ?_⟩
  · rw [SourceVersion.a, UInt64.toNat_toUInt32, toNat_field _ (by decide) (by decide), hv, h40, h24]
    omega
  · rw [SourceVersion.b, UInt64.toNat_toUInt16, toNat_field _ (by decide) (by decide), hv, h30, h10]
    omega
  · rw [SourceVersion.c, UInt64.toNat_toUInt16, toNat_field _ (by decide) (by decide), hv, h20, h10]
    omega
  · rw [SourceVersion.d, UInt64.toNat_toUInt16, toNat_field _ (by decide) (by decide), hv, h10]
    omega
  · rw [SourceVersion.e, UInt64.toNat_toUInt16, toNat_field _ (by decide) (by decide), hv, h0, h10]
    omega

/-- The five numbers come back exactly when the four that have a field below them are even. -/
theorem accessors_pack_iff {a b c d e : ℕ} (ha : a < 2 ^ 24) (hb : b < 2 ^ 10) (hc : c < 2 ^ 10)
    (hd : d < 2 ^ 10) (he : e < 2 ^ 10) :
    ((pack a b c d e).a.toNat = a ∧ (pack a b c d e).b.toNat = b ∧
      (pack a b c d e).c.toNat = c ∧ (pack a b c d e).d.toNat = d ∧
      (pack a b c d e).e.toNat = e) ↔ 2 ∣ a ∧ 2 ∣ b ∧ 2 ∣ c ∧ 2 ∣ d := by
  obtain ⟨hra, hrb, hrc, hrd, hre⟩ := fields_pack ha hb hc hd he
  rw [hra, hrb, hrc, hrd, hre]
  omega

theorem accessors_pack_even :
    ((pack 2 4 6 8 9).a.toNat = 2 ∧ (pack 2 4 6 8 9).b.toNat = 4 ∧
      (pack 2 4 6 8 9).c.toNat = 6 ∧ (pack 2 4 6 8 9).d.toNat = 8 ∧
      (pack 2 4 6 8 9).e.toNat = 9) ↔ 2 ∣ 2 ∧ 2 ∣ 4 ∧ 2 ∣ 6 ∧ 2 ∣ 8 :=
  accessors_pack_iff (by decide) (by decide) (by decide) (by decide) (by decide)

/-- Version 1.0.0.0.0 has a second number of 1024. -/
theorem accessors_pack_odd :
    ¬ ∀ a b c d e : ℕ, a < 2 ^ 24 → b < 2 ^ 10 → c < 2 ^ 10 → d < 2 ^ 10 → e < 2 ^ 10 →
      (pack a b c d e).a.toNat = a ∧ (pack a b c d e).b.toNat = b ∧
        (pack a b c d e).c.toNat = c ∧ (pack a b c d e).d.toNat = d ∧
        (pack a b c d e).e.toNat = e := by
  intro h
  obtain ⟨-, hb, -⟩ := h 1 0 0 0 0 (by decide) (by decide) (by decide) (by decide) (by decide)
  revert hb
  decide

end SourceVersion
end JevMachO

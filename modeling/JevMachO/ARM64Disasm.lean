import JevMachO.Lib.Words

/-! The two instructions the call finder knows: branch with link and move wide immediate. -/
namespace JevMachO
open Lib

namespace ARM64Disasm

/-! ### Branch with link -/

def blOpcMask : UInt32 := 0xfc000000

def blOpcMatch : UInt32 := 0x94000000

def isBL (inst : UInt32) : Bool := inst &&& blOpcMask == blOpcMatch

/-- The byte offset: the low 26 bits as a signed number, times four. -/
def decodeBL (inst : UInt32) : Option Int32 :=
  if !isBL inst then none
  else some (((inst &&& ~~~blOpcMask).toInt32 <<< 6) >>> 4)

/-- `*bl_off + pc` is computed as a `uint64_t`, the offset extended with its sign. -/
def isBLTo (inst : UInt32) (pc targetAddr : UInt64) : Bool :=
  match decodeBL inst with
  | some blOff => blOff.toInt64.toUInt64 + pc == targetAddr
  | none => false

theorem isBL_iff (w : UInt32) : isBL w = true ↔ w.toNat / 2 ^ 26 = 37 := by
  rw [isBL, beq_iff_eq, ← UInt32.toNat_inj, u32_high_bits (k := 26) w (by omega) rfl]
  change w.toNat / 2 ^ 26 * 2 ^ 26 = 37 * 2 ^ 26 ↔ _
  omega

/-- Shifting the field to the top of the word and back extends it with its sign. -/
theorem decodeBL_eq {w : UInt32} (hw : isBL w = true) :
    ∃ off, decodeBL w = some off ∧ off.toInt = (4 * (w.toNat % 2 ^ 26) : ℤ).bmod (2 ^ 28) := by
  refine ⟨((w &&& ~~~blOpcMask).toInt32 <<< 6) >>> 4, by simp [decodeBL, hw], ?_⟩
  have hfield : (w &&& ~~~blOpcMask).toBitVec.toNat = w.toNat % 2 ^ 26 := u32_low_bits w 26 rfl
  have hshl : ((w &&& ~~~blOpcMask).toInt32 <<< 6).toBitVec.toInt =
      (64 * (w.toNat % 2 ^ 26) : ℤ).bmod (2 ^ 32) := by
    rw [Int32.toBitVec_shiftLeft, UInt32.toBitVec_toInt32, BitVec.shiftLeft_eq',
      BitVec.toInt_shiftLeft, hfield]
    change (((w.toNat % 2 ^ 26) <<< 6 : ℕ) : ℤ).bmod (2 ^ 32) = _
    rw [Nat.shiftLeft_eq, Nat.mul_comm]
    norm_cast
  have hshr : (((w &&& ~~~blOpcMask).toInt32 <<< 6) >>> 4 : Int32).toInt =
      ((w &&& ~~~blOpcMask).toInt32 <<< 6).toBitVec.toInt / 16 := by
    rw [← Int32.toInt_toBitVec, Int32.toBitVec_shiftRight, BitVec.toInt_sshiftRight',
      Int.shiftRight_eq_div_pow]
    rfl
  rw [hshr, hshl, Int.bmod_def, Int.bmod_def]
  split <;> split <;> omega

/-- `target - pc`, read as a signed number. -/
def branchOffset (pc target : UInt64) : ℤ := (target - pc).toInt64.toInt

/-- The targets a branch at `pc` can name. -/
def InReach (pc target : UInt64) : Prop :=
  4 ∣ branchOffset pc target ∧ -2 ^ 27 ≤ branchOffset pc target ∧ branchOffset pc target < 2 ^ 27

/-- The branch from `pc` to `target`. -/
def blWord (pc target : UInt64) : UInt32 :=
  0x94000000 ||| UInt32.ofNat (branchOffset pc target / 4 % 2 ^ 26).toNat

theorem toNat_blWord (pc target : UInt64) :
    (blWord pc target).toNat = 37 * 2 ^ 26 + (branchOffset pc target / 4 % 2 ^ 26).toNat := by
  have hlt : (branchOffset pc target / 4 % 2 ^ 26).toNat < 2 ^ 26 := by omega
  rw [blWord, UInt32.toNat_or, u32_toNat_ofNat (by omega), Nat.mul_comm,
    Nat.two_pow_add_eq_or_of_lt hlt]
  rfl

theorem isBLTo_iff (w : UInt32) (pc target : UInt64) :
    isBLTo w pc target = true ↔ InReach pc target ∧ w = blWord pc target := by
  rw [← UInt32.toNat_inj, toNat_blWord]
  have hw := w.toNat_lt
  by_cases hbl : isBL w = true
  · obtain ⟨off, hoff, hval⟩ := decodeBL_eq hbl
    have hopc := (isBL_iff w).mp hbl
    have hto : isBLTo w pc target = true ↔ branchOffset pc target = off.toInt := by
      rw [isBLTo, hoff, branchOffset, ← Int32.toInt_toInt64, Int64.toInt_inj]
      dsimp only
      rw [beq_iff_eq]
      constructor
      · rintro rfl
        rw [UInt64.add_sub_cancel]
        rfl
      · intro h
        rw [← h, UInt64.toUInt64_toInt64, UInt64.sub_add_cancel]
    rw [hto, hval, InReach, Int.bmod_def]
    generalize branchOffset pc target = d
    constructor
    · intro hd
      split at hd <;> omega
    · rintro ⟨⟨hdvd, hlow, hhigh⟩, hw⟩
      split <;> omega
  · have hopc := mt (isBL_iff w).mpr hbl
    have hno : isBLTo w pc target = false := by simp [isBLTo, decodeBL, hbl]
    rw [hno]
    refine iff_of_false (by decide) fun ⟨_, hw⟩ => hopc ?_
    omega

/-- Words and targets determine each other. -/
theorem isBLTo_encodes :
    (∀ w pc target, isBLTo w pc target = true ↔ InReach pc target ∧ w = blWord pc target) ∧
      (∀ pc target, InReach pc target → ∃! w, isBLTo w pc target = true) ∧
      ∀ w pc, isBL w = true → ∃! target, isBLTo w pc target = true := by
  refine ⟨isBLTo_iff, ?_, ?_⟩
  · intro pc target hreach
    exact ⟨blWord pc target, (isBLTo_iff ..).mpr ⟨hreach, rfl⟩,
      fun w hw => ((isBLTo_iff ..).mp hw).2⟩
  · intro w pc hbl
    obtain ⟨off, hoff, -⟩ := decodeBL_eq hbl
    refine ⟨off.toInt64.toUInt64 + pc, by simp [isBLTo, hoff], fun target htarget => ?_⟩
    simp only [isBLTo, hoff, beq_iff_eq] at htarget
    exact htarget.symm

theorem isBLTo_encodes_back : ∃! target, isBLTo 0x97ffffff 0x1000 target = true :=
  isBLTo_encodes.2.2 _ _ (by decide)

/-! ### Move wide immediate -/

def movWideImmOpcMask : UInt32 := 0x1f800000

def movWideImmOpcMatch : UInt32 := 0x12800000

def movWideImmIs64Mask : UInt32 := 0x80000000

def movWideImmRegMask : UInt32 := 0x0000001f

def movWideImmHwMask : UInt32 := 0x3

def movWideImmHwShift : UInt32 := 21

def movWideImmImmMask : UInt32 := 0xffff

def movWideImmImmShift : UInt32 := 5

/-- `val` is missing where the code shifts an `int` by its width or more, which the language
leaves open. -/
structure MovImmInfo where
  val : Option UInt64
  reg : UInt8
  is64 : Bool
  deriving DecidableEq, Repr

def isMovWideImm (inst : UInt32) : Bool := inst &&& movWideImmOpcMask == movWideImmOpcMatch

def decodeMovWideImmReg (inst : UInt32) : UInt8 := (inst &&& movWideImmRegMask).toUInt8

def isMovWideImmTo (inst : UInt32) (reg : UInt8) : Bool :=
  isMovWideImm inst && decodeMovWideImmReg inst == reg

/-- `raw_imm << (16 * hw)`: a `uint16_t` is promoted to `int` before the shift, and the `int` is
widened with its sign after it. -/
def shiftedImm (rawImm : UInt16) (hw : UInt8) : Option UInt64 :=
  if 16 * hw.toNat < 32 then
    some (rawImm.toUInt32.toInt32 <<< Int32.ofNat (16 * hw.toNat)).toInt64.toUInt64
  else none

def decodeMovWideImm (inst : UInt32) : Option MovImmInfo :=
  if !isMovWideImm inst then none
  else
    let is64 := inst &&& movWideImmIs64Mask != 0
    let reg := decodeMovWideImmReg inst
    let hw := ((inst >>> movWideImmHwShift) &&& movWideImmHwMask).toUInt8
    let rawImm := ((inst >>> movWideImmImmShift) &&& movWideImmImmMask).toUInt16
    let imm := shiftedImm rawImm hw
    some ⟨imm, reg, is64⟩

/-- For `hw` up to one the shift stays inside the `int`, whose sign then fills the upper half. -/
theorem shiftedImm_eq (rawImm : UInt16) {hw : UInt8} (h : hw.toNat < 2) :
    ∃ v, shiftedImm rawImm hw = some v ∧
      (v.toNat : ℤ) = (rawImm.toNat * 2 ^ (16 * hw.toNat) : ℤ).bmod (2 ^ 32) % 2 ^ 64 := by
  have hcount : ((Int32.ofNat (16 * hw.toNat)).toBitVec.smod 32).toNat = 16 * hw.toNat := by
    rcases (by omega : hw.toNat = 0 ∨ hw.toNat = 1) with h0 | h1
    · rw [h0]
      rfl
    · rw [h1]
      rfl
  have himm : rawImm.toUInt32.toBitVec.toNat = rawImm.toNat := rawImm.toNat_toUInt32
  have hshl : (rawImm.toUInt32.toInt32 <<< Int32.ofNat (16 * hw.toNat)).toInt =
      (rawImm.toNat * 2 ^ (16 * hw.toNat) : ℤ).bmod (2 ^ 32) := by
    rw [← Int32.toInt_toBitVec, Int32.toBitVec_shiftLeft, UInt32.toBitVec_toInt32,
      BitVec.shiftLeft_eq', BitVec.toInt_shiftLeft, hcount, himm, Nat.shiftLeft_eq, Nat.cast_mul,
      Nat.cast_pow, Nat.cast_ofNat]
  exact ⟨_, if_pos (by omega), by rw [i64_toNat_toUInt64, Int32.toInt_toInt64, hshl]⟩

/-- The word of a `MOVZ`, in the 64-bit form or the 32-bit one. -/
def movz (is64 : Bool) (hw imm r : ℕ) : UInt32 :=
  UInt32.ofNat (is64.toNat * 2 ^ 31 + 0b10100101 * 2 ^ 23 + hw * 2 ^ 21 + imm * 2 ^ 5 + r)

section Movz

variable {is64 : Bool} {hw imm r : ℕ} (himm : imm < 2 ^ 16) (hhw : hw < 4) (hr : r < 32)
include himm hhw hr

theorem toNat_movz : (movz is64 hw imm r).toNat =
    is64.toNat * 2 ^ 31 + 0b10100101 * 2 ^ 23 + hw * 2 ^ 21 + imm * 2 ^ 5 + r := by
  have hflag := Bool.toNat_le is64
  exact u32_toNat_ofNat (by omega)

theorem isMovWideImm_movz : isMovWideImm (movz is64 hw imm r) = true := by
  have hflag := Bool.toNat_le is64
  have hmask : movWideImmOpcMask.toNat = (2 ^ 6 - 1) * 2 ^ 23 := rfl
  rw [isMovWideImm, beq_iff_eq, ← UInt32.toNat_inj, UInt32.toNat_and, hmask, and_field_mask,
    toNat_movz himm hhw hr]
  change _ = 37 * 2 ^ 23
  omega

theorem decodeMovWideImmReg_movz : (decodeMovWideImmReg (movz is64 hw imm r)).toNat = r := by
  rw [decodeMovWideImmReg, UInt32.toNat_toUInt8, u32_low_bits _ 5 rfl, toNat_movz himm hhw hr]
  omega

theorem decodeMovWideImm_movz : decodeMovWideImm (movz is64 hw imm r) =
    some ⟨shiftedImm (UInt16.ofNat imm) (UInt8.ofNat hw), UInt8.ofNat r, is64⟩ := by
  have hword : (movz is64 hw imm r).toNat = _ := toNat_movz himm hhw hr
  have hflag := Bool.toNat_le is64
  have h64 : (movz is64 hw imm r &&& movWideImmIs64Mask != 0) = is64 := by
    have hbit : (movz is64 hw imm r &&& movWideImmIs64Mask).toNat = is64.toNat * 2 ^ 31 := by
      rw [movWideImmIs64Mask, u32_high_bit, hword]
      omega
    cases is64 with
    | false => rw [UInt32.toNat_inj.mp (hbit.trans (by rfl : _ = (0 : UInt32).toNat))]; rfl
    | true =>
      rw [UInt32.toNat_inj.mp (hbit.trans (by rfl : _ = (0x80000000 : UInt32).toNat))]
      rfl
  have hfield (s m : UInt32) (k : ℕ) (hm : m.toNat = 2 ^ k - 1) :
      ((movz is64 hw imm r >>> s) &&& m).toNat =
        (movz is64 hw imm r).toNat / 2 ^ (s.toNat % 32) % 2 ^ k := by
    rw [u32_low_bits _ k hm, UInt32.toNat_shiftRight, Nat.shiftRight_eq_div_pow]
  have hsel : ((movz is64 hw imm r >>> movWideImmHwShift) &&& movWideImmHwMask).toUInt8 =
      UInt8.ofNat hw := by
    apply UInt8.toNat_inj.mp
    rw [UInt32.toNat_toUInt8, hfield _ _ 2 rfl, hword, UInt8.toNat_ofNat']
    change _ / 2 ^ 21 % 2 ^ 2 % 2 ^ 8 = _
    omega
  have hraw : ((movz is64 hw imm r >>> movWideImmImmShift) &&& movWideImmImmMask).toUInt16 =
      UInt16.ofNat imm := by
    apply UInt16.toNat_inj.mp
    rw [UInt32.toNat_toUInt16, hfield _ _ 16 rfl, hword, UInt16.toNat_ofNat']
    change _ / 2 ^ 5 % 2 ^ 16 % 2 ^ 16 = _
    omega
  have hreg : decodeMovWideImmReg (movz is64 hw imm r) = UInt8.ofNat r := by
    apply UInt8.toNat_inj.mp
    rw [decodeMovWideImmReg_movz himm hhw hr, UInt8.toNat_ofNat']
    omega
  rw [decodeMovWideImm, isMovWideImm_movz himm hhw hr]
  simp only [Bool.not_true, Bool.false_eq_true, if_false, h64, hreg, hsel, hraw]

end Movz

/-- The immediate comes back exactly when it is not shifted, or is shifted by one half-word and
leaves the sign bit of the `int` alone. -/
theorem decodeMovWideImm_movz_iff {is64 : Bool} {hw imm r : ℕ} (himm : imm < 2 ^ 16)
    (hhw : hw < 4) (hr : r < 32) :
    (decodeMovWideImm (movz is64 hw imm r) =
        some ⟨some (UInt64.ofNat (imm * 2 ^ (16 * hw))), UInt8.ofNat r, is64⟩ ∧
      ∀ q, isMovWideImmTo (movz is64 hw imm r) q = true ↔ q.toNat = r) ↔
      hw = 0 ∨ hw = 1 ∧ imm < 2 ^ 15 := by
  have hto : ∀ q, isMovWideImmTo (movz is64 hw imm r) q = true ↔ q.toNat = r := by
    intro q
    rw [isMovWideImmTo, isMovWideImm_movz himm hhw hr, Bool.true_and, beq_iff_eq,
      ← UInt8.toNat_inj, decodeMovWideImmReg_movz himm hhw hr]
    exact eq_comm
  have hsel : (UInt8.ofNat hw).toNat = hw := by
    rw [UInt8.toNat_ofNat']
    omega
  have hraw : (UInt16.ofNat imm).toNat = imm := by
    rw [UInt16.toNat_ofNat']
    omega
  rw [and_iff_left hto, decodeMovWideImm_movz himm hhw hr]
  simp only [Option.some.injEq, MovImmInfo.mk.injEq, and_true]
  by_cases hshift : hw < 2
  · obtain ⟨v, hv, hval⟩ := shiftedImm_eq (UInt16.ofNat imm) (hsel.trans_lt hshift)
    rw [hv, Option.some.injEq, ← UInt64.toNat_inj, UInt64.toNat_ofNat']
    rw [hsel, hraw, Int.bmod_def] at hval
    rcases (by omega : hw = 0 ∨ hw = 1) with rfl | rfl
    · split at hval <;> omega
    · split at hval <;> omega
  · have hnone : shiftedImm (UInt16.ofNat imm) (UInt8.ofNat hw) = none := if_neg (by omega)
    rw [hnone]
    refine iff_of_false (by simp) ?_
    omega

theorem decodeMovWideImm_movz_csr :
    (decodeMovWideImm (movz true 1 0x4000 0) =
        some ⟨some (UInt64.ofNat (0x4000 * 2 ^ (16 * 1))), UInt8.ofNat 0, true⟩ ∧
      ∀ q, isMovWideImmTo (movz true 1 0x4000 0) q = true ↔ q.toNat = 0) ↔
      1 = 0 ∨ 1 = 1 ∧ 0x4000 < 2 ^ 15 :=
  decodeMovWideImm_movz_iff (by decide) (by decide) (by decide)

/-- `movz x0, #0x8000, lsl #16` decodes to `0xffffffff80000000`. -/
theorem decodeMovWideImm_sign :
    ¬ ∀ (is64 : Bool) (hw imm r : ℕ), imm < 2 ^ 16 → hw < 4 → r < 32 →
      (is64 = false → hw ≤ 1) →
      decodeMovWideImm (movz is64 hw imm r) =
          some ⟨some (UInt64.ofNat (imm * 2 ^ (16 * hw))), UInt8.ofNat r, is64⟩ ∧
        ∀ q, isMovWideImmTo (movz is64 hw imm r) q = true ↔ q.toNat = r := by
  intro h
  obtain ⟨hval, -⟩ := h true 1 0x8000 0 (by decide) (by decide) (by decide) (by decide)
  revert hval
  decide

end ARM64Disasm
end JevMachO

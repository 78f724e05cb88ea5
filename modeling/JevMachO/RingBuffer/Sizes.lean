import JevMachO.Lib.Rounding
import JevMachO.Lib.Words
import JevMachO.RingBuffer.Sequential

/-! The sizes of a ring buffer, from the size of an element and the number of them that is asked
for. The mirror is mapped where the last element ends, which has to be where the pages end. -/
namespace JevMachO
open Lib

def gcd (a b : UInt64) : UInt64 :=
  if b = 0 then a else gcd b (a % b)
termination_by b.toNat
decreasing_by
  rw [UInt64.toNat_mod]
  exact Nat.mod_lt _ (Nat.pos_of_ne_zero fun h => ‹¬b = 0› (UInt64.toNat_inj.mp h))

def lcm (a b : UInt64) : UInt64 :=
  let c := gcd a b
  if c = 0 then 0 else a / c * b

/-- `is_pow2` of a `size_t`: it counts the bits. -/
def isPow2 (num : UInt64) : Bool :=
  (List.range 64).countP (fun i => (1 <<< UInt64.ofNat i) &&& num ≠ 0) == 1

def roundupPow2Mul (num pow2Mul : UInt64) : UInt64 :=
  let mask := pow2Mul - 1
  (num + mask) &&& ~~~mask

namespace RingBuffer

/-- The template parameters that the sizes depend on, and the size of a page. -/
structure Params where
  sizeofT : UInt64
  minNum : UInt64
  pageSz : UInt64
  deriving DecidableEq, Repr

namespace Params
variable (t : Params)

/-- `sizeof(T[MinNum])`. -/
def minBufSzRaw : UInt64 := t.sizeofT * t.minNum

def minBufSz : UInt64 := lcm t.minBufSzRaw 2

def bufSzPhys : UInt64 := roundupPow2Mul t.minBufSz t.pageSz

def staticSizeRaw : UInt64 := t.bufSzPhys / t.sizeofT

def staticSize : UInt64 := t.staticSizeRaw - 1

/-- No computation of a size overflows; the largest number on the way is the one whose low bits
are cut off to round up. -/
def Fits : Prop := Nat.lcm (t.sizeofT.toNat * t.minNum.toNat) 2 + t.pageSz.toNat ≤ 2 ^ 64

end Params

/-- An instantiation of `RingBufferBase` that compiles. -/
structure Instantiation extends Params where
  sizeofT_pos : 0 < sizeofT.toNat
  minNum_pos : 0 < minNum.toNat
  pageSz_pow2 : ∃ e, pageSz.toNat = 2 ^ e
  fits : toParams.Fits
  staticAssert : isPow2 toParams.staticSizeRaw = true

/-- `emplace` for one value after the other. -/
def emplaceAll {α : Type} (g : Geometry) : RingBuffer α → List α → Exec (RingBuffer α)
  | rb, [] => return rb
  | rb, v :: vs => do
    let r ← rb.emplace g v
    emplaceAll g r.1 vs

end RingBuffer

/-! ### The helpers on words -/

theorem toNat_gcd (a b : UInt64) : (gcd a b).toNat = Nat.gcd a.toNat b.toNat := by
  induction a, b using gcd.induct with
  | case1 a =>
    rw [gcd, if_pos rfl]
    exact (Nat.gcd_zero_right _).symm
  | case2 a b hb ih =>
    rw [gcd, if_neg hb, ih, UInt64.toNat_mod, Nat.gcd_comm, ← Nat.gcd_rec, Nat.gcd_comm]

theorem toNat_lcm {a b : UInt64} (h : Nat.lcm a.toNat b.toNat < 2 ^ 64) :
    (lcm a b).toNat = Nat.lcm a.toNat b.toNat := by
  have hgcd := toNat_gcd a b
  have hdiv : a.toNat / Nat.gcd a.toNat b.toNat * b.toNat = Nat.lcm a.toNat b.toNat := by
    rw [Nat.lcm_eq_mul_div, Nat.div_mul_right_comm (Nat.gcd_dvd_left _ _)]
  unfold lcm
  dsimp only
  split_ifs with hzero
  · rw [hzero] at hgcd
    obtain ⟨ha, -⟩ := Nat.gcd_eq_zero_iff.mp hgcd.symm
    rw [ha, Nat.lcm_zero_left]
    rfl
  · rw [UInt64.toNat_mul, UInt64.toNat_div, hgcd, hdiv]
    exact Nat.mod_eq_of_lt h

theorem bit_ne_zero_iff {i : ℕ} (hi : i < 64) (num : UInt64) :
    (1 <<< UInt64.ofNat i) &&& num ≠ 0 ↔ num.toNat.testBit i = true := by
  have hshift : (1 <<< UInt64.ofNat i : UInt64).toNat = 2 ^ i := by
    have hlt : 2 ^ i < 2 ^ 64 := Nat.pow_lt_pow_right (by decide) hi
    rw [UInt64.toNat_shiftLeft, UInt64.toNat_ofNat', Nat.mod_mod_of_dvd _ (by decide),
      Nat.mod_eq_of_lt hi, UInt64.toNat_one, Nat.one_shiftLeft, Nat.mod_eq_of_lt hlt]
  rw [Ne, ← UInt64.toNat_inj, UInt64.toNat_and, hshift, Nat.two_pow_and]
  cases num.toNat.testBit i with
  | true => simp
  | false => simp

theorem isPow2_iff (num : UInt64) : isPow2 num = true ↔ ∃ k, num.toNat = 2 ^ k := by
  rw [isPow2, beq_iff_eq, ← countP_testBit_eq_one num.toNat_lt]
  refine Eq.congr_left (List.countP_congr fun i hi => ?_)
  rw [decide_eq_true_iff]
  exact bit_ne_zero_iff (List.mem_range.mp hi) num

theorem toNat_roundupPow2Mul {num pow2Mul : UInt64} {e : ℕ} (he : pow2Mul.toNat = 2 ^ e)
    (h : num.toNat + pow2Mul.toNat ≤ 2 ^ 64) :
    (roundupPow2Mul num pow2Mul).toNat = roundUp num.toNat (2 ^ e) := by
  have hpos : 0 < 2 ^ e := Nat.two_pow_pos e
  have he64 : e ≤ 64 := (Nat.pow_le_pow_iff_right (by decide)).mp (he ▸ pow2Mul.toNat_lt.le)
  have hmask : (pow2Mul - 1).toNat = 2 ^ e - 1 := by
    rw [UInt64.toNat_sub_of_le _ _ (UInt64.le_iff_toNat_le.mpr (he ▸ hpos)), he]
    rfl
  have hsum : (num + (pow2Mul - 1)).toNat = num.toNat + (2 ^ e - 1) := by
    rw [u64_toNat_add (by omega), hmask]
  have hnot : (~~~(pow2Mul - 1)).toNat = 2 ^ 64 - 2 ^ e := by
    rw [UInt64.toNat_not, hmask]
    change 2 ^ 64 - 1 - (2 ^ e - 1) = _
    omega
  rw [roundupPow2Mul, u64_high_bits _ he64 hnot, hsum, roundUp]

/-! ### What an instantiation gets -/

namespace RingBuffer
namespace Instantiation
variable (t : Instantiation)

/-- The elements that an even number of bytes is enough for. -/
def evenNum : ℕ :=
  if 2 ∣ t.sizeofT.toNat * t.minNum.toNat then t.minNum.toNat else 2 * t.minNum.toNat

theorem evenNum_pos : 0 < t.evenNum := by
  have hpos := t.minNum_pos
  unfold evenNum
  split_ifs <;> omega

theorem lcm_eq_mul_evenNum :
    Nat.lcm (t.sizeofT.toNat * t.minNum.toNat) 2 = t.sizeofT.toNat * t.evenNum := by
  rw [lcm_two, evenNum]
  split_ifs
  · rfl
  · ring

theorem toNat_minBufSz : t.minBufSz.toNat = t.sizeofT.toNat * t.evenNum := by
  have hfits := t.fits
  obtain ⟨e, he⟩ := t.pageSz_pow2
  have hpage := Nat.two_pow_pos e
  have hlcm : Nat.lcm (t.sizeofT.toNat * t.minNum.toNat) 2 < 2 ^ 64 := by
    unfold Params.Fits at hfits
    omega
  have hraw : t.minBufSzRaw.toNat = t.sizeofT.toNat * t.minNum.toNat := by
    have hpos := Nat.mul_pos t.sizeofT_pos t.minNum_pos
    have hle := Nat.le_of_dvd (Nat.lcm_pos hpos (by decide))
      (Nat.dvd_lcm_left (t.sizeofT.toNat * t.minNum.toNat) 2)
    rw [Params.minBufSzRaw, UInt64.toNat_mul]
    exact Nat.mod_eq_of_lt (hle.trans_lt hlcm)
  rw [← lcm_eq_mul_evenNum, ← hraw]
  exact toNat_lcm (by rw [hraw]; exact hlcm)

theorem toNat_bufSzPhys {e : ℕ} (he : t.pageSz.toNat = 2 ^ e) :
    t.bufSzPhys.toNat = roundUp (t.sizeofT.toNat * t.evenNum) (2 ^ e) := by
  have hfits := t.fits
  rw [Params.Fits, lcm_eq_mul_evenNum, ← toNat_minBufSz] at hfits
  rw [Params.bufSzPhys, toNat_roundupPow2Mul he hfits, toNat_minBufSz]

/-- The geometry that the indices of this instantiation are masked with. -/
def geometry : Geometry := ⟨t.staticSizeRaw, (isPow2_iff _).mp t.staticAssert⟩

/-- The mirror starts where the first mapping ends, and as many elements as were asked for go into
an empty buffer. -/
structure Sound : Prop where
  mirror : t.staticSizeRaw.toNat * t.sizeofT.toNat = t.bufSzPhys.toNat
  room : t.minNum.toNat ≤ t.staticSize.toNat
  emplaces : ∀ {α : Type} (mBuf : ℕ → α) (vs : List α), vs.length = t.minNum.toNat →
    ∃ rb, emplaceAll t.geometry (ctor mBuf) vs = .ok rb

/-- The elements that were asked for do not fill their pages, and the pages end with an element:
elements are a power of two long, or the next power of two of them fills whole pages. -/
structure EndsOnPage : Prop where
  spare : ¬(2 ∣ t.sizeofT.toNat * t.minNum.toNat ∧
    t.pageSz.toNat ∣ t.sizeofT.toNat * t.minNum.toNat)
  whole : (∃ a, t.sizeofT.toNat = 2 ^ a) ∨
    t.pageSz.toNat ∣ 2 ^ Nat.clog 2 t.evenNum * t.sizeofT.toNat

theorem mirror_iff : t.staticSizeRaw.toNat * t.sizeofT.toNat = t.bufSzPhys.toNat ↔
    (∃ a, t.sizeofT.toNat = 2 ^ a) ∨
      t.pageSz.toNat ∣ 2 ^ Nat.clog 2 t.evenNum * t.sizeofT.toNat := by
  obtain ⟨e, he⟩ := t.pageSz_pow2
  obtain ⟨k, hk⟩ := (isPow2_iff _).mp t.staticAssert
  have hdiv := hk
  rw [Params.staticSizeRaw, UInt64.toNat_div, t.toNat_bufSzPhys he] at hdiv
  rw [hk, t.toNat_bufSzPhys he, he]
  exact mul_eq_roundUp_iff t.sizeofT_pos t.evenNum_pos hdiv

theorem room_iff (hmirror : t.staticSizeRaw.toNat * t.sizeofT.toNat = t.bufSzPhys.toNat) :
    t.minNum.toNat < t.staticSizeRaw.toNat ↔
      ¬(2 ∣ t.sizeofT.toNat * t.minNum.toNat ∧
        t.pageSz.toNat ∣ t.sizeofT.toNat * t.minNum.toNat) := by
  obtain ⟨e, he⟩ := t.pageSz_pow2
  have hsize : t.sizeofT.toNat * t.minNum.toNat ≤ t.sizeofT.toNat * t.evenNum := by
    refine Nat.mul_le_mul_left _ ?_
    unfold evenNum
    split_ifs <;> omega
  have heven : t.sizeofT.toNat * t.minNum.toNat = t.sizeofT.toNat * t.evenNum ↔
      2 ∣ t.sizeofT.toNat * t.minNum.toNat := by
    rw [Nat.mul_right_inj t.sizeofT_pos.ne', evenNum]
    have hpos := t.minNum_pos
    split_ifs with h
    · exact iff_of_true rfl h
    · exact iff_of_false (by omega) h
  have hfull := roundUp_eq_iff (Nat.two_pow_pos e) hsize
  have hle := le_roundUp (t.sizeofT.toNat * t.evenNum) (Nat.two_pow_pos e)
  rw [heven, ← t.toNat_bufSzPhys he, ← hmirror] at hfull
  rw [← t.toNat_bufSzPhys he, ← hmirror] at hle
  rw [he, ← hfull, ← Nat.mul_lt_mul_right t.sizeofT_pos, mul_comm t.minNum.toNat]
  omega

end Instantiation

variable {α : Type} {g : Geometry} {rb : RingBuffer α} {q : List α} {n : ℕ}

/-- Values go in until one cell is left. -/
theorem Holds.emplaceAll_iff (h : Holds g rb q n) {vs : List α} (hn : n + vs.length < 2 ^ 64) :
    (∃ rb', emplaceAll g rb vs = .ok rb') ↔ q.length + vs.length < g.cellCount := by
  induction vs generalizing rb q n with
  | nil => exact iff_of_true ⟨rb, rfl⟩ h.room
  | cons v vs ih =>
    rw [List.length_cons] at hn ⊢
    have hroom := h.room
    by_cases hlast : q.length = g.cellCount - 1
    · refine iff_of_false ?_ (by omega)
      have hfull : rb.full g = .ok true := by
        rw [h.full_eq, beq_iff_eq.mpr hlast]
      rintro ⟨rb', heq⟩
      simp only [emplaceAll, RingBuffer.emplace, hfull, ok_bind, Bool.not_true] at heq
      cases heq
    · have hfull : rb.full g = .ok false := by
        rw [h.full_eq, beq_eq_false_iff_ne.mpr hlast]
      obtain ⟨rb', heq, h'⟩ := h.emplace hfull (by omega) v
      have hrest := ih h' (by omega)
      rw [List.length_append, List.length_singleton] at hrest
      simp only [emplaceAll, heq, ok_bind]
      rw [hrest]
      omega

namespace Instantiation

/-- An instantiation that compiles is as it should be exactly when its elements end where a page
does and leave room there. -/
theorem sound_iff (t : Instantiation) : t.Sound ↔ t.EndsOnPage := by
  have hstatic : t.staticSize.toNat = t.staticSizeRaw.toNat - 1 := t.geometry.toNat_staticSize
  have hpos : 0 < t.staticSizeRaw.toNat := t.geometry.cellCount_pos
  constructor
  · intro h
    have hroom := h.room
    exact ⟨(t.room_iff h.mirror).mp (by omega), t.mirror_iff.mp h.mirror⟩
  · intro h
    have hmirror := t.mirror_iff.mpr h.whole
    have hroom := (t.room_iff hmirror).mpr h.spare
    refine ⟨hmirror, by omega, fun mBuf vs hlen => ?_⟩
    have hlt := t.minNum.toNat_lt
    rw [(holds_ctor mBuf).emplaceAll_iff (by omega), List.length_nil]
    change _ < t.staticSizeRaw.toNat
    omega

/-! ### A page of words -/

/-- A page for 1000 words, which do not fill it. -/
def roomyPage : Params := ⟨4, 1000, 4096⟩

theorem roomyPage_fits : roomyPage.Fits := by
  unfold Params.Fits
  decide

theorem staticSizeRaw_roomyPage : roomyPage.staticSizeRaw = 1024 := by
  have hgcd : gcd roomyPage.minBufSzRaw 2 = 2 := by
    rw [gcd, if_neg (by decide), gcd, if_pos (by decide)]
  rw [Params.staticSizeRaw, Params.bufSzPhys, Params.minBufSz, lcm, hgcd]
  decide

def aRoomyPage : Instantiation :=
  ⟨roomyPage, by decide, by decide, ⟨12, rfl⟩, roomyPage_fits, by
    rw [staticSizeRaw_roomyPage]
    decide⟩

theorem sound_aRoomyPage : aRoomyPage.Sound :=
  (sound_iff aRoomyPage).mpr ⟨by decide, .inl ⟨2, rfl⟩⟩

def wordPage : Params := ⟨4, 1024, 4096⟩

theorem wordPage_fits : wordPage.Fits := by
  unfold Params.Fits
  decide

theorem wordPage_pow2 : ∃ e, wordPage.pageSz.toNat = 2 ^ e := ⟨12, rfl⟩

theorem staticSizeRaw_wordPage : wordPage.staticSizeRaw = 1024 := by
  have hgcd : gcd wordPage.minBufSzRaw 2 = 2 := by
    rw [gcd, if_neg (by decide), gcd, if_pos (by decide)]
  rw [Params.staticSizeRaw, Params.bufSzPhys, Params.minBufSz, lcm, hgcd]
  decide

theorem wordPage_staticAssert : isPow2 wordPage.staticSizeRaw = true := by
  rw [staticSizeRaw_wordPage]
  decide

/-- 1024 words fill a page, and only 1023 of them can be in the buffer at once. -/
theorem not_sound_wordPage : ¬ ∀ t : Instantiation, t.Sound := by
  intro h
  have hroom := (h ⟨wordPage, by decide, by decide, wordPage_pow2, wordPage_fits,
    wordPage_staticAssert⟩).room
  rw [Params.staticSize, staticSizeRaw_wordPage] at hroom
  exact absurd hroom (by decide)

end Instantiation
end RingBuffer
end JevMachO

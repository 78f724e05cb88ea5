import JevMachO.Lib.Ring
import JevMachO.Lib.Words
import Mathlib.Data.Nat.Bitwise

/-! Raw indices of the ring buffer. They are 64-bit counters that only grow; the mask keeps them
inside the doubly mapped buffer, and the mirror maps both halves to the same cells. -/
namespace JevMachO
open Lib

/-- The constants of one instantiation: `static_size_raw` is asserted to be a power of two. -/
structure Geometry where
  staticSizeRaw : UInt64
  isPow2 : ∃ k, staticSizeRaw.toNat = 2 ^ k

namespace Geometry
variable (g : Geometry)

def staticSize : UInt64 := g.staticSizeRaw - 1

def idxMask : UInt64 := g.staticSizeRaw * 2 - 1

/-- The number of cells, `static_size_raw`. -/
def cellCount : ℕ := g.staticSizeRaw.toNat

/-- The cell `m_buf[idx_raw & idx_mask]` is in: slots `i` and `i + static_size_raw` of the
mapping are one cell. -/
def slot (idxRaw : UInt64) : ℕ := (idxRaw &&& g.idxMask).toNat % g.cellCount

/-- The read index at which the buffer is full. -/
def rdFullVal (wrRaw : UInt64) : UInt64 := wrRaw - g.staticSizeRaw + 1

theorem exponent_lt {k : ℕ} (hk : g.staticSizeRaw.toNat = 2 ^ k) : k < 64 := by
  have hlt := g.staticSizeRaw.toNat_lt
  by_contra h
  have := Nat.pow_le_pow_right (show 0 < 2 by decide) (not_lt.mp h)
  omega

theorem cellCount_pos : 0 < g.cellCount := by
  obtain ⟨k, hk⟩ := g.isPow2
  unfold cellCount
  rw [hk]
  exact Nat.two_pow_pos k

theorem toNat_staticSize : g.staticSize.toNat = g.cellCount - 1 := by
  have hpos := g.cellCount_pos
  unfold cellCount at hpos
  have hle : (1 : UInt64) ≤ g.staticSizeRaw := UInt64.le_iff_toNat_le.mpr hpos
  unfold staticSize
  rw [UInt64.toNat_sub_of_le _ _ hle]
  rfl

/-- Also at `static_size_raw = 2^63`, where doubling wraps to zero. -/
theorem toNat_idxMask : g.idxMask.toNat = 2 * g.cellCount - 1 := by
  obtain ⟨k, hk⟩ := g.isPow2
  have hk64 := g.exponent_lt hk
  have hdvd : k ≤ 62 ∨ k = 63 := by omega
  have hpos := Nat.two_pow_pos k
  unfold idxMask
  rw [UInt64.toNat_sub, UInt64.toNat_mul, cellCount, hk]
  change (2 ^ 64 - 1 + 2 ^ k * 2 % 2 ^ 64) % 2 ^ 64 = 2 * 2 ^ k - 1
  rcases hdvd with hle | rfl
  · have := Nat.pow_le_pow_right (show 0 < 2 by decide) hle
    omega
  · decide

/-- A masked index counts through the buffer and its mirror. -/
theorem toNat_and_idxMask (i : UInt64) :
    (i &&& g.idxMask).toNat = i.toNat % (2 * g.cellCount) := by
  obtain ⟨k, hk⟩ := g.isPow2
  rw [UInt64.toNat_and, toNat_idxMask, cellCount, hk,
    show 2 * 2 ^ k = 2 ^ (k + 1) by rw [pow_succ, mul_comm], Nat.and_two_pow_sub_one_eq_mod]

theorem slot_eq (i : UInt64) : g.slot i = i.toNat % g.cellCount := by
  unfold slot
  rw [toNat_and_idxMask, Nat.mod_mod_of_dvd]
  exact Nat.dvd_mul_left _ _

/-- The raw index wraps where the masked one does. -/
theorem two_mul_cellCount_dvd : 2 * g.cellCount ∣ 2 ^ 64 := by
  obtain ⟨k, hk⟩ := g.isPow2
  have hk64 := g.exponent_lt hk
  rw [cellCount, hk, mul_comm, ← pow_succ]
  exact Nat.pow_dvd_pow 2 hk64

/-- Two indices in order are `static_size` apart exactly when the read index is the one the
buffer is full at, however the subtraction wraps. -/
theorem eq_rdFullVal_iff {rd wr : UInt64} (hle : rd.toNat ≤ wr.toNat)
    (hlt : wr.toNat - rd.toNat < g.cellCount) :
    rd = g.rdFullVal wr ↔ wr.toNat - rd.toNat = g.cellCount - 1 := by
  have hn := g.staticSizeRaw.toNat_lt
  have hw := wr.toNat_lt
  have hpos := g.cellCount_pos
  rw [← UInt64.toNat_inj, rdFullVal, UInt64.toNat_add, UInt64.toNat_sub, UInt64.toNat_one]
  unfold cellCount at hlt hpos ⊢
  omega

/-- A load that does not find the buffer full leaves room for one more element. -/
theorem room_of_ne_rdFullVal {rd wr : UInt64} (hle : rd.toNat ≤ wr.toNat)
    (hroom : wr.toNat < rd.toNat + g.cellCount) (hfull : rd ≠ g.rdFullVal wr) :
    wr.toNat + 1 < rd.toNat + g.cellCount := by
  have hiff := g.eq_rdFullVal_iff hle (by omega)
  have hne := mt hiff.mpr hfull
  omega

/-- Counters and not indices: how often each index was incremented, however often it wrapped. -/
theorem room_of_count {r w : ℕ} (hle : r ≤ w) (hroom : w < r + g.cellCount)
    (hfull : UInt64.ofNat r ≠ g.rdFullVal (UInt64.ofNat w)) : w + 1 < r + g.cellCount := by
  have hn := g.staticSizeRaw.toNat_lt
  rw [Ne, ← UInt64.toNat_inj, rdFullVal, UInt64.toNat_add, UInt64.toNat_sub, UInt64.toNat_one,
    UInt64.toNat_ofNat', UInt64.toNat_ofNat'] at hfull
  unfold cellCount at hroom ⊢
  omega

theorem slot_ofNat (k : ℕ) : g.slot (UInt64.ofNat k) = k % g.cellCount := by
  rw [slot_eq, UInt64.toNat_ofNat', Nat.mod_mod_of_dvd]
  exact (Nat.dvd_mul_left _ _).trans g.two_mul_cellCount_dvd

theorem add_one_lt {i j : UInt64} (h : i.toNat < j.toNat) : i.toNat + 1 < 2 ^ 64 :=
  Nat.lt_of_le_of_lt h j.toNat_lt

theorem toNat_add_one {i : UInt64} (h : i.toNat + 1 < 2 ^ 64) : (i + 1).toNat = i.toNat + 1 :=
  u64_toNat_add h

/-- Below the end of the mirror the raw index steps with the masked one and does not wrap. -/
theorem step_in_mirror {i : UInt64} (h : (i &&& g.idxMask).toNat + 1 < 2 * g.cellCount) :
    (i + 1).toNat = i.toNat + 1 ∧ ((i + 1) &&& g.idxMask).toNat = (i &&& g.idxMask).toNat + 1 := by
  rw [toNat_and_idxMask] at h ⊢
  obtain ⟨c, hc⟩ := g.two_mul_cellCount_dvd
  have hdiv := Nat.div_add_mod i.toNat (2 * g.cellCount)
  have hlt : i.toNat / (2 * g.cellCount) < c :=
    Nat.div_lt_of_lt_mul (by rw [← hc]; exact i.toNat_lt)
  have hle := Nat.mul_le_mul_left (2 * g.cellCount) (Nat.succ_le_of_lt hlt)
  rw [Nat.mul_succ, ← hc] at hle
  have hto := toNat_add_one (i := i) (by omega)
  refine ⟨hto, ?_⟩
  rw [toNat_and_idxMask, hto, ← hdiv, Nat.add_assoc, Nat.mul_add_mod, Nat.mod_eq_of_lt h,
    Nat.mul_add_mod, Nat.mod_mod]

/-- An index that was loaded before the counter moved on is behind it. -/
theorem stale {r i : UInt64} (hadd : i.toNat + 1 < 2 ^ 64) (h : r.toNat ≤ i.toNat) :
    r.toNat ≤ (i + 1).toNat ∧ r ≠ i + 1 := by
  have hto := toNat_add_one hadd
  refine ⟨by omega, ?_⟩
  rintro rfl
  omega

end Geometry
end JevMachO

import JevMachO.Common
import JevMachO.Lib.Words

/-! Cache maintenance for code that was just written. The range is given by its first byte and a
signed size; the loop moves the first byte down to the start of its line and counts the size down
until nothing is left. -/
namespace JevMachO
open Lib

namespace M1N1

/-- The instructions of the `asm` blocks. -/
inductive CacheOp where
  | icIvau (addr : UInt64)
  | dcCvau (addr : UInt64)
  | dsbSy
  | isbSy
  deriving DecidableEq, Repr

def cacheLine : UInt64 := (1 : UInt64) <<< 6

/-- The loop, with a bound on its rounds. -/
def flushLoop : ℕ → (alignedAddr : UInt64) → (size : Int64) → Exec (List CacheOp)
  | 0, _, _ => .error .endless
  | n + 1, alignedAddr, size => do
    if 0 < size then
      let ops ← flushLoop n (alignedAddr + cacheLine) (size - 64)
      return .icIvau alignedAddr :: .dcCvau alignedAddr :: ops
    else return []

/-- `flush_i_and_d_cache` on arm64. -/
def flushIAndDCache (n : ℕ) (addr : UInt64) (size : Int64) : Exec (List CacheOp) := do
  let alignedAddr := addr &&& ~~~(cacheLine - 1)
  let size := (size.toUInt64 + (addr - alignedAddr)).toInt64
  let ops ← flushLoop n alignedAddr size
  return ops ++ [.dsbSy, .isbSy]

structure LineOf (a n l : ℕ) : Prop where
  aligned : 64 ∣ l
  meets : ∃ b, (l ≤ b ∧ b < l + 64) ∧ a ≤ b ∧ b < a + n

def flushLine (l : UInt64) : List CacheOp := [.icIvau l, .dcCvau l]

/-! ### The lines -/

variable {addr : UInt64} {size : Int64} {a n l k : ℕ}

theorem mem_lines_iff (hn : 0 < n) :
    l ∈ List.range' (a / 64 * 64) ((n + a % 64 + 63) / 64) 64 ↔ LineOf a n l := by
  rw [List.mem_range']
  constructor
  · rintro ⟨i, hi, rfl⟩
    refine ⟨Nat.dvd_add (Nat.dvd_mul_left 64 _) (Nat.dvd_mul_right 64 i), ?_⟩
    refine ⟨max a (a / 64 * 64 + 64 * i), ?_, ?_⟩ <;> omega
  · rintro ⟨⟨i, rfl⟩, b, hl, ha⟩
    exact ⟨i - a / 64, by omega, by omega⟩

theorem toNat_alignedAddr (addr : UInt64) :
    (addr &&& ~~~(cacheLine - 1)).toNat = addr.toNat / 64 * 64 := by
  have hmask : (~~~(cacheLine - 1)).toNat = 2 ^ 64 - 2 ^ 6 := by decide
  exact u64_high_bits addr (by decide) hmask

theorem toInt_grownSize (addr : UInt64) (hpos : 0 < size.toInt) (hlt : size.toInt < 2 ^ 62) :
    (size.toUInt64 + (addr - (addr &&& ~~~(cacheLine - 1)))).toInt64.toInt =
      size.toInt + (addr.toNat % 64 : ℕ) := by
  have haligned := toNat_alignedAddr addr
  have hsize := i64_toNat_toUInt64 size
  have hoff : (addr - (addr &&& ~~~(cacheLine - 1))).toNat = addr.toNat % 64 := by
    rw [UInt64.toNat_sub_of_le _ _ (UInt64.le_iff_toNat_le.mpr (by omega)), haligned]
    omega
  rw [u64_toInt_toInt64, UInt64.toNat_add, hoff, Int.bmod_def]
  omega

theorem toInt_countDown (hpos : 0 < size.toInt) : (size - 64).toInt = size.toInt - 64 := by
  have hlt := size.toInt_lt
  rw [Int64.toInt_sub]
  change (size.toInt - 64).bmod (2 ^ 64) = _
  rw [Int.bmod_def]
  omega

theorem flushLoop_eq (hle : size.toInt ≤ 64 * k) (hgt : 64 * k < size.toInt + 64) {fuel : ℕ}
    (hfuel : k < fuel) : flushLoop fuel (UInt64.ofNat l) size =
      .ok ((List.range' l k 64).flatMap fun l => flushLine (UInt64.ofNat l)) := by
  induction k generalizing l size fuel with
  | zero =>
    obtain ⟨fuel, rfl⟩ := Nat.exists_eq_add_of_lt hfuel
    have hdone : ¬0 < size := by
      rw [Int64.lt_iff_toInt_lt, not_lt]
      simpa using hle
    rw [Nat.zero_add, flushLoop, if_neg hdone]
    rfl
  | succ k ih =>
    obtain ⟨fuel, rfl⟩ := Nat.exists_eq_add_of_lt (Nat.zero_lt_of_lt hfuel)
    have hpos : 0 < size.toInt := by omega
    have hgoes : 0 < size := by
      rw [Int64.lt_iff_toInt_lt]
      exact hpos
    have hnext : UInt64.ofNat l + cacheLine = UInt64.ofNat (l + 64) := by
      rw [UInt64.ofNat_add]
      rfl
    have hrest : flushLoop fuel (UInt64.ofNat (l + 64)) (size - 64) =
        .ok ((List.range' (l + 64) k 64).flatMap fun l => flushLine (UInt64.ofNat l)) := by
      apply ih
      · rw [toInt_countDown hpos]
        omega
      · rw [toInt_countDown hpos]
        omega
      · omega
    rw [Nat.zero_add, flushLoop, if_pos hgoes, hnext, hrest,
      List.range'_succ, List.flatMap_cons]
    rfl

/-- The instructions are issued for each line with a byte of the range in it, once and in ascending
order, and the loop ends. -/
theorem flushIAndDCache_lines (hpos : 0 < size.toInt) (hlt : size.toInt < 2 ^ 62)
    (hfit : addr.toNat + size.toInt ≤ 2 ^ 64) :
    ∃ lines : List UInt64, lines.Pairwise (· < ·) ∧
      (∀ l, l ∈ lines ↔ LineOf addr.toNat size.toInt.toNat l.toNat) ∧
      ∀ fuel > lines.length, flushIAndDCache fuel addr size =
        .ok (lines.flatMap flushLine ++ [.dsbSy, .isbSy]) := by
  obtain ⟨n, hn⟩ := Int.eq_ofNat_of_zero_le hpos.le
  have hsize := toInt_grownSize addr hpos hlt
  rw [hn] at hpos hlt hfit hsize ⊢
  have hn0 : 0 < n := by omega
  have hmem := fun l => mem_lines_iff (a := addr.toNat) (l := l) hn0
  generalize hk : (n + addr.toNat % 64 + 63) / 64 = k at hmem
  have hbound : ∀ l ∈ List.range' (addr.toNat / 64 * 64) k 64, l < 2 ^ 64 := by
    intro l hl
    obtain ⟨-, b, hb, ha⟩ := (hmem l).mp hl
    omega
  refine ⟨(List.range' (addr.toNat / 64 * 64) k 64).map UInt64.ofNat, ?_, ?_, ?_⟩
  · rw [List.pairwise_map]
    refine (List.pairwise_lt_range' 64 (by decide)).imp_of_mem fun hx hy hxy => ?_
    rw [UInt64.lt_iff_toNat_lt, UInt64.toNat_ofNat_of_lt' (hbound _ hx),
      UInt64.toNat_ofNat_of_lt' (hbound _ hy)]
    exact hxy
  · intro l
    rw [Int.toNat_natCast, ← hmem, List.mem_map]
    constructor
    · rintro ⟨x, hx, rfl⟩
      rwa [UInt64.toNat_ofNat_of_lt' (hbound x hx)]
    · exact fun hl => ⟨l.toNat, hl, UInt64.ofNat_toNat⟩
  · intro fuel hfuel
    rw [List.length_map, List.length_range'] at hfuel
    have hloop := flushLoop_eq (l := addr.toNat / 64 * 64) (by rw [hsize]; omega)
      (by rw [hsize]; omega) hfuel
    have hfirst : addr &&& ~~~(cacheLine - 1) = UInt64.ofNat (addr.toNat / 64 * 64) := by
      rw [← toNat_alignedAddr, UInt64.ofNat_toNat]
    rw [← hfirst] at hloop
    rw [flushIAndDCache, hloop, List.flatMap_map]
    rfl

theorem flushIAndDCache_lines_two : ∃ lines : List UInt64, lines.Pairwise (· < ·) ∧
    (∀ l, l ∈ lines ↔ LineOf (UInt64.toNat 125) (Int64.toInt 6).toNat l.toNat) ∧
    ∀ fuel > lines.length, flushIAndDCache fuel 125 6 =
      .ok (lines.flatMap flushLine ++ [.dsbSy, .isbSy]) :=
  flushIAndDCache_lines (by decide) (by decide) (by decide)

end M1N1
end JevMachO

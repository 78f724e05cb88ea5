import Mathlib.Algebra.Order.Ring.Nat
import Mathlib.Data.List.Range
import Mathlib.Data.Nat.Bitwise
import Mathlib.Data.Nat.Log
import Mathlib.Data.Nat.Prime.Basic
import Mathlib.Tactic.Ring

/-! Rounding up to a multiple, and numbers that are a power of two. An allocation of whole pages
for `m` elements may hold more of them, and need not end where an element does. -/
namespace Lib

/-- The least multiple of `p` from `m` on. -/
def roundUp (m p : ℕ) : ℕ := (m + (p - 1)) / p * p

variable {m n p s x : ℕ}

theorem dvd_roundUp (m p : ℕ) : p ∣ roundUp m p := Nat.dvd_mul_left _ _

theorem le_roundUp (m : ℕ) (hp : 0 < p) : m ≤ roundUp m p := by
  have hdiv := Nat.div_add_mod' (m + (p - 1)) p
  have hmod := Nat.mod_lt (m + (p - 1)) hp
  unfold roundUp
  omega

theorem roundUp_lt (m : ℕ) (hp : 0 < p) : roundUp m p < m + p := by
  have hle := Nat.div_mul_le_self (m + (p - 1)) p
  unfold roundUp
  omega

theorem roundUp_le (hp : 0 < p) (hdvd : p ∣ x) (hle : m ≤ x) : roundUp m p ≤ x := by
  obtain ⟨c, rfl⟩ := hdvd
  have hlt : (m + (p - 1)) / p < c + 1 := by
    refine Nat.div_lt_of_lt_mul ?_
    rw [Nat.mul_succ]
    omega
  rw [mul_comm p c]
  exact Nat.mul_le_mul_right p (Nat.le_of_lt_succ hlt)

theorem roundUp_eq_iff (hp : 0 < p) (hle : n ≤ m) : roundUp m p = n ↔ n = m ∧ p ∣ n := by
  constructor
  · rintro rfl
    exact ⟨Nat.le_antisymm hle (le_roundUp m hp), dvd_roundUp m p⟩
  · rintro ⟨rfl, hdvd⟩
    exact Nat.le_antisymm (roundUp_le hp hdvd hle) (le_roundUp n hp)

theorem lcm_two (x : ℕ) : Nat.lcm x 2 = if 2 ∣ x then x else 2 * x := by
  split_ifs with h
  · exact Nat.lcm_eq_left h
  · rw [Nat.lcm_comm, Nat.lcm_eq_mul_iff]
    exact .inr (.inr (Nat.prime_two.coprime_iff_not_dvd.mpr h))

/-! ### Whole elements in whole pages -/

section elements
variable {k e : ℕ}

theorem roundUp_of_le (hm : 0 < m) (hle : m ≤ p) : roundUp m p = p := by
  have hp : 0 < p := hm.trans_le hle
  have hpos : 0 < roundUp m p := hm.trans_le (le_roundUp m hp)
  exact Nat.le_antisymm (roundUp_le hp dvd_rfl hle) (Nat.le_of_dvd hpos (dvd_roundUp m p))

/-- More than twice what is needed fits only if the pages are a single one, and then an element
is a part of it. -/
theorem pow_two_of_spare (hs : 0 < s) (hm : 0 < m) (hlt : Nat.clog 2 m < k)
    (heq : 2 ^ k * s = roundUp (s * m) (2 ^ e)) : ∃ a, s = 2 ^ a := by
  have hdouble : 2 * 2 ^ Nat.clog 2 m ≤ 2 ^ k := by
    rw [mul_comm, ← pow_succ]
    exact Nat.pow_le_pow_right (by decide) hlt
  have htwice : 2 * (s * m) ≤ 2 ^ k * s :=
    calc 2 * (s * m) ≤ 2 * (s * 2 ^ Nat.clog 2 m) :=
          Nat.mul_le_mul_left 2 (Nat.mul_le_mul_left s (Nat.le_pow_clog (by decide) m))
      _ = 2 * 2 ^ Nat.clog 2 m * s := by ring
      _ ≤ 2 ^ k * s := Nat.mul_le_mul_right s hdouble
  have hover := roundUp_lt (s * m) (Nat.two_pow_pos e)
  have hpage : roundUp (s * m) (2 ^ e) = 2 ^ e := roundUp_of_le (Nat.mul_pos hs hm) (by omega)
  have hdvd : s ∣ 2 ^ e := ⟨2 ^ k, by rw [← hpage, ← heq, mul_comm]⟩
  obtain ⟨a, -, ha⟩ := (Nat.dvd_prime_pow Nat.prime_two).mp hdvd
  exact ⟨a, ha⟩

/-- Elements of a power of two of bytes fill the pages, whichever of the two are longer. -/
theorem pow_two_dvd_roundUp (a m e : ℕ) : 2 ^ a ∣ roundUp (2 ^ a * m) (2 ^ e) := by
  rcases le_total a e with hae | hea
  · exact (Nat.pow_dvd_pow 2 hae).trans (dvd_roundUp _ _)
  · have hdvd : 2 ^ e ∣ 2 ^ a * m := (Nat.pow_dvd_pow 2 hea).trans (Nat.dvd_mul_right _ _)
    rw [(roundUp_eq_iff (Nat.two_pow_pos e) le_rfl).mpr ⟨rfl, hdvd⟩]
    exact Nat.dvd_mul_right _ _

/-- When the elements that fit are a power of two, the pages end with an element exactly if the
elements are a power of two long too, or the least power of two of them that is enough fills
whole pages. -/
theorem mul_eq_roundUp_iff (hs : 0 < s) (hm : 0 < m)
    (hk : roundUp (s * m) (2 ^ e) / s = 2 ^ k) :
    2 ^ k * s = roundUp (s * m) (2 ^ e) ↔
      (∃ a, s = 2 ^ a) ∨ 2 ^ e ∣ 2 ^ Nat.clog 2 m * s := by
  have hp : 0 < 2 ^ e := Nat.two_pow_pos e
  have hmk : m ≤ 2 ^ k := by
    rw [← hk, Nat.le_div_iff_mul_le hs, mul_comm]
    exact le_roundUp _ hp
  have hclog : Nat.clog 2 m ≤ k := Nat.clog_le_of_le_pow hmk
  constructor
  · intro heq
    rcases hclog.lt_or_eq with hlt | rfl
    · exact .inl (pow_two_of_spare hs hm hlt heq)
    · exact .inr (heq ▸ dvd_roundUp _ _)
  · rintro (⟨a, rfl⟩ | hdvd)
    · rw [← hk]
      exact Nat.div_mul_cancel (pow_two_dvd_roundUp a m e)
    · have hle : 2 ^ k * s ≤ roundUp (s * m) (2 ^ e) := by
        rw [← hk]
        exact Nat.div_mul_le_self _ _
      have hup : roundUp (s * m) (2 ^ e) ≤ 2 ^ Nat.clog 2 m * s := by
        refine roundUp_le hp hdvd ?_
        rw [mul_comm s m]
        exact Nat.mul_le_mul_right s (Nat.le_pow_clog (by decide) m)
      have hpow : 2 ^ Nat.clog 2 m * s ≤ 2 ^ k * s :=
        Nat.mul_le_mul_right s (Nat.pow_le_pow_right (by decide) hclog)
      exact Nat.le_antisymm hle (hup.trans hpow)

end elements

/-! ### One bit -/

/-- A number has one bit exactly if it is a power of two. -/
theorem countP_testBit_eq_one {w : ℕ} (hx : x < 2 ^ w) :
    (List.range w).countP (fun i => x.testBit i) = 1 ↔ ∃ k, x = 2 ^ k := by
  rw [List.countP_eq_length_filter]
  constructor
  · intro h
    obtain ⟨k, hk⟩ := List.length_eq_one_iff.mp h
    refine ⟨k, Nat.eq_of_testBit_eq fun i => ?_⟩
    have hi : i ∈ (List.range w).filter (fun i => x.testBit i) ↔ i = k := by
      rw [hk, List.mem_singleton]
    rw [List.mem_filter, List.mem_range] at hi
    have hlow : x.testBit i = true → i < w := by
      intro hbit
      by_contra hge
      rw [Nat.testBit_lt_two_pow (hx.trans_le (Nat.pow_le_pow_right (by decide) (not_lt.mp hge)))]
        at hbit
      cases hbit
    rw [Nat.testBit_two_pow, Bool.eq_iff_iff, decide_eq_true_iff]
    constructor
    · exact fun hbit => (hi.mp ⟨hlow hbit, hbit⟩).symm
    · exact fun hki => (hi.mpr hki.symm).2
  · rintro ⟨k, rfl⟩
    have hk : k < w := (Nat.pow_lt_pow_iff_right (by decide)).mp hx
    have hcount : (List.range w).countP (fun i => (2 ^ k).testBit i) = (List.range w).count k := by
      refine List.countP_congr fun i _ => ?_
      rw [Nat.testBit_two_pow, decide_eq_true_iff, beq_iff_eq]
      exact eq_comm
    rw [← List.countP_eq_length_filter, hcount]
    exact List.nodup_range.count.trans (if_pos (List.mem_range.mpr hk))

end Lib

import Mathlib.Data.List.Induction
import Mathlib.Data.Nat.Digits.Defs

/-! Digit strings over an alphabet, the most significant digit first. The base is the number of
digits in the alphabet, and a digit's value is its place there. -/
namespace Lib

variable {α : Type} {alphabet s : List α}

def IsNumeral (alphabet s : List α) : Prop := ∀ c ∈ s, c ∈ alphabet

theorem IsNumeral.of_append {t : List α} (h : IsNumeral alphabet (s ++ t)) :
    IsNumeral alphabet s := fun c hc => h c (List.mem_append_left t hc)

variable [DecidableEq α]

instance (alphabet s : List α) : Decidable (IsNumeral alphabet s) :=
  inferInstanceAs (Decidable (∀ c ∈ s, c ∈ alphabet))

/-- The number a digit string denotes. -/
def numeral (alphabet s : List α) : ℕ :=
  Nat.ofDigits alphabet.length (s.reverse.map (alphabet.idxOf ·))

theorem numeral_concat (alphabet s : List α) (c : α) :
    numeral alphabet (s ++ [c]) = numeral alphabet s * alphabet.length + alphabet.idxOf c := by
  rw [numeral, List.reverse_append, List.reverse_singleton, List.singleton_append, List.map_cons,
    Nat.ofDigits_cons, numeral, Nat.mul_comm, Nat.add_comm]

/-- Reading the digits from the left, each step modulo `m`, gives the number modulo `m`. -/
theorem foldl_mod_eq_numeral {m : ℕ} {step : ℕ → α → ℕ} (h : IsNumeral alphabet s)
    (hstep : ∀ n, ∀ c ∈ alphabet, step n c = (n * alphabet.length + alphabet.idxOf c) % m) :
    s.foldl step (0 % m) = numeral alphabet s % m := by
  induction s using List.reverseRecOn with
  | nil => rfl
  | append_singleton s c ih =>
    have hc : c ∈ alphabet := h c (by simp)
    rw [List.foldl_append, ih h.of_append, List.foldl_cons, List.foldl_nil, hstep _ c hc,
      numeral_concat, Nat.add_mod, Nat.mul_mod, Nat.mod_mod, ← Nat.mul_mod, ← Nat.add_mod]

end Lib

import Mathlib.Algebra.GroupWithZero.Nat
import Mathlib.Data.List.SplitBy

/-! Maximal runs of equal elements, and sums of a cost of each run. -/
namespace Lib

variable {α : Type} [DecidableEq α] {a : α} {xs : List α}

def runs (xs : List α) : List (List α) := xs.splitBy (· == ·)

/-- The cost of a list whose runs of `n` times `a` cost `cost a n`. -/
def runCost (cost : α → ℕ → ℕ) (xs : List α) : ℕ :=
  ((runs xs).map fun run => run.head?.elim 0 (cost · run.length)).sum

theorem runs_replicate_append {n : ℕ} (hn : 0 < n) (h : xs.head? ≠ some a) :
    runs (List.replicate n a ++ xs) = List.replicate n a :: runs xs := by
  have hrun : (List.replicate n a).splitBy (· == ·) = [List.replicate n a] := by
    apply List.splitBy_of_isChain
    · simp [hn.ne']
    · exact List.isChain_replicate_of_rel n (beq_self_eq_true a)
  rw [runs, List.splitBy_append, hrun, List.singleton_append, runs]
  intro x hx y hy
  obtain rfl : x = a := List.eq_of_mem_replicate (List.mem_of_mem_getLast? hx)
  rw [beq_eq_false_iff_ne]
  rintro rfl
  exact h hy

variable {cost : α → ℕ → ℕ}

theorem runCost_replicate_append (h0 : cost a 0 = 0) (n : ℕ) (h : xs.head? ≠ some a) :
    runCost cost (List.replicate n a ++ xs) = cost a n + runCost cost xs := by
  cases n with
  | zero => rw [h0, Nat.zero_add, List.replicate_zero, List.nil_append]
  | succ n =>
    rw [runCost, runs_replicate_append (Nat.succ_pos n) h, List.map_cons, List.sum_cons,
      List.replicate_succ, List.head?_cons, Option.elim_some, List.length_cons,
      List.length_replicate, runCost]

/-- Every list begins with all it has of an element there, which may be nothing. -/
theorem exists_replicate_append (a : α) (xs : List α) :
    ∃ n rest, xs = List.replicate n a ++ rest ∧ rest.head? ≠ some a := by
  induction xs with
  | nil => exact ⟨0, [], rfl, by simp⟩
  | cons x xs ih =>
    by_cases hx : x = a
    · obtain ⟨n, rest, rfl, hrest⟩ := ih
      exact ⟨n + 1, rest, by rw [hx, List.replicate_succ, List.cons_append], hrest⟩
    · exact ⟨0, x :: xs, rfl, by simpa using hx⟩

/-- Part of a run costs the same before every rest of the run: it can be taken off. -/
theorem runCost_take {k c : ℕ} (h0 : cost a 0 = 0)
    (h : ∀ n, (n ≠ 0 → xs.head? = some a) → cost a (k + n) = c + cost a n) :
    runCost cost (List.replicate k a ++ xs) = c + runCost cost xs := by
  obtain ⟨n, rest, rfl, hrest⟩ := exists_replicate_append a xs
  have hn : n ≠ 0 → (List.replicate n a ++ rest).head? = some a := by
    intro hne
    obtain ⟨m, rfl⟩ := Nat.exists_eq_succ_of_ne_zero hne
    rfl
  rw [← List.append_assoc, ← List.replicate_add, runCost_replicate_append h0 _ hrest,
    runCost_replicate_append h0 _ hrest, h n hn, Nat.add_assoc]

/-- Cutting a list in two may cut a run, which costs no less in two parts. -/
theorem runCost_append_le (h0 : ∀ a, cost a 0 = 0)
    (hadd : ∀ a m n, cost a (m + n) ≤ cost a m + cost a n) (xs ys : List α) :
    runCost cost (xs ++ ys) ≤ runCost cost xs + runCost cost ys := by
  induction hlen : xs.length using Nat.strong_induction_on generalizing xs with
  | _ len ih =>
    cases xs with
    | nil => exact Nat.le_add_left _ _
    | cons a xs =>
      obtain ⟨m, rest, hxs, hrest⟩ := exists_replicate_append a xs
      have hcons : a :: xs = List.replicate (m + 1) a ++ rest := by
        rw [hxs, List.replicate_succ, List.cons_append]
      rw [hcons] at hlen ⊢
      rw [List.append_assoc, runCost_replicate_append (h0 a) (m + 1) hrest]
      cases rest with
      | nil =>
        -- the run may go on in the second part
        obtain ⟨n, rest', rfl, hrest'⟩ := exists_replicate_append a ys
        have hle := hadd a (m + 1) n
        rw [List.nil_append, ← List.append_assoc, ← List.replicate_add,
          runCost_replicate_append (h0 a) _ hrest', runCost_replicate_append (h0 a) _ hrest']
        change _ ≤ cost a (m + 1) + 0 + _
        omega
      | cons b rest =>
        have hstop : (b :: rest ++ ys).head? ≠ some a := hrest
        have hshorter : (b :: rest).length < len := by
          rw [List.length_append, List.length_replicate] at hlen
          omega
        have hle := ih _ hshorter (b :: rest) rfl
        rw [runCost_replicate_append (h0 a) (m + 1) hstop]
        omega

end Lib

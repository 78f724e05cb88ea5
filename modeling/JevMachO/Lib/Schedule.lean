import JevMachO.Lib.Transition
import Mathlib.Order.Nat

/-! Infinite schedules of a transition system. An action that is not enabled when its turn comes
does nothing. What a schedule leads to is shown by a rank that one action lowers, as long as the
action comes up again and again. -/
namespace Lib

variable {σ τ : Type}

/-- The state after the first `t` actions of a schedule. -/
def stateAt (step : σ → τ → Option σ) (s : σ) (acts : ℕ → τ) : ℕ → σ
  | 0 => s
  | t + 1 => (step (stateAt step s acts t) (acts t)).getD (stateAt step s acts t)

/-- However late it is, the action is still to come. -/
def Recurs (acts : ℕ → τ) (a : τ) : Prop := ∀ t, ∃ u, t ≤ u ∧ acts u = a

variable {step : σ → τ → Option σ} {s : σ} {acts : ℕ → τ} {a : τ} {P Q : σ → Prop} {t : ℕ}

/-- What every step keeps holds from the first state on in which it holds. -/
theorem stateAt_stays (hstep : ∀ s a s', P s → step s a = some s' → P s')
    (ht : P (stateAt step s acts t)) {u : ℕ} (hu : t ≤ u) : P (stateAt step s acts u) := by
  induction u, hu using Nat.le_induction with
  | base => exact ht
  | succ u hu ih =>
    rw [stateAt]
    cases h : step (stateAt step s acts u) (acts u) with
    | none => exact ih
    | some s' => exact hstep _ _ _ ih h

/-- Up to any later time the target is reached, or the premise still holds and the rank has not
grown. -/
theorem stateAt_waits {rank : σ → ℕ}
    (hstep : ∀ s a s', P s → step s a = some s' → Q s' ∨ P s' ∧ rank s' ≤ rank s)
    (ht : P (stateAt step s acts t)) {u : ℕ} (hu : t ≤ u) :
    (∃ v, t ≤ v ∧ Q (stateAt step s acts v)) ∨
      P (stateAt step s acts u) ∧
        rank (stateAt step s acts u) ≤ rank (stateAt step s acts t) := by
  induction u, hu using Nat.le_induction with
  | base => exact .inr ⟨ht, Nat.le_refl _⟩
  | succ u hu ih =>
    cases ih with
    | inl hreached => exact .inl hreached
    | inr hwaits =>
      obtain ⟨hP, hrank⟩ := hwaits
      cases h : step (stateAt step s acts u) (acts u) with
      | none =>
        have hsame : stateAt step s acts (u + 1) = stateAt step s acts u := by
          rw [stateAt, h, Option.getD_none]
        rw [hsame]
        exact .inr ⟨hP, hrank⟩
      | some s' =>
        have hnext : stateAt step s acts (u + 1) = s' := by
          rw [stateAt, h, Option.getD_some]
        cases hstep _ _ _ hP h with
        | inl hQ => exact .inl ⟨u + 1, hu.trans (Nat.le_succ u), hnext ▸ hQ⟩
        | inr hkept =>
          rw [hnext]
          exact .inr ⟨hkept.1, hkept.2.trans hrank⟩

/-- One recurring action leads to the target when it lowers a rank that no other action raises. -/
theorem leadsTo_of_rank (rank : σ → ℕ) (hfair : Recurs acts a)
    (hstep : ∀ s b s', P s → step s b = some s' → Q s' ∨ P s' ∧ rank s' ≤ rank s)
    (hact : ∀ s, P s → ∃ s', step s a = some s' ∧ (Q s' ∨ P s' ∧ rank s' < rank s))
    (ht : P (stateAt step s acts t)) : ∃ u, t ≤ u ∧ Q (stateAt step s acts u) := by
  generalize hn : rank (stateAt step s acts t) = n
  induction n using Nat.strong_induction_on generalizing t with
  | _ n ih =>
    obtain ⟨u, hu, ha⟩ := hfair t
    cases stateAt_waits hstep ht hu with
    | inl hreached => exact hreached
    | inr hwaits =>
      obtain ⟨hP, hrank⟩ := hwaits
      obtain ⟨s', hs', hprogress⟩ := hact _ hP
      have hnext : stateAt step s acts (u + 1) = s' := by
        rw [stateAt, ha, hs', Option.getD_some]
      have hlater : t ≤ u + 1 := hu.trans (Nat.le_succ u)
      cases hprogress with
      | inl hQ => exact ⟨u + 1, hlater, hnext ▸ hQ⟩
      | inr hlower =>
        obtain ⟨v, hv, hQ⟩ := ih (rank s') (by omega) (hnext ▸ hlower.1) (congrArg rank hnext)
        exact ⟨v, hlater.trans hv, hQ⟩

/-- The target is reached when from every premise it is, or a smaller one. -/
theorem leadsTo_of_descent (size : σ → ℕ)
    (h : ∀ t, P (stateAt step s acts t) → ∃ u, t ≤ u ∧ (Q (stateAt step s acts u) ∨
      P (stateAt step s acts u) ∧ size (stateAt step s acts u) < size (stateAt step s acts t)))
    (ht : P (stateAt step s acts t)) : ∃ u, t ≤ u ∧ Q (stateAt step s acts u) := by
  generalize hn : size (stateAt step s acts t) = n
  induction n using Nat.strong_induction_on generalizing t with
  | _ n ih =>
    obtain ⟨u, hu, hprogress⟩ := h t ht
    cases hprogress with
    | inl hQ => exact ⟨u, hu, hQ⟩
    | inr hsmaller =>
      obtain ⟨v, hv, hQ⟩ := ih _ (hn ▸ hsmaller.2) hsmaller.1 rfl
      exact ⟨v, hu.trans hv, hQ⟩

end Lib

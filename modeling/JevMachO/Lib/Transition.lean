import Mathlib.Data.List.Basic

/-! Runs of a transition system given by a partial step function, and invariants of runs. -/
namespace Lib

variable {σ τ : Type}

/-- The state after a list of actions, if every one of them is enabled in turn. -/
def run (step : σ → τ → Option σ) : σ → List τ → Option σ
  | s, [] => some s
  | s, a :: as => (step s a).bind fun s' => run step s' as

/-- Every step of the run, taken from its own state, meets the condition. -/
def RunsWithin (step : σ → τ → Option σ) (ok : σ → τ → Prop) : σ → List τ → Prop
  | _, [] => True
  | s, a :: as => ok s a ∧
      match step s a with
      | some s' => RunsWithin step ok s' as
      | none => True

instance decidableRunsWithin (step : σ → τ → Option σ) (ok : σ → τ → Prop)
    [∀ s a, Decidable (ok s a)] : ∀ s as, Decidable (RunsWithin step ok s as)
  | _, [] => .isTrue trivial
  | s, a :: as =>
    have : Decidable (match step s a with
        | some s' => RunsWithin step ok s' as
        | none => True) :=
      match step s a with
      | some s' => decidableRunsWithin step ok s' as
      | none => .isTrue trivial
    inferInstanceAs (Decidable (_ ∧ _))

/-- A state some run from `s₀` leads to. -/
def Reachable (step : σ → τ → Option σ) (s₀ s : σ) : Prop := ∃ as, run step s₀ as = some s

variable {step : σ → τ → Option σ} {ok : σ → τ → Prop} {P : σ → Prop}

/-- What every step within the condition keeps holds after every run within it. -/
theorem RunsWithin.invariant (hstep : ∀ s a s', P s → ok s a → step s a = some s' → P s')
    {as : List τ} {s s' : σ} (hs : P s) (hok : RunsWithin step ok s as)
    (hrun : run step s as = some s') : P s' := by
  induction as generalizing s with
  | nil => exact Option.some.inj hrun ▸ hs
  | cons a as ih =>
    obtain ⟨r, hr, hrun⟩ := Option.bind_eq_some_iff.mp hrun
    have hrest := hok.2
    rw [hr] at hrest
    exact ih (hstep s a r hs hok.1 hr) hrest hrun

/-- Every state a run passes through is good. -/
def Throughout (step : σ → τ → Option σ) (Q : σ → Prop) (s : σ) (as : List τ) : Prop :=
  ∀ pre, pre <+: as → ∀ s', run step s pre = some s' → Q s'

/-- When steps within the condition keep an invariant that makes states good, and steps outside it
lead to states that are not good, a run is within the condition exactly when every state it passes
through is good. -/
theorem throughout_iff_runsWithin {Q : σ → Prop}
    (hstep : ∀ s a s', P s → ok s a → step s a = some s' → P s') (hgood : ∀ s, P s → Q s)
    (hbad : ∀ s a s', P s → ¬ok s a → step s a = some s' → ¬Q s') {as : List τ} {s r : σ}
    (hs : P s) (hrun : run step s as = some r) :
    Throughout step Q s as ↔ RunsWithin step ok s as := by
  induction as generalizing s with
  | nil =>
    refine ⟨fun _ => trivial, fun _ pre hpre s' hs' => ?_⟩
    obtain rfl := List.prefix_nil.mp hpre
    exact Option.some.inj hs' ▸ hgood s hs
  | cons a as ih =>
    obtain ⟨t, ht, hrest⟩ := Option.bind_eq_some_iff.mp hrun
    have hcons : ∀ pre, run step s (a :: pre) = run step t pre := by
      intro pre
      rw [run, ht, Option.bind_some]
    constructor
    · intro hall
      have hok : ok s a := by
        by_contra hno
        refine hbad s a t hs hno ht (hall [a] ?_ t ?_)
        · exact List.cons_prefix_cons.mpr ⟨rfl, List.nil_prefix⟩
        · rw [hcons]
          rfl
      refine ⟨hok, ?_⟩
      rw [ht]
      refine (ih (hstep s a t hs hok ht) hrest).mp fun pre hpre s' hs' => ?_
      apply hall (a :: pre) (List.cons_prefix_cons.mpr ⟨rfl, hpre⟩) s'
      rw [hcons]
      exact hs'
    · rintro ⟨hok, hwithin⟩ pre hpre s' hs'
      rw [ht] at hwithin
      cases pre with
      | nil => exact Option.some.inj hs' ▸ hgood s hs
      | cons b pre =>
        obtain ⟨rfl, hpre'⟩ := List.cons_prefix_cons.mp hpre
        rw [hcons] at hs'
        exact (ih (hstep s _ t hs hok ht) hrest).mpr hwithin pre hpre' s' hs'

/-- A condition on the actions alone holds throughout a run when it holds of its actions. -/
theorem runsWithin_of_forall {ok : τ → Prop} {as : List τ} (h : ∀ a ∈ as, ok a) (s : σ) :
    RunsWithin step (fun _ a => ok a) s as := by
  induction as generalizing s with
  | nil => trivial
  | cons a as ih =>
    refine ⟨h a List.mem_cons_self, ?_⟩
    split
    · exact ih (fun b hb => h b (List.mem_cons_of_mem a hb)) _
    · trivial

/-- How many steps of a run are of a kind. -/
def countSteps (step : σ → τ → Option σ) (kind : σ → τ → Bool) : σ → List τ → ℕ
  | _, [] => 0
  | s, a :: as => (kind s a).toNat +
      match step s a with
      | some s' => countSteps step kind s' as
      | none => 0

/-- An invariant with a budget that the steps of one kind add to. -/
theorem count_invariant {kind : σ → τ → Bool} {P : ℕ → σ → Prop}
    (hstep : ∀ n s a s', P n s → step s a = some s' → P (n + (kind s a).toNat) s')
    {as : List τ} {n : ℕ} {s s' : σ} (hs : P n s) (hrun : run step s as = some s') :
    P (n + countSteps step kind s as) s' := by
  induction as generalizing n s with
  | nil => exact Option.some.inj hrun ▸ hs
  | cons a as ih =>
    obtain ⟨r, hr, hrun⟩ := Option.bind_eq_some_iff.mp hrun
    rw [countSteps, hr, ← Nat.add_assoc]
    exact ih (hstep n s a r hs hr) hrun

theorem Reachable.invariant (hstep : ∀ s a s', P s → step s a = some s' → P s') {s₀ s : σ}
    (hs : P s₀) (h : Reachable step s₀ s) : P s := by
  obtain ⟨as, hrun⟩ := h
  have hok : ∀ (as : List τ) (s : σ), RunsWithin step (fun _ _ => True) s as := by
    intro as
    induction as with
    | nil => exact fun _ => trivial
    | cons a as ih =>
      intro s
      refine ⟨trivial, ?_⟩
      split
      · exact ih _
      · trivial
  exact (hok as s₀).invariant (fun s a s' hs _ => hstep s a s' hs) hs hrun

end Lib

import Mathlib.Tactic.Common

/-! Computation rules for `Except`, used to run straight-line `do` blocks in proofs. -/
namespace Lib

variable {ε α β : Type}

@[simp] theorem ok_bind (a : α) (f : α → Except ε β) : (Except.ok a >>= f) = f a := rfl

@[simp] theorem error_bind (e : ε) (f : α → Except ε β) :
    (Except.error e >>= f) = .error e := rfl

@[simp] theorem pure_eq_ok (a : α) : (pure a : Except ε α) = .ok a := rfl

@[simp] theorem map_ok (f : α → β) (a : α) : f <$> (Except.ok a : Except ε α) = .ok (f a) := rfl

/-- A block that returns has run its first statement. -/
theorem bind_eq_ok {x : Except ε α} {f : α → Except ε β} {b : β} :
    (x >>= f) = .ok b ↔ ∃ a, x = .ok a ∧ f a = .ok b := by
  cases x with
  | error e => simp
  | ok a => simp

theorem map_eq_ok {x : Except ε α} {f : α → β} {b : β} :
    x.map f = .ok b ↔ ∃ a, x = .ok a ∧ f a = b := by
  cases x with
  | error e => simp [Except.map]
  | ok a => simp [Except.map]

theorem toOption_eq_some {x : Except ε α} {a : α} : x.toOption = some a ↔ x = .ok a := by
  cases x with
  | error e => simp [Except.toOption]
  | ok b => simp [Except.toOption]

/-- A traversal whose steps do not fail, with results that are given through another list. -/
theorem mapM_eq_ok {γ : Type} {f : α → Except ε γ} {g : β → γ} {xs : List α} {ys : List β}
    (h : List.Forall₂ (fun x y => f x = .ok (g y)) xs ys) : xs.mapM f = .ok (ys.map g) := by
  induction h with
  | nil => rfl
  | cons hx _ ih =>
    rw [List.mapM_cons, hx, ok_bind, ih]
    rfl

/-- A loop that appends one result for each element, none of which fails. -/
theorem foldlM_append_eq_ok {f : α → Except ε β} {g : α → β} {xs : List α}
    (h : ∀ x ∈ xs, f x = .ok (g x)) (ys : List β) :
    xs.foldlM (fun ys x => do return ys ++ [← f x]) ys = .ok (ys ++ xs.map g) := by
  induction xs generalizing ys with
  | nil => simp
  | cons x xs ih =>
    obtain ⟨hx, hxs⟩ := List.forall_mem_cons.mp h
    rw [List.foldlM_cons, hx]
    simpa using ih hxs (ys ++ [g x])

/-- Such a loop, when it ends, has one result for each element behind those it began with. -/
theorem exists_of_foldlM_append {f : α → Except ε β} {xs : List α} {ys zs : List β}
    (h : xs.foldlM (fun ys x => do return ys ++ [← f x]) ys = .ok zs) :
    ∃ bs, List.Forall₂ (fun x b => f x = .ok b) xs bs ∧ zs = ys ++ bs := by
  induction xs generalizing ys with
  | nil => exact ⟨[], .nil, by simpa using h.symm⟩
  | cons x xs ih =>
    rw [List.foldlM_cons] at h
    obtain ⟨ys', hys', h⟩ := bind_eq_ok.mp h
    obtain ⟨b, hb, hys⟩ := bind_eq_ok.mp hys'
    obtain rfl := Except.ok.inj hys
    obtain ⟨bs, hbs, rfl⟩ := ih h
    exact ⟨b :: bs, .cons hb hbs, by simp⟩

/-! ### Early returns -/

/-- A computation that may fail, and that may return early for a reason. -/
abbrev Bailing (ρ ε : Type) := ExceptT ρ (Except ε)

variable {ρ : Type}

/-- `if (!ptr) return;` -/
def orBail (why : ρ) (x : Except ε (Option α)) : Bailing ρ ε α := do
  match ← x with
  | none => throw why
  | some a => return a

/-- `if (!b) return;` -/
def bailUnless (b : Bool) (why : ρ) : Bailing ρ ε Unit := if b then pure () else throw why

/-- A computation that does not return early has run its first statement. -/
theorem bailing_bind {x : Bailing ρ ε α} {f : α → Bailing ρ ε β} {b : β} :
    (x >>= f).run = .ok (.ok b) ↔ ∃ a, x.run = .ok (.ok a) ∧ (f a).run = .ok (.ok b) := by
  rw [ExceptT.run_bind]
  constructor
  · intro h
    obtain ⟨r, hr, h⟩ := bind_eq_ok.mp h
    cases r with
    | error why => cases h
    | ok a => exact ⟨a, hr, h⟩
  · rintro ⟨a, ha, h⟩
    rw [ha, ok_bind]
    exact h

theorem bailing_lift {x : Except ε α} {a : α} :
    (liftM x : Bailing ρ ε α).run = .ok (.ok a) ↔ x = .ok a := by
  cases x with
  | error e => constructor <;> intro h <;> cases h
  | ok b => constructor <;> intro h <;> cases h <;> rfl

theorem orBail_eq_ok {why : ρ} {x : Except ε (Option α)} {a : α} :
    (orBail why x).run = .ok (.ok a) ↔ x = .ok (some a) := by
  cases x with
  | error e => constructor <;> intro h <;> cases h
  | ok o =>
    cases o with
    | none => constructor <;> intro h <;> cases h
    | some b => constructor <;> intro h <;> cases h <;> rfl

theorem bailUnless_eq_ok {b : Bool} {why : ρ} :
    (bailUnless b why : Bailing ρ ε Unit).run = .ok (.ok ()) ↔ b = true := by
  cases b with
  | false => constructor <;> intro h <;> cases h
  | true => constructor <;> intro _ <;> rfl

end Lib

import JevMachO.Lib.Except
import Mathlib.Data.List.TakeWhile

/-! Forward cursors: a position type with an end test, a dereference and a step, any of
which may fail, and the standard loops over them. `Visits` relates a position to the list of
elements a complete walk from it sees; every loop rule is stated through it. -/
namespace Lib

variable {ε σ α β γ τ : Type}

/-- A range given by its iterator operations; `stuck` is reported by a walk that does not end
within its step bound. -/
structure Cursor (ε σ α : Type) where
  atEnd : σ → Except ε Bool
  deref : σ → Except ε α
  next : σ → Except ε σ
  stuck : ε

namespace Cursor

/-- `for (; first != last; ++first) init = f(init, *first);` -/
def accumulate (c : Cursor ε σ α) (f : β → α → Except ε β) : ℕ → σ → β → Except ε β
  | n, s, b => do
    if ← c.atEnd s then return b
    match n with
    | 0 => throw c.stuck
    | n + 1 =>
      let a ← c.deref s
      let b ← f b a
      let s ← c.next s
      accumulate c f n s b

/-- The elements of a complete walk, in order. -/
def elements (c : Cursor ε σ α) (n : ℕ) (s : σ) : Except ε (List α) :=
  c.accumulate (fun as a => .ok (as ++ [a])) n s []

/-- A loop over a range whose iterators read the memory that the body changes. -/
def forLoop (c : β → Cursor ε σ α) (body : β → α → Except ε β) : ℕ → σ → β → Except ε β
  | n, s, b => do
    if ← (c b).atEnd s then return b
    match n with
    | 0 => throw (c b).stuck
    | n + 1 =>
      let a ← (c b).deref s
      let b ← body b a
      let s ← (c b).next s
      forLoop c body n s b

/-- `find_if` with a predicate that updates captured state `t`: stops at the first element
the predicate accepts, or at the end. -/
def findIfWith (c : Cursor ε σ α) (p : τ → α → Except ε (Bool × τ)) :
    ℕ → σ → τ → Except ε (σ × τ)
  | n, s, t => do
    if ← c.atEnd s then return (s, t)
    match n with
    | 0 => throw c.stuck
    | n + 1 =>
      let a ← c.deref s
      let r ← p t a
      if r.1 then return (s, r.2)
      let s ← c.next s
      findIfWith c p n s r.2

/-- `find_if` with a predicate without state. -/
def findIf (c : Cursor ε σ α) (p : α → Except ε Bool) (n : ℕ) (s : σ) : Except ε σ := do
  let r ← c.findIfWith (fun (_ : Unit) a => do return (← p a, ())) n s ()
  return r.1

/-- The element found, or none when the walk reached the end. -/
def findIfOrNull (c : Cursor ε σ α) (p : α → Except ε Bool) (n : ℕ) (s : σ) :
    Except ε (Option α) := do
  let r ← c.findIf p n s
  if ← c.atEnd r then return none
  return some (← c.deref r)

/-- `any_of`. -/
def anyOf (c : Cursor ε σ α) (p : α → Except ε Bool) (n : ℕ) (s : σ) : Except ε Bool := do
  let r ← c.findIf p n s
  return !(← c.atEnd r)

/-- A complete walk from the position sees exactly the list. -/
inductive Visits (c : Cursor ε σ α) : σ → List α → Prop
  | nil {s} : c.atEnd s = .ok true → Visits c s []
  | cons {s s' a as} : c.atEnd s = .ok false → c.deref s = .ok a → c.next s = .ok s' →
      Visits c s' as → Visits c s (a :: as)

/-- A walk from one position to another sees exactly the list before it arrives. -/
inductive Walks (c : Cursor ε σ α) : σ → List α → σ → Prop
  | nil {s} : Walks c s [] s
  | cons {s s' e a as} : c.atEnd s = .ok false → c.deref s = .ok a → c.next s = .ok s' →
      Walks c s' as e → Walks c s (a :: as) e

variable {c : Cursor ε σ α}

theorem Walks.visits {s e : σ} {as : List α} (h : c.Walks s as e) (he : c.atEnd e = .ok true) :
    c.Visits s as := by
  induction h with
  | nil => exact .nil he
  | cons hs hd hn _ ih => exact .cons hs hd hn (ih he)

/-- `find_if` passes the elements its predicate refuses, and the state it updates has then seen
the last of them. -/
theorem Walks.findIfWith {s e : σ} {as : List α} (h : c.Walks s as e)
    (q : α → Bool) (hq : ∀ a ∈ as, q a = false) (n : ℕ) (t : α) :
    c.findIfWith (fun _ a => .ok (q a, a)) (n + as.length) s t =
      c.findIfWith (fun _ a => .ok (q a, a)) n e (as.getLastD t) := by
  induction h generalizing t with
  | nil => rfl
  | @cons s s' e a as hs hd hn _ ih =>
    have ha : q a = false := hq a List.mem_cons_self
    conv_lhs => unfold Cursor.findIfWith
    simp only [hs, hd, hn, ha, ok_bind, List.length_cons, ← Nat.add_assoc]
    rw [List.getLastD_cons, ← ih (fun b hb => hq b (List.mem_cons_of_mem a hb)) a]
    rfl

theorem Visits.accumulate {s : σ} {as : List α} (h : c.Visits s as)
    (f : β → α → Except ε β) (n : ℕ) (hn : as.length ≤ n) (b : β) :
    c.accumulate f n s b = as.foldlM f b := by
  induction h generalizing n b with
  | nil he => unfold Cursor.accumulate; simp [he]
  | cons he hd hs _ ih =>
    obtain ⟨n, rfl⟩ := Nat.exists_eq_add_of_le' hn
    simp only [List.length_cons] at hn ⊢
    unfold Cursor.accumulate
    simp only [he, ok_bind, hd, hs, List.foldlM_cons]
    cases hf : f b _ with
    | error e => simp
    | ok b' => simpa using ih (n + _) (by omega) b'

private theorem foldlM_append_singleton (as bs : List α) :
    as.foldlM (fun l a => (.ok (l ++ [a]) : Except ε (List α))) bs = .ok (bs ++ as) := by
  induction as generalizing bs with
  | nil => simp
  | cons a as ih => simp [ih]

theorem Visits.elements {s : σ} {as : List α} (h : c.Visits s as) (n : ℕ)
    (hn : as.length ≤ n) : c.elements n s = .ok as := by
  rw [Cursor.elements, h.accumulate _ n hn]
  simpa using foldlM_append_singleton as []

/-- A walk has only one list of elements. -/
theorem Visits.unique {s : σ} {as bs : List α} (h : c.Visits s as) (h' : c.Visits s bs) :
    as = bs := by
  induction h generalizing bs with
  | nil he =>
    cases h' with
    | nil => rfl
    | cons he' => simp [he] at he'
  | cons he hd hs _ ih =>
    cases h' with
    | nil he' => simp [he] at he'
    | cons _ hd' hs' hrest =>
      obtain rfl := Except.ok.inj (hd.symm.trans hd')
      obtain rfl := Except.ok.inj (hs.symm.trans hs')
      rw [ih hrest]

/-- A loop that comes to its end has made a complete walk. -/
theorem visits_of_accumulate {f : β → α → Except ε β} {n : ℕ} {s : σ} {b r : β}
    (h : c.accumulate f n s b = .ok r) : ∃ as, c.Visits s as ∧ as.foldlM f b = .ok r := by
  induction n generalizing s b with
  | zero =>
    unfold Cursor.accumulate at h
    obtain ⟨e, he, h⟩ := bind_eq_ok.mp h
    cases e with
    | true => exact ⟨[], .nil he, h⟩
    | false => simp at h
  | succ n ih =>
    unfold Cursor.accumulate at h
    obtain ⟨e, he, h⟩ := bind_eq_ok.mp h
    cases e with
    | true => exact ⟨[], .nil he, h⟩
    | false =>
      obtain ⟨a, ha, h⟩ := bind_eq_ok.mp h
      obtain ⟨b', hb', h⟩ := bind_eq_ok.mp h
      obtain ⟨s', hs', h⟩ := bind_eq_ok.mp h
      obtain ⟨as, hv, hfold⟩ := ih h
      refine ⟨a :: as, .cons he ha hs' hv, ?_⟩
      rw [List.foldlM_cons, hb', ok_bind, hfold]

/-- A loop that comes to its end has no more elements than its bound. -/
theorem Visits.length_le {s : σ} {as : List α} (h : c.Visits s as) {f : β → α → Except ε β}
    {n : ℕ} {b r : β} (hr : c.accumulate f n s b = .ok r) : as.length ≤ n := by
  induction h generalizing n b with
  | nil => exact Nat.zero_le n
  | cons he hd hs _ ih =>
    unfold Cursor.accumulate at hr
    rw [he, ok_bind] at hr
    cases n with
    | zero => simp at hr
    | succ n =>
      simp only [Bool.false_eq_true, if_false, hd, hs, ok_bind] at hr
      obtain ⟨b', -, hr⟩ := bind_eq_ok.mp hr
      exact Nat.succ_le_succ (ih hr)

/-- What a walk that ends within its bound has seen is all there is to see. -/
theorem visits_of_elements {n : ℕ} {s : σ} {as : List α} (h : c.elements n s = .ok as) :
    c.Visits s as := by
  obtain ⟨cs, hv, hfold⟩ := visits_of_accumulate h
  rw [foldlM_append_singleton, List.nil_append] at hfold
  exact Except.ok.inj hfold ▸ hv

/-- `find_if` over a walk stops where `dropWhile` does, for a predicate that does not fail on
the elements it is asked about. The elements are given through `f`, so that the predicate can
be described on richer data than it reads. -/
theorem Visits.findIf {f : γ → α} {xs : List γ} {s : σ} (h : c.Visits s (xs.map f))
    (p : α → Except ε Bool) (q : γ → Bool) (hp : ∀ x ∈ xs, p (f x) = .ok (q x)) (n : ℕ)
    (hn : xs.length ≤ n) :
    ∃ s', c.findIf p n s = .ok s' ∧ c.Visits s' ((xs.dropWhile fun x => !q x).map f) := by
  induction xs generalizing s n with
  | nil =>
    cases h with
    | nil he =>
      refine ⟨s, ?_, .nil he⟩
      unfold Cursor.findIf Cursor.findIfWith
      simp [he]
  | cons x xs ih =>
    obtain ⟨m, rfl⟩ := Nat.exists_eq_add_of_le' hn
    simp only [List.length_cons] at hn ⊢
    have hpa := hp x (by simp)
    have hv := h
    cases h with
    | cons he hd hs hrest =>
      cases hq : q x with
      | true =>
        refine ⟨s, ?_, by simpa [hq] using hv⟩
        unfold Cursor.findIf Cursor.findIfWith
        simp [he, hd, hpa, hq]
      | false =>
        obtain ⟨r, hr, hvr⟩ := ih hrest (fun y hy => hp y (by simp [hy])) (m + xs.length)
          (by omega)
        refine ⟨r, ?_, by simpa [hq] using hvr⟩
        unfold Cursor.findIf at hr ⊢
        unfold Cursor.findIfWith
        simpa [he, hd, hpa, hq, hs] using hr

theorem Visits.findIfOrNull {f : γ → α} {xs : List γ} {s : σ} (h : c.Visits s (xs.map f))
    (p : α → Except ε Bool) (q : γ → Bool) (hp : ∀ x ∈ xs, p (f x) = .ok (q x)) (n : ℕ)
    (hn : xs.length ≤ n) : c.findIfOrNull p n s = .ok ((xs.find? q).map f) := by
  obtain ⟨r, hr, hv⟩ := h.findIf p q hp n hn
  rw [Cursor.findIfOrNull, hr, List.find?_eq_head?_dropWhile_not]
  generalize xs.dropWhile (fun x => !q x) = rest at hv
  cases rest with
  | nil =>
    cases hv with
    | nil he => simp [he]
  | cons x rest =>
    cases hv with
    | cons he hd hs hv => simp [he, hd]

theorem Visits.anyOf {f : γ → α} {xs : List γ} {s : σ} (h : c.Visits s (xs.map f))
    (p : α → Except ε Bool) (q : γ → Bool) (hp : ∀ x ∈ xs, p (f x) = .ok (q x)) (n : ℕ)
    (hn : xs.length ≤ n) : c.anyOf p n s = .ok (xs.any q) := by
  obtain ⟨r, hr, hv⟩ := h.findIf p q hp n hn
  have hany : xs.any q = (xs.find? q).isSome := by
    rw [Bool.eq_iff_iff, List.find?_isSome, List.any_eq_true]
  rw [Cursor.anyOf, hr, hany, List.find?_eq_head?_dropWhile_not]
  generalize xs.dropWhile (fun x => !q x) = rest at hv
  cases rest with
  | nil =>
    cases hv with
    | nil he => simp [he]
  | cons x rest =>
    cases hv with
    | cons he hd hs hv => simp [he]

/-- What a step of `find_if` can do: be at the end, stop on an element, or pass one. -/
theorem findIfWith_step {p : τ → α → Except ε (Bool × τ)} {n : ℕ} {s : σ} {t : τ} {r : σ × τ}
    (h : c.findIfWith p n s t = .ok r) :
    c.atEnd s = .ok true ∧ r = (s, t) ∨
    c.atEnd s = .ok false ∧ ∃ a t', c.deref s = .ok a ∧
      (p t a = .ok (true, t') ∧ r = (s, t') ∨
        p t a = .ok (false, t') ∧ ∃ m s', n = m + 1 ∧ c.next s = .ok s' ∧
          c.findIfWith p m s' t' = .ok r) := by
  unfold findIfWith at h
  obtain ⟨e, he, h⟩ := bind_eq_ok.mp h
  cases e with
  | true => exact .inl ⟨he, (Except.ok.inj h).symm⟩
  | false =>
    cases n with
    | zero => simp at h
    | succ n =>
      obtain ⟨a, ha, h⟩ := bind_eq_ok.mp h
      obtain ⟨⟨b, t'⟩, hp, h⟩ := bind_eq_ok.mp h
      refine .inr ⟨he, a, t', ha, ?_⟩
      cases b with
      | true => exact .inl ⟨hp, (Except.ok.inj h).symm⟩
      | false =>
        obtain ⟨s', hs', h⟩ := bind_eq_ok.mp h
        exact .inr ⟨hp, n, s', rfl, hs', h⟩

/-- `find_if` stops at the end or on an element its predicate accepts. -/
theorem findIf_stops {p : α → Except ε Bool} {n : ℕ} {s r : σ} (h : c.findIf p n s = .ok r) :
    c.atEnd r = .ok true ∨ ∃ a, c.deref r = .ok a ∧ p a = .ok true := by
  obtain ⟨⟨r', u⟩, hr, hr'⟩ := bind_eq_ok.mp h
  clear h
  obtain rfl := Except.ok.inj hr'
  clear hr'
  induction n using Nat.strong_induction_on generalizing s with
  | _ n ih =>
    obtain ⟨he, hr⟩ | ⟨-, a, t', ha, ⟨hp, hr⟩ | ⟨-, m, s', rfl, -, hr⟩⟩ := findIfWith_step hr
    · obtain rfl := congrArg Prod.fst hr
      exact .inl he
    · obtain rfl := congrArg Prod.fst hr
      obtain ⟨b, hpa, hb⟩ := bind_eq_ok.mp hp
      obtain rfl := congrArg Prod.fst (Except.ok.inj hb)
      exact .inr ⟨a, ha, hpa⟩
    · exact ih m (Nat.lt_succ_self m) hr

theorem findIfOrNull_eq_some {p : α → Except ε Bool} {n : ℕ} {s : σ} {a : α}
    (h : c.findIfOrNull p n s = .ok (some a)) :
    ∃ r, c.findIf p n s = .ok r ∧ c.atEnd r = .ok false ∧ c.deref r = .ok a := by
  obtain ⟨r, hr, h⟩ := bind_eq_ok.mp h
  obtain ⟨e, he, h⟩ := bind_eq_ok.mp h
  cases e with
  | true => simp at h
  | false =>
    obtain ⟨b, hb, h⟩ := bind_eq_ok.mp h
    obtain rfl := Option.some.inj (Except.ok.inj h)
    exact ⟨r, hr, he, hb⟩

/-- The element found is one its predicate accepts. -/
theorem findIfOrNull_accepts {p : α → Except ε Bool} {n : ℕ} {s : σ} {a : α}
    (h : c.findIfOrNull p n s = .ok (some a)) : p a = .ok true := by
  obtain ⟨r, hr, he, hb⟩ := findIfOrNull_eq_some h
  rcases findIf_stops hr with hend | ⟨a, ha, hpa⟩
  · rw [he] at hend
    cases hend
  · obtain rfl := Except.ok.inj (hb.symm.trans ha)
    exact hpa

theorem forLoop_end {c : β → Cursor ε σ α} {body : β → α → Except ε β} {n : ℕ} {s : σ} {b : β}
    (he : (c b).atEnd s = .ok true) : forLoop c body n s b = .ok b := by
  unfold forLoop
  simp [he]

theorem forLoop_step {c : β → Cursor ε σ α} {body : β → α → Except ε β} {n : ℕ} {s s' : σ}
    {b b' : β} {a : α} (he : (c b).atEnd s = .ok false) (hd : (c b).deref s = .ok a)
    (hb : body b a = .ok b') (hn : (c b').next s = .ok s') :
    forLoop c body (n + 1) s b = forLoop c body n s' b' := by
  conv_lhs => unfold forLoop
  simp only [he, hd, hb, hn, ok_bind, Bool.false_eq_true, if_false]

/-- A round that fails. -/
theorem forLoop_error {c : β → Cursor ε σ α} {body : β → α → Except ε β} {n : ℕ} {s : σ} {b : β}
    {a : α} {e : ε} (he : (c b).atEnd s = .ok false) (hd : (c b).deref s = .ok a)
    (hb : body b a = .error e) : forLoop c body (n + 1) s b = .error e := by
  unfold forLoop
  simp only [he, hd, hb, ok_bind, Bool.false_eq_true, if_false]
  rfl

/-- What every round of a loop keeps holds when it has ended. -/
theorem forLoop_inv {c : β → Cursor ε σ α} {body : β → α → Except ε β} {P : σ → β → Prop}
    (hstep : ∀ s b a b' s', P s b → (c b).atEnd s = .ok false → (c b).deref s = .ok a →
      body b a = .ok b' → (c b').next s = .ok s' → P s' b') {n : ℕ} {s : σ} {b b' : β} (hs : P s b)
    (h : forLoop c body n s b = .ok b') : ∃ s', P s' b' ∧ (c b').atEnd s' = .ok true := by
  induction n generalizing s b with
  | zero =>
    unfold forLoop at h
    obtain ⟨e, he, h⟩ := bind_eq_ok.mp h
    cases e with
    | true =>
      obtain rfl := Except.ok.inj h
      exact ⟨s, hs, he⟩
    | false => simp at h
  | succ n ih =>
    unfold forLoop at h
    obtain ⟨e, he, h⟩ := bind_eq_ok.mp h
    cases e with
    | true =>
      obtain rfl := Except.ok.inj h
      exact ⟨s, hs, he⟩
    | false =>
      obtain ⟨a, ha, h⟩ := bind_eq_ok.mp h
      obtain ⟨b₁, hb₁, h⟩ := bind_eq_ok.mp h
      obtain ⟨s₁, hs₁, h⟩ := bind_eq_ok.mp h
      exact ih (hstep s b a b₁ s₁ hs he ha hb₁ hs₁) h

/-- A property of positions that every step keeps holds where `find_if` stops. -/
theorem findIfWith_inv {P : σ → Prop}
    (hnext : ∀ s s', P s → c.atEnd s = .ok false → c.next s = .ok s' → P s')
    {p : τ → α → Except ε (Bool × τ)} {n : ℕ} {s : σ} {t : τ} {r : σ × τ} (hs : P s)
    (h : c.findIfWith p n s t = .ok r) : P r.1 := by
  induction n using Nat.strong_induction_on generalizing s t with
  | _ n ih =>
    obtain ⟨-, rfl⟩ | ⟨he, a, t', -, ⟨-, rfl⟩ | ⟨-, m, s', rfl, hs', h⟩⟩ := findIfWith_step h
    · exact hs
    · exact hs
    · exact ih m (Nat.lt_succ_self m) (hnext s s' hs he hs') h

theorem findIfOrNull_inv {P : σ → Prop}
    (hnext : ∀ s s', P s → c.atEnd s = .ok false → c.next s = .ok s' → P s')
    {p : α → Except ε Bool} {n : ℕ} {s : σ} {a : α} (hs : P s)
    (h : c.findIfOrNull p n s = .ok (some a)) :
    ∃ s', P s' ∧ c.atEnd s' = .ok false ∧ c.deref s' = .ok a := by
  obtain ⟨r, hr, he, hb⟩ := findIfOrNull_eq_some h
  obtain ⟨r', hr', hrr⟩ := bind_eq_ok.mp hr
  obtain rfl := Except.ok.inj hrr
  exact ⟨_, findIfWith_inv hnext hs hr', he, hb⟩

/-- What `find_if` returns is among the elements of the walk. -/
theorem Visits.mem_of_findIfOrNull {s : σ} {as : List α} (hv : c.Visits s as)
    {p : α → Except ε Bool} {n : ℕ} {a : α} (h : c.findIfOrNull p n s = .ok (some a)) :
    a ∈ as := by
  obtain ⟨s', ⟨bs, hbs, hsub⟩, he, hd⟩ := findIfOrNull_inv
    (P := fun s => ∃ bs, c.Visits s bs ∧ bs ⊆ as) (by
      rintro s s' ⟨bs, hbs, hsub⟩ he hs'
      cases hbs with
      | nil hn => simp [hn] at he
      | cons _ _ hn hrest =>
        obtain rfl := Except.ok.inj (hn.symm.trans hs')
        exact ⟨_, hrest, fun _ hm => hsub (List.mem_cons_of_mem _ hm)⟩)
    ⟨as, hv, List.Subset.refl as⟩ h
  cases hbs with
  | nil hn => simp [hn] at he
  | cons _ hn _ _ =>
    obtain rfl := Except.ok.inj (hn.symm.trans hd)
    exact hsub List.mem_cons_self

end Cursor
end Lib

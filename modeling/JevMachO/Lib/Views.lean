import JevMachO.Lib.Cursor

/-! Views over a cursor. A filter view stands on elements its predicate accepts and finds the next
one by `find_if`; a transform view changes what a dereference gives. -/
namespace Lib
namespace Cursor

variable {ε σ α β γ : Type}

/-- The range of a filter view: `operator++` looks for the next accepted element, at most `n` of
the underlying ones on. It begins at `c.findIf p n`. -/
def filter (c : Cursor ε σ α) (p : α → Except ε Bool) (n : ℕ) : Cursor ε σ α where
  atEnd := c.atEnd
  deref := c.deref
  next s := do
    let s ← c.next s
    c.findIf p n s
  stuck := c.stuck

/-- The range of a transform view. -/
def transform (c : Cursor ε σ α) (f : α → Except ε β) : Cursor ε σ β where
  atEnd := c.atEnd
  deref s := do f (← c.deref s)
  next := c.next
  stuck := c.stuck

variable {c : Cursor ε σ α}

/-- The elements before the first accepted one do not pass the filter. -/
theorem filter_dropWhile_not (q : γ → Bool) (xs : List γ) :
    (xs.dropWhile fun x => !q x).filter q = xs.filter q := by
  induction xs with
  | nil => rfl
  | cons x xs ih =>
    cases hq : q x with
    | true => rw [List.dropWhile_cons_of_neg (by simp [hq])]
    | false =>
      rw [List.dropWhile_cons_of_pos (by simp [hq]), ih, List.filter_cons_of_neg (by simp [hq])]

/-- From where `find_if` stops, a filter view sees the accepted elements. -/
theorem Visits.filter {f : γ → α} {xs : List γ} {s : σ} (h : c.Visits s (xs.map f))
    (p : α → Except ε Bool) (q : γ → Bool) (hp : ∀ x ∈ xs, p (f x) = .ok (q x)) (n : ℕ)
    (hn : xs.length ≤ n) :
    ∃ s', c.findIf p n s = .ok s' ∧ (c.filter p n).Visits s' ((xs.filter q).map f) := by
  induction hk : xs.length using Nat.strong_induction_on generalizing xs s with
  | _ k ih =>
    obtain ⟨s', hs', hv⟩ := h.findIf p q hp n hn
    refine ⟨s', hs', ?_⟩
    have hsuf := List.dropWhile_suffix (l := xs) fun x => !q x
    have hhead := List.head?_dropWhile_not (fun x => !q x) xs
    rw [← filter_dropWhile_not]
    generalize (xs.dropWhile fun x => !q x) = rest at hv hsuf hhead
    cases rest with
    | nil =>
      cases hv with
      | nil he => exact .nil he
    | cons y ys =>
      have hy : q y = true := by simpa using hhead
      have hlen := hsuf.length_le
      rw [List.length_cons] at hlen
      have hys : ∀ x ∈ ys, p (f x) = .ok (q x) :=
        fun x hx => hp x (hsuf.subset (List.mem_cons_of_mem y hx))
      rw [List.filter_cons_of_pos hy]
      cases hv with
      | cons he hd hnext hrest =>
        obtain ⟨r, hr, hvr⟩ := ih ys.length (by omega) hrest hys (by omega) rfl
        refine .cons he hd ?_ hvr
        simp only [Cursor.filter, hnext, ok_bind, hr]

/-- The elements are given through `φ`, so that what becomes of them can be described on richer
data. -/
theorem Visits.transform {φ : γ → α} {xs : List γ} {s : σ} (h : c.Visits s (xs.map φ))
    {f : α → Except ε β} {g : γ → β} (hf : ∀ x ∈ xs, f (φ x) = .ok (g x)) :
    (c.transform f).Visits s (xs.map g) := by
  induction xs generalizing s with
  | nil =>
    cases h with
    | nil he => exact .nil he
  | cons x xs ih =>
    obtain ⟨hx, hxs⟩ := List.forall_mem_cons.mp hf
    cases h with
    | cons he hd hs hrest =>
      refine .cons he ?_ hs (ih hrest hxs)
      simp only [Cursor.transform, hd, ok_bind, hx]

/-- A walk from where `find_if` stops is a walk from where it began. -/
theorem visits_of_findIf {p : α → Except ε Bool} {n : ℕ} {s r : σ} {as : List α}
    (h : c.findIf p n s = .ok r) (hv : c.Visits r as) : ∃ bs, c.Visits s bs := by
  obtain ⟨⟨r', u⟩, hr, hr'⟩ := bind_eq_ok.mp h
  clear h
  obtain rfl := Except.ok.inj hr'
  clear hr'
  induction n using Nat.strong_induction_on generalizing s with
  | _ n ih =>
    obtain ⟨he, -⟩ | ⟨he, a, t', ha, ⟨-, hr⟩ | ⟨-, m, s', rfl, hs', hr⟩⟩ := findIfWith_step hr
    · exact ⟨[], .nil he⟩
    · obtain rfl := congrArg Prod.fst hr
      exact ⟨as, hv⟩
    · obtain ⟨bs, hbs⟩ := ih m (Nat.lt_succ_self m) hr
      exact ⟨a :: bs, .cons he ha hs' hbs⟩

/-- A complete walk of a filter view is one of the range below it. -/
theorem visits_of_filter {p : α → Except ε Bool} {n m : ℕ} {s r : σ} {as : List α}
    (h : c.findIf p m s = .ok r) (hv : (c.filter p n).Visits r as) : ∃ bs, c.Visits s bs := by
  induction hv generalizing s m with
  | nil he => exact visits_of_findIf h (.nil he)
  | cons he hd hn _ ih =>
    obtain ⟨t, ht, hfind⟩ := bind_eq_ok.mp hn
    obtain ⟨bs, hbs⟩ := ih hfind
    exact visits_of_findIf h (.cons he hd ht hbs)

theorem visits_of_transform {f : α → Except ε β} {s : σ} {bs : List β}
    (hv : (c.transform f).Visits s bs) : ∃ as, c.Visits s as := by
  induction hv with
  | nil he => exact ⟨[], .nil he⟩
  | cons he hd hn _ ih =>
    obtain ⟨a, ha, -⟩ := bind_eq_ok.mp hd
    obtain ⟨as, has⟩ := ih
    exact ⟨a :: as, .cons he ha hn has⟩

end Cursor

/-- Where a range begins, and the operations on its iterators. -/
structure Range (ε σ α : Type) where
  first : σ
  cursor : Cursor ε σ α

namespace Range

variable {ε σ α β γ : Type}

def filter (r : Range ε σ α) (p : α → Except ε Bool) (n : ℕ) : Except ε (Range ε σ α) := do
  return ⟨← r.cursor.findIf p n r.first, r.cursor.filter p n⟩

def transform (r : Range ε σ α) (f : α → Except ε β) : Range ε σ β :=
  ⟨r.first, r.cursor.transform f⟩

def elements (r : Range ε σ α) (n : ℕ) : Except ε (List α) := r.cursor.elements n r.first

def findIfOrNull (r : Range ε σ α) (p : α → Except ε Bool) (n : ℕ) : Except ε (Option α) :=
  r.cursor.findIfOrNull p n r.first

/-- The elements of the range. -/
def Sees (r : Range ε σ α) (as : List α) : Prop := r.cursor.Visits r.first as

variable {r : Range ε σ α}

theorem Sees.filter {f : γ → α} {xs : List γ} (h : r.Sees (xs.map f)) {p : α → Except ε Bool}
    {q : γ → Bool} (hp : ∀ x ∈ xs, p (f x) = .ok (q x)) {n : ℕ} (hn : xs.length ≤ n) :
    ∃ r', r.filter p n = .ok r' ∧ r'.Sees ((xs.filter q).map f) := by
  obtain ⟨s', hs', hv⟩ := Cursor.Visits.filter h p q hp n hn
  refine ⟨⟨s', r.cursor.filter p n⟩, ?_, hv⟩
  rw [Range.filter, hs', ok_bind, pure_eq_ok]

theorem Sees.transform {φ : γ → α} {xs : List γ} (h : r.Sees (xs.map φ)) {f : α → Except ε β}
    {g : γ → β} (hf : ∀ x ∈ xs, f (φ x) = .ok (g x)) : (r.transform f).Sees (xs.map g) :=
  Cursor.Visits.transform h hf

theorem Sees.elements {as : List α} (h : r.Sees as) {n : ℕ} (hn : as.length ≤ n) :
    r.elements n = .ok as := Cursor.Visits.elements h n hn

theorem Sees.findIfOrNull {f : γ → α} {xs : List γ} (h : r.Sees (xs.map f))
    {p : α → Except ε Bool} {q : γ → Bool} (hp : ∀ x ∈ xs, p (f x) = .ok (q x)) {n : ℕ}
    (hn : xs.length ≤ n) : r.findIfOrNull p n = .ok ((xs.find? q).map f) :=
  Cursor.Visits.findIfOrNull h p q hp n hn

end Range
end Lib

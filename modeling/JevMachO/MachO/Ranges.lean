import JevMachO.Common
import JevMachO.Lib.Bidirectional
import JevMachO.Lib.Words

/-! The lazy partial-sum view. The iterator of an underlying range is paired with the sum of the
elements before it, so an element of the view does not include the number it stands on. -/
namespace JevMachO
open Lib

variable {σ α : Type}

structure PsumIterator (σ α : Type) where
  base : σ
  psum : α
  deriving DecidableEq, Repr

/-- `psum_view`: where the underlying view begins, and the initial sum. -/
structure PsumView (σ α : Type) where
  uview : σ
  init : α
  deriving DecidableEq, Repr

def PsumView.begin (view : PsumView σ α) : PsumIterator σ α := ⟨view.uview, view.init⟩

/-- `end()`, from the underlying view's. -/
def PsumView.cend (view : PsumView σ α) (uend : σ) : PsumIterator σ α := ⟨uend, view.init⟩

namespace PsumIterator

/-- `operator++`. -/
def next [Add α] (c : Cursor Fault σ α) (it : PsumIterator σ α) : Exec (PsumIterator σ α) := do
  let v ← c.deref it.base
  let base ← c.next it.base
  return ⟨base, it.psum + v⟩

/-- `operator--`, from the underlying iterator's. -/
def prev [Sub α] (c : Cursor Fault σ α) (basePrev : σ → Exec σ) (it : PsumIterator σ α) :
    Exec (PsumIterator σ α) := do
  let base ← basePrev it.base
  let v ← c.deref base
  return ⟨base, it.psum - v⟩

/-- The view's range; comparison with the end only looks at the underlying iterator. -/
def cursor [Add α] (c : Cursor Fault σ α) : Cursor Fault (PsumIterator σ α) α where
  atEnd it := c.atEnd it.base
  deref it := .ok it.psum
  next := next c
  stuck := c.stuck

end PsumIterator

/-- The view's range when the underlying one is bidirectional. -/
def PsumIterator.biCursor [Add α] [Sub α] (c : BiCursor Fault σ α) :
    BiCursor Fault (PsumIterator σ α) α where
  toCursor := PsumIterator.cursor c.toCursor
  prev := PsumIterator.prev c.toCursor c.prev
  atBegin it := c.atBegin it.base

/-! ### What the view yields -/

/-- The sums of the elements before each one, from an initial value on. -/
def partialSums [Add α] (t : α) : List α → List α
  | [] => []
  | v :: vs => t :: partialSums (t + v) vs

section partialSums
variable [Add α]

@[simp] theorem partialSums_nil (t : α) : partialSums t [] = [] := rfl

@[simp] theorem partialSums_cons (t v : α) (vs : List α) :
    partialSums t (v :: vs) = t :: partialSums (t + v) vs := rfl

@[simp] theorem length_partialSums (t : α) (vs : List α) :
    (partialSums t vs).length = vs.length := by
  induction vs generalizing t with
  | nil => rfl
  | cons v vs ih => rw [partialSums_cons, List.length_cons, List.length_cons, ih]

theorem partialSums_append (t : α) (vs ws : List α) :
    partialSums t (vs ++ ws) = partialSums t vs ++ partialSums (vs.foldl (· + ·) t) ws := by
  induction vs generalizing t with
  | nil => rfl
  | cons v vs ih => rw [List.cons_append, partialSums_cons, ih]; rfl

/-- The last element leaves out the last number. -/
theorem partialSums_concat (t v : α) (vs : List α) :
    partialSums t (vs ++ [v]) = partialSums t vs ++ [vs.foldl (· + ·) t] := by
  rw [partialSums_append]
  rfl

theorem walks_partialSums {c : Cursor Fault σ α} {s e : σ} {vs : List α} (h : c.Walks s vs e)
    (t : α) :
    (PsumIterator.cursor c).Walks ⟨s, t⟩ (partialSums t vs) ⟨e, vs.foldl (· + ·) t⟩ := by
  induction h generalizing t with
  | nil => exact .nil
  | cons hs hd hn _ ih =>
    refine .cons hs rfl ?_ (ih _)
    simp only [PsumIterator.cursor, PsumIterator.next, hd, hn, ok_bind, pure_eq_ok]

end partialSums

theorem getElem?_partialSums [Add α] (t : α) (vs : List α) (i : ℕ) :
    (partialSums t vs)[i]? = vs[i]?.map fun _ => (vs.take i).foldl (· + ·) t := by
  induction vs generalizing t i with
  | nil => rfl
  | cons v vs ih =>
    cases i with
    | zero => rfl
    | succ i => exact ih (t + v) i

/-! ### Sums of machine words -/

theorem foldl_add_shift (t d : UInt64) (vs : List UInt64) :
    vs.foldl (· + ·) (t + d) = vs.foldl (· + ·) t + d := by
  induction vs generalizing t with
  | nil => rfl
  | cons v vs ih =>
    rw [List.foldl_cons, List.foldl_cons, ← ih, UInt64.add_assoc, UInt64.add_assoc,
      UInt64.add_comm d]

/-- A change of the initial value changes every element alike. -/
theorem partialSums_shift (t d : UInt64) (vs : List UInt64) :
    partialSums (t + d) vs = (partialSums t vs).map (· + d) := by
  induction vs generalizing t with
  | nil => rfl
  | cons v vs ih =>
    rw [partialSums_cons, partialSums_cons, List.map_cons, ← ih, UInt64.add_assoc,
      UInt64.add_assoc, UInt64.add_comm d]

theorem toNat_foldl_add {t : UInt64} {vs : List UInt64}
    (h : t.toNat + (vs.map UInt64.toNat).sum < 2 ^ 64) :
    (vs.foldl (· + ·) t).toNat = t.toNat + (vs.map UInt64.toNat).sum := by
  induction vs generalizing t with
  | nil => rfl
  | cons v vs ih =>
    rw [List.map_cons, List.sum_cons] at h ⊢
    have hadd := u64_toNat_add (a := t) (b := v) (by omega)
    rw [List.foldl_cons, ih (by omega), hadd, Nat.add_assoc]

/-- Without overflow no element exceeds the sum behind it. -/
theorem le_of_mem_partialSums {t e : UInt64} {vs : List UInt64}
    (h : t.toNat + (vs.map UInt64.toNat).sum < 2 ^ 64) (he : e ∈ partialSums t vs) :
    e.toNat ≤ t.toNat + (vs.map UInt64.toNat).sum := by
  induction vs generalizing t with
  | nil => simp at he
  | cons v vs ih =>
    rw [List.map_cons, List.sum_cons] at h ⊢
    have hadd := u64_toNat_add (a := t) (b := v) (by omega)
    rcases List.mem_cons.mp he with rfl | he
    · omega
    · have := ih (by omega) he
      omega

theorem foldl_add_eq (t : UInt64) (vs : List UInt64) :
    vs.foldl (· + ·) t = t + vs.foldl (· + ·) 0 := by
  rw [← UInt64.zero_add t, foldl_add_shift, UInt64.zero_add, UInt64.add_comm]

/-! ### Back and forth -/

section backward
variable {c : BiCursor Fault σ UInt64} {pos : ℕ → σ} {vs : List UInt64}

/-- The iterator in front of the `i`th number, when the sum starts at `t`. -/
def psumPos (pos : ℕ → σ) (vs : List UInt64) (t : UInt64) (i : ℕ) : PsumIterator σ UInt64 :=
  ⟨pos i, (vs.take i).foldl (· + ·) t⟩

theorem sum_take_succ {i : ℕ} {v : UInt64} (hv : vs[i]? = some v) (t : UInt64) :
    (vs.take (i + 1)).foldl (· + ·) t = (vs.take i).foldl (· + ·) t + v := by
  rw [List.take_add_one, hv, Option.toList_some, List.foldl_append]
  rfl

/-- Over an exact range the view is exact too, whatever sum it starts at. -/
theorem exact_psum (h : c.Exact pos vs) (t : UInt64) :
    (PsumIterator.biCursor c).Exact (psumPos pos vs t) (partialSums t vs) where
  atEnd i hi := by
    rw [length_partialSums] at hi ⊢
    exact h.atEnd i hi
  atBegin i hi := by
    rw [length_partialSums] at hi
    exact h.atBegin i hi
  deref i a ha := by
    rw [getElem?_partialSums] at ha
    obtain ⟨-, -, rfl⟩ := Option.map_eq_some_iff.mp ha
    rfl
  next i hi := by
    rw [length_partialSums] at hi
    have hv := List.getElem?_eq_getElem hi
    simp only [PsumIterator.biCursor, PsumIterator.cursor, PsumIterator.next, psumPos,
      h.deref i _ hv, h.next i hi, ok_bind, pure_eq_ok, sum_take_succ hv]
  prev i hi := by
    rw [length_partialSums] at hi
    have hv := List.getElem?_eq_getElem hi
    simp only [PsumIterator.biCursor, PsumIterator.prev, psumPos, h.deref i _ hv, h.prev i hi,
      ok_bind, pure_eq_ok, sum_take_succ hv, UInt64.add_sub_cancel]

/-- The end that the view makes has the sum of a view that starts lower by the total. -/
theorem cend_eq (init : UInt64) : PsumView.cend ⟨pos 0, init⟩ (pos vs.length) =
    psumPos pos vs (init - vs.foldl (· + ·) 0) vs.length := by
  rw [psumPos, List.take_length, foldl_add_eq, UInt64.sub_add_cancel]
  rfl

/-- The view steps forward and back over the same sums: `uend` is the underlying end. -/
structure PsumView.Reversible (c : BiCursor Fault σ UInt64) (pos : ℕ → σ) (vs : List UInt64)
    (view : PsumView σ UInt64) (uend : σ) : Prop where
  forward : ∀ n ≥ vs.length,
    (PsumIterator.biCursor c).elements n view.begin = .ok (partialSums view.init vs)
  undo : ∀ i < vs.length, ∀ psum, ∃ it, (PsumIterator.biCursor c).next ⟨pos i, psum⟩ = .ok it ∧
    (PsumIterator.biCursor c).prev it = .ok ⟨pos i, psum⟩
  backward : ∀ n ≥ vs.length,
    (PsumIterator.biCursor c).backward n (view.cend uend) = .ok (partialSums view.init vs).reverse

theorem backward_cend (h : c.Exact pos vs) (init : UInt64) {n : ℕ} (hn : vs.length ≤ n) :
    (PsumIterator.biCursor c).backward n (PsumView.cend ⟨pos 0, init⟩ (pos vs.length)) =
      .ok (partialSums (init - vs.foldl (· + ·) 0) vs).reverse := by
  have hexact := exact_psum h (init - vs.foldl (· + ·) 0)
  have hback := hexact.backward (List.append_nil _).symm (n := n) (by rwa [length_partialSums])
  rw [length_partialSums] at hback
  rw [cend_eq, hback]

/-- The walk from the end is the reverse exactly when the numbers add up to nothing: the end is
made with the initial sum instead of the last one. -/
theorem reversible_iff (h : c.Exact pos vs) (init : UInt64) :
    PsumView.Reversible c pos vs ⟨pos 0, init⟩ (pos vs.length) ↔ vs.foldl (· + ·) 0 = 0 := by
  constructor
  · intro hrev
    have hback := backward_cend h init (Nat.le_refl _)
    rw [hrev.backward _ (Nat.le_refl _)] at hback
    have hsums := List.reverse_injective (Except.ok.inj hback)
    cases vs with
    | nil => rfl
    | cons v vs =>
      rw [partialSums_cons, partialSums_cons] at hsums
      have hinit : init = init - (v :: vs).foldl (· + ·) 0 := (List.cons.inj hsums).1
      have hadd : init + (v :: vs).foldl (· + ·) 0 = init := by
        conv_lhs => rw [hinit]
        exact UInt64.sub_add_cancel _ _
      exact UInt64.add_eq_left.mp hadd
  · intro hzero
    have hexact := exact_psum h init
    refine ⟨fun n hn => ?_, fun i hi psum => ?_, fun n hn => ?_⟩
    · exact hexact.visits.elements n (by rwa [length_partialSums])
    · have hv := h.deref i _ (List.getElem?_eq_getElem hi)
      refine ⟨⟨pos (i + 1), psum + vs[i]⟩, ?_, ?_⟩
      · simp only [PsumIterator.biCursor, PsumIterator.cursor, PsumIterator.next, hv, h.next i hi,
          ok_bind, pure_eq_ok]
      · simp only [PsumIterator.biCursor, PsumIterator.prev, hv, h.prev i hi, ok_bind, pure_eq_ok,
          UInt64.add_sub_cancel]
    · rw [backward_cend h init hn, hzero, UInt64.sub_zero]

/-- Numbers whose sum wraps to nothing. -/
theorem reversible_wrapping :
    PsumView.Reversible (BiCursor.ofList .outOfBounds [1, 0xffffffffffffffff]) id
      [1, 0xffffffffffffffff] ⟨0, 5⟩ 2 :=
  (reversible_iff (BiCursor.exact_ofList .outOfBounds [1, 0xffffffffffffffff]) 5).mpr (by decide)

/-- From the end, a single one is seen below the initial sum. -/
theorem not_reversible_one : ¬ ∀ (vs : List UInt64) (init : UInt64),
    PsumView.Reversible (BiCursor.ofList .outOfBounds vs) id vs ⟨0, init⟩ vs.length := by
  intro h
  have hback := (h [1] 0).backward 1 (Nat.le_refl _)
  revert hback
  decide

end backward
end JevMachO

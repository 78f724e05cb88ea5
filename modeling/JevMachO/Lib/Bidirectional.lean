import JevMachO.Lib.Cursor
import Mathlib.Data.List.Induction

/-! Cursors that also step back. A cursor is exact over a list when it has a position in front of
each element and one behind the last, and both kinds of steps lead from one to the next. -/
namespace Lib

variable {ε σ α : Type}

structure BiCursor (ε σ α : Type) extends Cursor ε σ α where
  prev : σ → Except ε σ
  atBegin : σ → Except ε Bool

namespace BiCursor

/-- `for (; last != first;) visit(*--last);`, as the elements visited. -/
def backward (c : BiCursor ε σ α) : ℕ → σ → Except ε (List α)
  | n, s => do
    if ← c.atBegin s then return []
    match n with
    | 0 => throw c.stuck
    | n + 1 =>
      let s ← c.prev s
      let a ← c.deref s
      return a :: (← backward c n s)

structure Exact (c : BiCursor ε σ α) (pos : ℕ → σ) (as : List α) : Prop where
  atEnd : ∀ i ≤ as.length, c.atEnd (pos i) = .ok (decide (i = as.length))
  atBegin : ∀ i ≤ as.length, c.atBegin (pos i) = .ok (decide (i = 0))
  deref : ∀ i a, as[i]? = some a → c.deref (pos i) = .ok a
  next : ∀ i < as.length, c.next (pos i) = .ok (pos (i + 1))
  prev : ∀ i < as.length, c.prev (pos (i + 1)) = .ok (pos i)

namespace Exact

variable {c : BiCursor ε σ α} {pos : ℕ → σ} {as bs cs ds : List α}

theorem deref_length (h : c.Exact pos as) (bs cs : List α) {a : α} (heq : as = bs ++ a :: cs) :
    c.deref (pos bs.length) = .ok a := by
  refine h.deref _ _ ?_
  rw [heq, List.getElem?_append_right (Nat.le_refl _), Nat.sub_self]
  rfl

theorem walks (h : c.Exact pos as) (bs cs ds : List α) (heq : as = bs ++ cs ++ ds) :
    c.Walks (pos bs.length) cs (pos (bs ++ cs).length) := by
  induction cs generalizing bs with
  | nil =>
    rw [List.append_nil]
    exact .nil
  | cons a cs ih =>
    have hlt : bs.length < as.length := by
      rw [heq]
      simp only [List.length_append, List.length_cons]
      omega
    have hderef : c.deref (pos bs.length) = .ok a :=
      h.deref_length bs (cs ++ ds) (by rw [heq, List.append_assoc, List.cons_append])
    have hrest := ih (bs ++ [a]) (by rw [heq]; simp)
    rw [List.length_append, List.length_singleton, List.append_assoc, List.singleton_append]
      at hrest
    refine .cons ?_ hderef (h.next _ hlt) hrest
    rw [h.atEnd _ hlt.le, decide_eq_false hlt.ne]

theorem visits (h : c.Exact pos as) : c.Visits (pos 0) as := by
  have hwalks := h.walks [] as [] (by simp)
  refine hwalks.visits ?_
  rw [List.nil_append, h.atEnd _ (Nat.le_refl _), decide_eq_true rfl]

/-- Walking back from a position sees what is before it in reverse order. -/
theorem backward (h : c.Exact pos as) (heq : as = bs ++ cs) {n : ℕ} (hn : bs.length ≤ n) :
    c.backward n (pos bs.length) = .ok bs.reverse := by
  induction bs using List.reverseRecOn generalizing cs n with
  | nil =>
    unfold BiCursor.backward
    rw [List.length_nil, h.atBegin 0 (Nat.zero_le _)]
    rfl
  | append_singleton bs a ih =>
    rw [List.length_append, List.length_singleton] at hn ⊢
    obtain ⟨n, rfl⟩ := Nat.exists_eq_add_of_le' (Nat.le_of_add_left_le hn)
    have hlt : bs.length < as.length := by
      rw [heq]
      simp only [List.length_append, List.length_singleton]
      omega
    have hderef : c.deref (pos bs.length) = .ok a :=
      h.deref_length bs cs (by rw [heq, List.append_assoc, List.singleton_append])
    have hrest : c.backward n (pos bs.length) = .ok bs.reverse :=
      ih (show as = bs ++ ([a] ++ cs) by rw [heq, List.append_assoc]) (by omega)
    unfold BiCursor.backward
    rw [h.atBegin _ hlt, decide_eq_false (Nat.succ_ne_zero _)]
    simp only [ok_bind, Bool.false_eq_true, if_false, h.prev _ hlt, hderef, hrest,
      pure_eq_ok, List.reverse_append, List.reverse_singleton, List.singleton_append]

end Exact

/-! ### Random access -/

/-- The indices of a list; steps out of it are reported as `outside`. -/
def ofList (outside : ε) (as : List α) : BiCursor ε ℕ α where
  atEnd i := .ok (decide (i = as.length))
  deref i := match as[i]? with
    | some a => .ok a
    | none => .error outside
  next i := if i < as.length then .ok (i + 1) else .error outside
  stuck := outside
  prev i := if 0 < i then .ok (i - 1) else .error outside
  atBegin i := .ok (decide (i = 0))

theorem exact_ofList (outside : ε) (as : List α) : (ofList outside as).Exact id as where
  atEnd _ _ := rfl
  atBegin _ _ := rfl
  deref i a h := by simp only [ofList, id_eq, h]
  next i h := if_pos h
  prev i _ := by simp [ofList]

end BiCursor
end Lib

import JevMachO.Lib.Bidirectional
import JevMachO.MachO.FunctionStarts

/-! The search for the last offset that is not behind another one, over any range that can be
stepped back. On an ascending list it is the predecessor. -/
namespace JevMachO
open Lib

namespace OffsetSearch

variable {σ : Type}

/-- `func_start_for_offsets` over a range that begins at `begin`; `n` bounds the search. -/
def funcStartForOffsets (offs : BiCursor Fault σ UInt64) (n : ℕ) (begin : σ) (off : UInt64) :
    Exec UInt64 := do
  if ← offs.atEnd begin then return 0
  if off < (← offs.deref begin) then return 0
  let (followingFunc, lastOffSeen) ← offs.findIfWith
    (fun _ currOff => .ok (decide (off < currOff), currOff)) n begin 0
  if ← offs.atEnd followingFunc then return lastOffSeen
  let ourFunc ← offs.prev followingFunc
  offs.deref ourFunc

def leb128Cursor (decode : DecodeUleb128) (atBegin : LEB128Iterator → Exec Bool) :
    BiCursor Fault LEB128Iterator UInt64 where
  toCursor := LEB128Iterator.cursor decode
  prev := LEB128Iterator.prev decode
  atBegin

/-- The search of the load command is the one over its view. -/
theorem functionStarts_eq (decode : DecodeUleb128) (atBegin : LEB128Iterator → Exec Bool)
    (off : UInt64) (offs : FunctionStarts.OffsetView) :
    FunctionStarts.funcStartForOffsets decode off offs =
      funcStartForOffsets (PsumIterator.biCursor (leb128Cursor decode atBegin))
        offs.uview.buf.length offs.begin off := rfl

/-! ### Ascending offsets -/

variable {off : UInt64} {as : List UInt64}

theorem exists_split (hsorted : as.Pairwise (· ≤ ·)) (off : UInt64) :
    ∃ xs ys, as = xs ++ ys ∧ (∀ x ∈ xs, x ≤ off) ∧ ∀ y ∈ ys, off < y := by
  induction hsorted with
  | nil => exact ⟨[], [], rfl, nofun, nofun⟩
  | @cons a as hle _ ih =>
    by_cases ha : a ≤ off
    · obtain ⟨xs, ys, rfl, hxs, hys⟩ := ih
      exact ⟨a :: xs, ys, rfl, List.forall_mem_cons.mpr ⟨ha, hxs⟩, hys⟩
    · have hlt : off < a := UInt64.not_le.mp ha
      refine ⟨[], a :: as, rfl, nofun, List.forall_mem_cons.mpr ⟨hlt, fun y hy => ?_⟩⟩
      exact UInt64.lt_of_lt_of_le hlt (hle y hy)

theorem isGreatest_of_split {xs ys : List UInt64} {r : UInt64}
    (hsorted : (xs ++ [r] ++ ys).Pairwise (· ≤ ·)) (hxs : ∀ x ∈ xs ++ [r], x ≤ off)
    (hys : ∀ y ∈ ys, off < y) : IsGreatest {x | x ∈ xs ++ [r] ++ ys ∧ x ≤ off} r := by
  have hr : r ∈ xs ++ [r] := List.mem_append_right _ (List.mem_singleton_self r)
  refine ⟨⟨List.mem_append_left _ hr, hxs r hr⟩, ?_⟩
  rintro x ⟨hx, hle⟩
  rcases List.mem_append.mp hx with hx | hx
  · rcases List.mem_append.mp hx with hx | hx
    · have hpairs := (List.pairwise_append.mp (List.pairwise_append.mp hsorted).1).2.2
      exact hpairs x hx r (List.mem_singleton_self r)
    · rw [List.mem_singleton.mp hx]
      exact UInt64.le_refl r
  · exact absurd hle (UInt64.not_le.mpr (hys x hx))

section search
variable {c : BiCursor Fault σ UInt64} {pos : ℕ → σ} {xs ys : List UInt64} {r : UInt64} {n : ℕ}

theorem findIfWith_split (h : c.Exact pos (xs ++ [r] ++ ys)) (hxs : ∀ x ∈ xs ++ [r], x ≤ off)
    (n : ℕ) :
    c.findIfWith (fun _ currOff => .ok (decide (off < currOff), currOff))
        (n + (xs ++ [r]).length) (pos 0) 0 =
      c.findIfWith (fun _ currOff => .ok (decide (off < currOff), currOff)) n
        (pos (xs ++ [r]).length) r := by
  have hwalks := h.walks [] (xs ++ [r]) ys rfl
  have hq : ∀ x ∈ xs ++ [r], decide (off < x) = false := fun x hx =>
    decide_eq_false (UInt64.not_lt.mpr (hxs x hx))
  have hfind := hwalks.findIfWith (fun x => decide (off < x)) hq n 0
  rwa [List.getLastD_concat] at hfind

theorem funcStartForOffsets_of_findIf (h : c.Exact pos (xs ++ [r] ++ ys))
    (hxs : ∀ x ∈ xs ++ [r], x ≤ off) {found : σ × UInt64}
    (hfind : c.findIfWith (fun _ currOff => .ok (decide (off < currOff), currOff)) n (pos 0) 0 =
      .ok found) :
    funcStartForOffsets c n (pos 0) off = (do
      if ← c.atEnd found.1 then return found.2
      let ourFunc ← c.prev found.1
      c.deref ourFunc) := by
  obtain ⟨front, rest, hcons⟩ := List.exists_cons_of_ne_nil (List.concat_ne_nil r xs)
  have hbegin : c.atEnd (pos 0) = .ok false := by
    rw [h.atEnd 0 (Nat.zero_le _), decide_eq_false]
    simp
  have hfront : c.deref (pos 0) = .ok front :=
    h.deref_length [] (rest ++ ys) (by rw [hcons]; rfl)
  have hle : ¬off < front := UInt64.not_lt.mpr (hxs front (hcons ▸ List.mem_cons_self))
  simp only [funcStartForOffsets, hbegin, hfront, hfind, ok_bind, if_neg hle]
  rfl

/-- Both ways out of the search give the same: the state it recorded, and the element behind
which it stopped. -/
theorem funcStartForOffsets_split (h : c.Exact pos (xs ++ [r] ++ ys))
    (hxs : ∀ x ∈ xs ++ [r], x ≤ off) (hys : ∀ y ∈ ys, off < y)
    (hn : (xs ++ [r] ++ ys).length ≤ n) : funcStartForOffsets c n (pos 0) off = .ok r := by
  rw [List.length_append] at hn
  obtain ⟨m, rfl⟩ := Nat.exists_eq_add_of_le' (Nat.le_of_add_right_le hn)
  have hm : ys.length ≤ m := by omega
  have hfind := findIfWith_split h hxs m
  have hat := h.atEnd (xs ++ [r]).length (by simp)
  cases ys with
  | nil =>
    rw [decide_eq_true (by simp)] at hat
    conv_rhs at hfind => unfold Cursor.findIfWith
    simp only [hat, ok_bind, if_true, pure_eq_ok] at hfind
    rw [funcStartForOffsets_of_findIf h hxs hfind]
    simp only [hat, ok_bind, if_true, pure_eq_ok]
  | cons y ys =>
    rw [decide_eq_false (by simp)] at hat
    obtain ⟨m, rfl⟩ := Nat.exists_eq_add_of_le' (Nat.zero_lt_of_lt hm)
    have hy : c.deref (pos (xs ++ [r]).length) = .ok y := h.deref_length _ ys rfl
    have hlt : decide (off < y) = true := decide_eq_true (hys y List.mem_cons_self)
    conv_rhs at hfind => unfold Cursor.findIfWith
    simp only [hat, hy, hlt, ok_bind, Bool.false_eq_true, if_false, if_true, pure_eq_ok] at hfind
    rw [funcStartForOffsets_of_findIf h hxs hfind]
    have hprev : c.prev (pos (xs ++ [r]).length) = .ok (pos xs.length) := by
      rw [List.length_append, List.length_singleton]
      exact h.prev _ (by simp)
    have hr : c.deref (pos xs.length) = .ok r := h.deref_length xs (y :: ys) (by simp)
    simp only [hat, hprev, hr, ok_bind, Bool.false_eq_true, if_false]

theorem funcStartForOffsets_before (h : c.Exact pos as) (hbefore : ∀ x ∈ as.head?, off < x)
    (n : ℕ) : funcStartForOffsets c n (pos 0) off = .ok 0 := by
  cases as with
  | nil =>
    have hend : c.atEnd (pos 0) = .ok true := h.atEnd 0 (Nat.le_refl _)
    simp only [funcStartForOffsets, hend, ok_bind, if_true, pure_eq_ok]
  | cons a as =>
    have hbegin : c.atEnd (pos 0) = .ok false := h.atEnd 0 (Nat.zero_le _)
    have hfront : c.deref (pos 0) = .ok a := h.deref_length [] as rfl
    have hlt : off < a := hbefore a rfl
    simp only [funcStartForOffsets, hbegin, hfront, ok_bind, Bool.false_eq_true, if_false,
      if_pos hlt, pure_eq_ok]

/-- The greatest offset that is at most the one asked for, and 0 when there is none. -/
theorem funcStartForOffsets_greatest (h : c.Exact pos as) (hsorted : as.Pairwise (· ≤ ·))
    (off : UInt64) (hn : as.length ≤ n) :
    ((∀ x ∈ as.head?, off < x) → funcStartForOffsets c n (pos 0) off = .ok 0) ∧
    (∀ x ∈ as.head?, x ≤ off → ∃ r, funcStartForOffsets c n (pos 0) off = .ok r ∧
      IsGreatest {x | x ∈ as ∧ x ≤ off} r) := by
  refine ⟨fun hbefore => funcStartForOffsets_before h hbefore n, fun x hx hle => ?_⟩
  obtain ⟨xs, ys, rfl, hxs, hys⟩ := exists_split hsorted off
  rcases List.eq_nil_or_concat' xs with rfl | ⟨xs, r, rfl⟩
  · exact absurd hle (UInt64.not_le.mpr (hys x (List.mem_of_mem_head? hx)))
  · exact ⟨r, funcStartForOffsets_split h hxs hys hn, isGreatest_of_split hsorted hxs hys⟩

theorem funcStartForOffsets_greatest_repeated :
    ∃ r, funcStartForOffsets (BiCursor.ofList .outOfBounds [2, 5, 5, 9]) 4 0 7 = .ok r ∧
      IsGreatest {x | x ∈ [2, 5, 5, 9] ∧ x ≤ 7} r :=
  (funcStartForOffsets_greatest (BiCursor.exact_ofList .outOfBounds [2, 5, 5, 9]) (by decide) 7
    (by decide)).2 2 rfl (by decide)

end search

end OffsetSearch
end JevMachO

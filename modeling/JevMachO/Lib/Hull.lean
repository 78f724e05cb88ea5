import Mathlib.Order.Bounds.Defs
import Mathlib.Data.Set.Image

/-! Hulls: an item whose lower end is the least, and whose upper end the greatest, of a set of
items. A hull depends on the set only, not on the order in which it was found. -/
namespace Lib

variable {ι α : Type} [LE α]

section Bounds
variable [Std.IsPreorder α] {s t : Set α} {a b : α}

theorem isLeast_union_left (ha : IsLeast s a) (hb : IsLeast t b) (hle : a ≤ b) :
    IsLeast (s ∪ t) a := by
  refine ⟨.inl ha.1, ?_⟩
  rintro x (hx | hx)
  · exact ha.2 hx
  · exact Std.le_trans hle (hb.2 hx)

theorem isGreatest_union_left (ha : IsGreatest s a) (hb : IsGreatest t b) (hle : b ≤ a) :
    IsGreatest (s ∪ t) a := by
  refine ⟨.inl ha.1, ?_⟩
  rintro x (hx | hx)
  · exact ha.2 hx
  · exact Std.le_trans (hb.2 hx) hle

end Bounds

variable {lo hi : ι → α} {S T : Set ι} {r s u : ι}

structure IsHull (lo hi : ι → α) (S : Set ι) (r : ι) : Prop where
  least : IsLeast (Set.image lo S) (lo r)
  greatest : IsGreatest (Set.image hi S) (hi r)

namespace IsHull

theorem unique [Std.IsPartialOrder α] (hr : IsHull lo hi S r) (hs : IsHull lo hi S s) :
    lo r = lo s ∧ hi r = hi s := by
  constructor
  · exact Std.le_antisymm (hr.least.2 hs.least.1) (hs.least.2 hr.least.1)
  · exact Std.le_antisymm (hs.greatest.2 hr.greatest.1) (hr.greatest.2 hs.greatest.1)

variable [Std.IsPreorder α]

theorem singleton (lo hi : ι → α) (r : ι) : IsHull lo hi {r} r := by
  refine ⟨⟨⟨r, rfl, rfl⟩, ?_⟩, ⟨⟨r, rfl, rfl⟩, ?_⟩⟩
  · rintro _ ⟨s, rfl, rfl⟩
    exact Std.le_refl _
  · rintro _ ⟨s, rfl, rfl⟩
    exact Std.le_refl _

/-- The lower of the lower ends and the upper of the upper ends. -/
theorem union (hr : IsHull lo hi S r) (hs : IsHull lo hi T s)
    (hlo : lo u = lo r ∧ lo r ≤ lo s ∨ lo u = lo s ∧ lo s ≤ lo r)
    (hhi : hi u = hi r ∧ hi s ≤ hi r ∨ hi u = hi s ∧ hi r ≤ hi s) : IsHull lo hi (S ∪ T) u := by
  constructor
  · rw [Set.image_union]
    rcases hlo with ⟨heq, hle⟩ | ⟨heq, hle⟩
    · rw [heq]
      exact isLeast_union_left hr.least hs.least hle
    · rw [heq, Set.union_comm]
      exact isLeast_union_left hs.least hr.least hle
  · rw [Set.image_union]
    rcases hhi with ⟨heq, hle⟩ | ⟨heq, hle⟩
    · rw [heq]
      exact isGreatest_union_left hr.greatest hs.greatest hle
    · rw [heq, Set.union_comm]
      exact isGreatest_union_left hs.greatest hr.greatest hle

end IsHull
end Lib

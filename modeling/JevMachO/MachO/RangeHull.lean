import JevMachO.Lib.Hull
import JevMachO.MachO.SegmentRanges

/-! What collapsing address ranges gives: the hull of those that are not null. -/
namespace JevMachO
open Lib

namespace AddrRange

/-- `AddrRange::collapseRange` of ranges that are at hand. -/
def collapseRange (rng : List AddrRange) : AddrRange := rng.foldl union null

/-- A range that the constructors can make. -/
def Ok (r : AddrRange) : Prop := r = null ∨ r.Valid

/-- The hull of the ranges that are not null, if there are any, and null otherwise. -/
inductive Spans (S : Set AddrRange) (r : AddrRange) : Prop where
  | null (hnull : r = .null) (hall : ∀ s ∈ S, s = .null)
  | hull (hvalid : r.Valid) (hhull : IsHull AddrRange.min AddrRange.max {s ∈ S | s ≠ .null} r)

variable {r s : AddrRange} {S T : Set AddrRange} {rng : List AddrRange}

theorem isNull_iff : r.isNull = true ↔ r = null := by
  rw [isNull, Bool.and_eq_true, beq_iff_eq, beq_iff_eq]
  constructor
  · rintro ⟨hmin, hmax⟩
    cases r
    exact congrArg₂ AddrRange.mk hmin hmax
  · rintro rfl
    exact ⟨rfl, rfl⟩

theorem Valid.ne_null (h : r.Valid) : r ≠ null := by
  rintro rfl
  unfold Valid at h
  exact absurd h (by decide)

theorem union_null (r : AddrRange) : r.union null = r := rfl

theorem null_union (r : AddrRange) : null.union r = r := by
  unfold union
  by_cases hr : r.isNull = true
  · rw [if_pos hr]
    exact (isNull_iff.mp hr).symm
  · rw [if_neg hr, if_pos (isNull_iff.mpr rfl)]

theorem union_of_valid (hr : r.Valid) (hs : s.Valid) : r.union s =
    ⟨if s.min < r.min then s.min else r.min, if r.max < s.max then s.max else r.max⟩ := by
  rw [union, hr.not_isNull, hs.not_isNull, if_neg Bool.false_ne_true, if_neg Bool.false_ne_true]

theorem min_union (hr : r.Valid) (hs : s.Valid) :
    (r.union s).min = r.min ∧ r.min ≤ s.min ∨ (r.union s).min = s.min ∧ s.min ≤ r.min := by
  rw [union_of_valid hr hs]
  dsimp only
  split_ifs with hlt
  · exact .inr ⟨rfl, Std.le_of_lt hlt⟩
  · exact .inl ⟨rfl, Std.not_lt.mp hlt⟩

theorem max_union (hr : r.Valid) (hs : s.Valid) :
    (r.union s).max = r.max ∧ s.max ≤ r.max ∨ (r.union s).max = s.max ∧ r.max ≤ s.max := by
  rw [union_of_valid hr hs]
  dsimp only
  split_ifs with hlt
  · exact .inr ⟨rfl, Std.le_of_lt hlt⟩
  · exact .inl ⟨rfl, Std.not_lt.mp hlt⟩

theorem Valid.union (hr : r.Valid) (hs : s.Valid) : (r.union s).Valid := by
  unfold Valid at hr hs ⊢
  rcases min_union hr hs with ⟨hmin, hle⟩ | ⟨hmin, hle⟩
  · rw [hmin]
    rcases max_union hr hs with ⟨hmax, -⟩ | ⟨hmax, hle'⟩
    · rw [hmax]
      exact hr
    · rw [hmax]
      exact Std.le_trans hr hle'
  · rw [hmin]
    rcases max_union hr hs with ⟨hmax, hle'⟩ | ⟨hmax, -⟩
    · rw [hmax]
      exact Std.le_trans hs hle'
    · rw [hmax]
      exact hs

namespace Spans

theorem empty : Spans ∅ .null := .null rfl fun _ hs => absurd hs (Set.notMem_empty _)

theorem singleton (h : r.Ok) : Spans {r} r := by
  rcases h with rfl | hr
  · exact .null rfl fun s hs => hs
  · refine .hull hr ?_
    have hset : {s ∈ ({r} : Set AddrRange) | s ≠ AddrRange.null} = {r} := by
      ext s
      exact ⟨fun hs => hs.1, fun hs => ⟨hs, by rw [hs]; exact hr.ne_null⟩⟩
    rw [hset]
    exact IsHull.singleton _ _ r

/-- Ranges that are null do not count. -/
theorem nonNull_union (hall : ∀ s ∈ T, s = AddrRange.null) :
    {s ∈ S ∪ T | s ≠ AddrRange.null} = {s ∈ S | s ≠ AddrRange.null} := by
  ext s
  constructor
  · rintro ⟨hs | hs, hne⟩
    · exact ⟨hs, hne⟩
    · exact absurd (hall s hs) hne
  · exact fun hs => ⟨.inl hs.1, hs.2⟩

theorem union (hr : Spans S r) (hs : Spans T s) : Spans (S ∪ T) (r.union s) := by
  cases hr with
  | null hnull hall =>
    rw [hnull, null_union]
    cases hs with
    | null hnull' hall' =>
      exact .null hnull' fun x hx => hx.elim (hall x) (hall' x)
    | hull hvalid hhull =>
      refine .hull hvalid ?_
      rwa [Set.union_comm, nonNull_union hall]
  | hull hvalid hhull =>
    cases hs with
    | null hnull hall =>
      rw [hnull, union_null]
      refine .hull hvalid ?_
      rwa [nonNull_union hall]
    | hull hvalid' hhull' =>
      refine .hull (hvalid.union hvalid') ?_
      have hset : {x ∈ S ∪ T | x ≠ AddrRange.null} =
          {x ∈ S | x ≠ AddrRange.null} ∪ {x ∈ T | x ≠ AddrRange.null} := Set.sep_union
      rw [hset]
      exact hhull.union hhull' (min_union hvalid hvalid') (max_union hvalid hvalid')

/-- What a collapsed range is depends on the set of the ranges. -/
theorem unique (hr : Spans S r) (hs : Spans S s) : r = s := by
  cases hr with
  | null hnull hall =>
    cases hs with
    | null hnull' _ => exact hnull.trans hnull'.symm
    | hull _ hhull =>
      obtain ⟨x, hx, -⟩ := hhull.least.1
      exact absurd (hall x hx.1) hx.2
  | hull _ hhull =>
    cases hs with
    | null _ hall =>
      obtain ⟨x, hx, -⟩ := hhull.least.1
      exact absurd (hall x hx.1) hx.2
    | hull _ hhull' =>
      obtain ⟨hmin, hmax⟩ := hhull.unique hhull'
      cases r
      cases s
      exact congrArg₂ AddrRange.mk hmin hmax

/-- No range ends behind the collapsed one. -/
theorem max_le (h : Spans S r) (hs : s ∈ S) (hvalid : s.Valid) : s.max ≤ r.max := by
  cases h with
  | null _ hall => exact absurd (hall s hs) hvalid.ne_null
  | hull _ hhull => exact hhull.greatest.2 ⟨s, ⟨hs, hvalid.ne_null⟩, rfl⟩

end Spans

theorem spans_foldl (hs : Spans S s) (h : ∀ r ∈ rng, r.Ok) :
    Spans (S ∪ {r | r ∈ rng}) (rng.foldl union s) := by
  induction rng generalizing S s with
  | nil => simpa using hs
  | cons r rng ih =>
    rw [List.forall_mem_cons] at h
    have hrest := ih (hs.union (.singleton h.1)) h.2
    have hset : S ∪ {x | x ∈ r :: rng} = S ∪ {r} ∪ {x | x ∈ rng} := by
      ext x
      simp only [Set.mem_union, Set.mem_ofPred_eq, List.mem_cons, Set.mem_singleton_iff, or_assoc]
    rw [List.foldl_cons, hset]
    exact hrest

theorem spans_collapseRange (h : ∀ r ∈ rng, r.Ok) : Spans {r | r ∈ rng} (collapseRange rng) := by
  have hspans := spans_foldl .empty h
  rwa [Set.empty_union] at hspans

theorem isNull_collapseRange_iff (h : ∀ r ∈ rng, r.Ok) :
    (collapseRange rng).isNull = true ↔ ∀ r ∈ rng, r.isNull = true := by
  simp only [isNull_iff]
  cases spans_collapseRange h with
  | null hnull hall => exact iff_of_true hnull hall
  | hull hvalid hhull =>
    obtain ⟨x, hx, -⟩ := hhull.least.1
    exact iff_of_false hvalid.ne_null fun hall => hx.2 (hall x hx.1)

theorem isHull_collapseRange (h : ∀ r ∈ rng, r.Ok) (hne : ∃ r ∈ rng, r.isNull = false) :
    IsHull AddrRange.min AddrRange.max {r | r ∈ rng ∧ r.isNull = false} (collapseRange rng) := by
  have hset : {r | r ∈ rng ∧ r.isNull = false} = {r ∈ {r | r ∈ rng} | r ≠ null} := by
    ext r
    exact and_congr_right fun _ => by rw [← Bool.not_eq_true, isNull_iff]
  rw [hset]
  cases spans_collapseRange h with
  | null hnull hall =>
    obtain ⟨r, hr, hr'⟩ := hne
    rw [isNull_iff.mpr (hall r hr)] at hr'
    cases hr'
  | hull hvalid hhull => exact hhull

/-- The order and the number of times a range is there do not matter. -/
theorem collapseRange_congr {rng' : List AddrRange} (h : ∀ r ∈ rng, r.Ok)
    (hmem : ∀ r, r ∈ rng' ↔ r ∈ rng) : collapseRange rng' = collapseRange rng := by
  have hspans : Spans {r | r ∈ rng'} (collapseRange rng') :=
    spans_collapseRange fun r hr => h r ((hmem r).mp hr)
  have hset : {r | r ∈ rng'} = {r | r ∈ rng} := Set.ext hmem
  rw [hset] at hspans
  exact hspans.unique (spans_collapseRange h)

theorem union_collapseRange {xs ys : List AddrRange} (h : ∀ r ∈ rng, r.Ok)
    (hmem : ∀ r, r ∈ rng ↔ r ∈ xs ∨ r ∈ ys) :
    (collapseRange xs).union (collapseRange ys) = collapseRange rng := by
  have hxs : Spans {r | r ∈ xs} (collapseRange xs) :=
    spans_collapseRange fun r hr => h r ((hmem r).mpr (.inl hr))
  have hys : Spans {r | r ∈ ys} (collapseRange ys) :=
    spans_collapseRange fun r hr => h r ((hmem r).mpr (.inr hr))
  have hset : {r | r ∈ rng} = {r | r ∈ xs} ∪ {r | r ∈ ys} := Set.ext hmem
  have hspans := spans_collapseRange h
  rw [hset] at hspans
  exact (hxs.union hys).unique hspans

/-- Collapsing finds the hull, whatever the order, the repetitions and the grouping. -/
theorem collapseRange_hull (h : ∀ r ∈ rng, r = null ∨ r.Valid) :
    ((collapseRange rng).isNull = true ↔ ∀ r ∈ rng, r.isNull = true) ∧
    ((∃ r ∈ rng, r.isNull = false) →
      IsLeast (Set.image AddrRange.min {r | r ∈ rng ∧ r.isNull = false}) (collapseRange rng).min ∧
      IsGreatest (Set.image AddrRange.max {r | r ∈ rng ∧ r.isNull = false})
        (collapseRange rng).max) ∧
    (∀ rng', (∀ r, r ∈ rng' ↔ r ∈ rng) → collapseRange rng' = collapseRange rng) ∧
    (∀ xs ys, (∀ r, r ∈ rng ↔ r ∈ xs ∨ r ∈ ys) →
      (collapseRange xs).union (collapseRange ys) = collapseRange rng) := by
  refine ⟨isNull_collapseRange_iff h, fun hne => ?_, fun rng' hmem => collapseRange_congr h hmem,
    fun xs ys hmem => union_collapseRange h hmem⟩
  have hhull := isHull_collapseRange h hne
  exact ⟨hhull.least, hhull.greatest⟩

/-- A gap between two ranges is covered, and a null one does not count. -/
theorem collapseRange_hull_three :
    collapseRange [⟨8, 9⟩, null, ⟨2, 5⟩] = ⟨2, 9⟩ ∧
      (collapseRange [⟨8, 9⟩]).union (collapseRange [⟨2, 5⟩, null, ⟨8, 9⟩]) =
        collapseRange [⟨8, 9⟩, null, ⟨2, 5⟩] := by
  have hok : ∀ r ∈ [⟨8, 9⟩, null, ⟨2, 5⟩], r = null ∨ r.Valid := by
    intro r hr
    simp only [List.mem_cons, List.not_mem_nil, or_false] at hr
    unfold Valid
    rcases hr with rfl | rfl | rfl <;> decide
  refine ⟨by decide, (collapseRange_hull hok).2.2.2 _ _ fun r => ?_⟩
  simp only [List.mem_cons, List.not_mem_nil, or_false]
  tauto

end AddrRange

/-! ### The ranges of a Mach-O's segments -/

namespace MachO

theorem foldl_of_foldlM {range : ℕ → Exec AddrRange} {segs : List ℕ} {r₀ res : AddrRange}
    (h : segs.foldlM (fun res seg => do return AddrRange.union res (← range seg)) r₀ = .ok res) :
    ∃ rs : List AddrRange, segs.map range = rs.map Except.ok ∧
      res = rs.foldl AddrRange.union r₀ := by
  induction segs generalizing r₀ with
  | nil => exact ⟨[], rfl, (Except.ok.inj h).symm⟩
  | cons seg segs ih =>
    rw [List.foldlM_cons] at h
    obtain ⟨r₁, hr₁, h⟩ := bind_eq_ok.mp h
    obtain ⟨r, hr, hr₁⟩ := bind_eq_ok.mp hr₁
    obtain rfl := Except.ok.inj hr₁
    obtain ⟨rs, hrs, hres⟩ := ih h
    exact ⟨r :: rs, congrArg₂ List.cons hr hrs, hres⟩

end MachO
end JevMachO

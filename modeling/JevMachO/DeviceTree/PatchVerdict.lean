import JevMachO.DeviceTree.Damage

/-! What a single patch answers. Every check comes before the store, so a refused patch leaves
the image alone; an accepted one answers only if its eight bytes fit into the image. -/
namespace JevMachO
namespace DTree
open Lib

/-- Every check `process_patch` makes is passed. -/
def ChecksPass (split : SplitView) (mem : Bytes) (rootNode : ℕ) (patchSpec : Bytes) : Prop :=
  ∃ propPath propValStr prop sz,
    stringSplitViewDelimitedBy split patchSpec DT.equals = [propPath, propValStr] ∧
    DTNode.lookupProperty split mem rootNode propPath = .ok (some prop) ∧
    (sz = 4 ∨ sz = 8) ∧ DTProp.sizeRaw mem prop = .ok (UInt32.ofNat sz) ∧
    (sv2int sz propValStr).isSome

/-- The patch returns, with true exactly when every check is passed, and with the image as it
was when it returns false. -/
def AnswersRight (split : SplitView) (mem : Bytes) (rootNode : ℕ) (patchSpec : Bytes) : Prop :=
  ∃ mem' good, DT.processPatch split mem rootNode patchSpec = .ok (mem', good) ∧
    (good = true ↔ ChecksPass split mem rootNode patchSpec) ∧ (good = false → mem' = mem)

/-- Eight bytes at the data of the property the patch is accepted for are in the image. -/
def StoreFits (split : SplitView) (mem : Bytes) (p : ℕ × DTree) (spec : Bytes) : Prop :=
  ∀ a ∈ accepted split p spec, DTProp.data a.1.1 + 8 ≤ mem.length

instance (split : SplitView) (mem : Bytes) (p : ℕ × DTree) (spec : Bytes) :
    Decidable (StoreFits split mem p spec) :=
  inferInstanceAs (Decidable (∀ a ∈ accepted split p spec, _))

variable {split : SplitView} {mem : Bytes} {p : ℕ × DTree} {x : ℕ × Property} {spec : Bytes}

theorem acceptedValue_isSome {x : Property} {propValStr : Bytes} :
    (acceptedValue x propValStr).isSome ↔
      ∃ sz, (sz = 4 ∨ sz = 8) ∧ x.data.length = sz ∧ (sv2int sz propValStr).isSome := by
  unfold acceptedValue
  by_cases h4 : x.data.length = 4
  · simp [h4]
  by_cases h8 : x.data.length = 8
  · simp [h8]
  · rw [if_neg h4, if_neg h8]
    constructor
    · simp
    · rintro ⟨sz, rfl | rfl, hsz, -⟩
      · exact absurd hsz h4
      · exact absurd hsz h8

theorem Laid.checksPass_iff (h : Laid mem p) (hw : p.2.WellFormed) (split : SplitView)
    (spec : Bytes) : ChecksPass split mem p.1 spec ↔ (accepted split p spec).isSome := by
  have hfits : ∀ {x : ℕ × Property} {sz : ℕ}, x ∈ allProperties p → (sz = 4 ∨ sz = 8) →
      (DTProp.sizeRaw mem x.1 = .ok (UInt32.ofNat sz) ↔ x.2.data.length = sz) := by
    intro x sz hx hsz
    rw [h.sizeRaw_eq hx, Except.ok.injEq]
    exact sizeWord_eq_iff x.2 (by omega)
  constructor
  · rintro ⟨propPath, propValStr, prop, sz, hsplit, hprop, hsz, hraw, hval⟩
    rw [h.lookupProperty_eq hw, Except.ok.injEq] at hprop
    obtain ⟨x, hx, rfl⟩ := Option.map_eq_some_iff.mp hprop
    have hvalue := acceptedValue_isSome.mpr
      ⟨sz, hsz, (hfits (resolve_mem hx) hsz).mp hraw, hval⟩
    simpa [accepted, specTarget, hsplit, hx] using hvalue
  · intro hacc
    obtain ⟨⟨x, v⟩, ha⟩ := Option.isSome_iff_exists.mp hacc
    obtain ⟨⟨y, propValStr⟩, ht, hv⟩ := Option.bind_eq_some_iff.mp ha
    obtain ⟨v', hv', -⟩ := Option.map_eq_some_iff.mp hv
    obtain ⟨sz, hsz, hlen, hval⟩ := acceptedValue_isSome.mp (Option.isSome_of_eq_some hv')
    have hy := specTarget_mem ht
    unfold specTarget at ht
    split at ht
    next propPath val hsplit =>
      obtain ⟨z, hz, heq⟩ := Option.map_eq_some_iff.mp ht
      obtain ⟨rfl, rfl⟩ := Prod.mk.inj heq
      refine ⟨propPath, val, z.1, sz, hsplit, ?_, hsz, (hfits hy hsz).mpr hlen, hval⟩
      rw [h.lookupProperty_eq hw, hz]
      rfl
    next => cases ht

/-- A patch that returns has stored inside the image. -/
theorem AnswersRight.storeFits (hright : AnswersRight split mem p.1 spec) (h : Image mem p)
    (hw : p.2.WellFormed) : StoreFits split mem p spec := by
  obtain ⟨mem', good, hrun, -⟩ := hright
  rw [h.laid.processPatch_eq hw h.dataFits] at hrun
  intro a ha
  rw [Option.mem_def.mp ha] at hrun
  obtain ⟨mem'', hst, -⟩ := bind_eq_ok.mp hrun
  have hload := (load_eq_ok (load_store hst)).1
  rwa [length_leBytes, length_patch (store_eq_ok hst)] at hload

theorem answersRight_iff (h : Image mem p) (hw : p.2.WellFormed) :
    AnswersRight split mem p.1 spec ↔ StoreFits split mem p spec := by
  refine ⟨fun hright => hright.storeFits h hw, fun hfits => ?_⟩
  have hrun := h.laid.processPatch_eq hw h.dataFits split spec
  unfold AnswersRight
  rw [h.laid.checksPass_iff hw]
  cases ha : accepted split p spec with
  | none =>
    rw [ha] at hrun
    exact ⟨mem, false, hrun, by simp, fun _ => rfl⟩
  | some a =>
    have hroom : DTProp.data a.1.1 + (leBytes 8 a.2).length ≤ mem.length := by
      rw [length_leBytes]
      exact hfits a ha
    obtain ⟨mem', hp⟩ := patch_isSome hroom
    rw [ha] at hrun
    simp only [store_of_patch hp, ok_bind, pure_eq_ok] at hrun
    exact ⟨mem', true, hrun, by simp, by simp⟩

/-- The word is the last property of the tree. -/
def wordAtEnd : DTree := .node [] [named 'a' [word 'p' 1] []]

theorem answersRight_wordThenEmpty :
    AnswersRight (fun s d => s.splitOn d) wordThenEmpty.flatten 0 patchP :=
  (answersRight_iff (p := (0, wordThenEmpty)) (image_flatten _ (by decide)) (by decide)).mpr
    (by decide)

theorem not_answersRight_wordAtEnd : wordAtEnd.WellFormed ∧
    Image wordAtEnd.flatten (0, wordAtEnd) ∧
    ¬AnswersRight (fun s d => s.splitOn d) wordAtEnd.flatten 0 patchP := by
  have himage : Image wordAtEnd.flatten (0, wordAtEnd) := image_flatten _ (by decide)
  refine ⟨by decide, himage, fun hright => ?_⟩
  have hfits := AnswersRight.storeFits (p := (0, wordAtEnd)) hright himage (by decide)
  revert hfits
  decide

end DTree
end JevMachO

import JevMachO.DeviceTree.Damage

/-! Laws of whole patch runs over clear tails. A run depends only on the last value each property
accepts; what it patched is found again under the same paths; and a second run changes nothing. -/
namespace JevMachO
namespace DTree
open Lib

variable {split : SplitView} {mem mem' mem₀ : Bytes} {p : ℕ × DTree} {x : ℕ × Property}
  {seen seen' specs : List Bytes} {spec : Bytes}

/-- Every patch is accepted. -/
def allAccepted (split : SplitView) (p : ℕ × DTree) (specs : List Bytes) : Bool :=
  specs.all fun spec => (accepted split p spec).isSome

theorem finalData_append_self_list (specs : List Bytes) (x : ℕ × Property) :
    finalData split p (specs ++ specs) x = finalData split p specs x := by
  unfold finalData
  rw [List.filterMap_append, List.filter_append, List.getLast?_append, Option.or_self]

namespace Progress

/-- Two runs that leave the same data leave the same image. -/
theorem unique (h : Progress split mem₀ p seen mem) (h' : Progress split mem₀ p seen' mem')
    (heq : ∀ x ∈ allProperties p, finalData split p seen x = finalData split p seen' x) :
    mem = mem' := by
  refine List.ext_getElem? fun i => ?_
  by_cases hdata : ∃ x ∈ allProperties p, InData x i
  · obtain ⟨x, hx, hlo, hhi⟩ := hdata
    obtain ⟨k, rfl⟩ := Nat.exists_eq_add_of_le hlo
    have hk : k < x.2.data.length := Nat.lt_of_add_lt_add_left hhi
    rw [(h.final x hx).getElem? (by rwa [length_finalData]),
      (h'.final x hx).getElem? (by rwa [length_finalData]), heq x hx]
  · have hout : ∀ spec a, accepted split p spec = some a → ¬InData a.1 i := by
      intro spec a ha hin
      exact hdata ⟨a.1, (accepted_cases ha).2.1, hin⟩
    rw [h.frame i fun spec _ => hout spec, h'.frame i fun spec _ => hout spec]

/-- One patch after a run answers whether it is accepted. -/
theorem step (h₀ : Image mem₀ p) (hw : p.2.WellFormed) (hname : NoNames split p (seen ++ [spec]))
    (hclear : TailsClear split mem₀ p [spec]) (h : Progress split mem₀ p seen mem) :
    ∃ mem', DT.processPatch split mem p.1 spec =
        .ok (mem', (accepted split p spec).isSome) ∧
      Progress split mem₀ p (seen ++ [spec]) mem' := by
  obtain ⟨r, hr, hprog⟩ : ∃ r, DT.processSpecs split p.1 [spec] mem true = .ok r ∧
      Progress split mem₀ p (seen ++ [spec]) r.1 := h.run h₀ hw hname hclear
  obtain ⟨r', hr', hret⟩ := bind_eq_ok.mp hr
  obtain rfl := Except.ok.inj hret
  have hlaid := h.laid h₀.laid fun s hs a ha => hname.accepted (by simp [hs]) ha
  have heq := hlaid.processPatch_eq hw (h.dataFits h₀.dataFits) split spec
  refine ⟨r'.1, ?_, hprog⟩
  rw [hr']
  rw [hr'] at heq
  cases ha : accepted split p spec with
  | none =>
    rw [ha] at heq
    rw [Except.ok.inj heq]
    rfl
  | some a =>
    rw [ha] at heq
    obtain ⟨mem₁, hst, hret⟩ := bind_eq_ok.mp heq.symm
    rw [← Except.ok.inj hret]
    rfl

/-- A run answers whether all its patches are accepted. -/
theorem runFlag (good : Bool) (h₀ : Image mem₀ p) (hw : p.2.WellFormed)
    (hname : NoNames split p (seen ++ specs)) (hclear : TailsClear split mem₀ p specs)
    (h : Progress split mem₀ p seen mem) :
    ∃ mem', DT.processSpecs split p.1 specs mem good =
        .ok (mem', good && allAccepted split p specs) ∧
      Progress split mem₀ p (seen ++ specs) mem' := by
  induction specs generalizing seen mem good with
  | nil => exact ⟨mem, by simp [DT.processSpecs, allAccepted], by simpa using h⟩
  | cons spec specs ih =>
    rw [List.append_cons] at hname ⊢
    have hone : NoNames split p (seen ++ [spec]) := fun s hs =>
      hname s (List.mem_append_left _ hs)
    obtain ⟨mem₁, h₁, hprog⟩ := h.step h₀ hw hone fun s hs =>
      hclear s (by simp [List.mem_singleton.mp hs])
    obtain ⟨mem₂, h₂, hprog₂⟩ := ih (good && (accepted split p spec).isSome) hname
      (fun s hs => hclear s (List.mem_cons_of_mem spec hs)) hprog
    refine ⟨mem₂, ?_, hprog₂⟩
    rw [DT.processSpecs, h₁, ok_bind, h₂, Bool.and_assoc]
    rfl

end Progress

/-- Patches that name no `name` property and, where they store too much, overwrite zeros with
zeros. -/
structure Patchable (split : SplitView) (mem : Bytes) (p : ℕ × DTree) (patchesSpec : Bytes) :
    Prop where
  noNames : NoNames split p (stringSplitViewDelimitedBy split patchesSpec DT.space)
  tailsClear : TailsClear split mem p (stringSplitViewDelimitedBy split patchesSpec DT.space)

/-- The result of a run: the flag, the data under every path, and the same result again. -/
structure PatchLaws (split : SplitView) (mem : Bytes) (p : ℕ × DTree) (patchesSpec : Bytes)
    (mem' : Bytes) (good : Bool) : Prop where
  flag : good = allAccepted split p (stringSplitViewDelimitedBy split patchesSpec DT.space)
  lookups : ∀ path, DTNode.lookupProperty split mem' p.1 path =
    DTNode.lookupProperty split mem p.1 path
  data : ∀ path x, resolve split p path = some x → At mem' (DTProp.data x.1)
    (finalData split p (stringSplitViewDelimitedBy split patchesSpec DT.space) x)
  again : DT.processPatches split mem' p.1 patchesSpec = .ok (mem', good)

variable {patchesSpec patchesSpec' : Bytes}

theorem Image.processPatches (h : Image mem p) (hw : p.2.WellFormed)
    (hp : Patchable split mem p patchesSpec) :
    ∃ mem', DT.processPatches split mem p.1 patchesSpec = .ok (mem',
        allAccepted split p (stringSplitViewDelimitedBy split patchesSpec DT.space)) ∧
      Progress split mem p (stringSplitViewDelimitedBy split patchesSpec DT.space) mem' :=
  h.progress.runFlag true h hw hp.noNames hp.tailsClear

theorem Image.lawful (h : Image mem p) (hw : p.2.WellFormed)
    (hp : Patchable split mem p patchesSpec) :
    ∃ mem' good, DT.processPatches split mem p.1 patchesSpec = .ok (mem', good) ∧
      PatchLaws split mem p patchesSpec mem' good ∧
      Progress split mem p (stringSplitViewDelimitedBy split patchesSpec DT.space) mem' := by
  obtain ⟨mem', hrun, hprog⟩ := h.processPatches hw hp
  have hlaid := hprog.laid h.laid fun s hs a ha => hp.noNames.accepted hs ha
  refine ⟨mem', _, hrun, ⟨rfl, fun path => ?_, fun path x hx => ?_, ?_⟩, hprog⟩
  · rw [hlaid.lookupProperty_eq hw, h.laid.lookupProperty_eq hw]
  · exact hprog.final x (resolve_mem hx)
  · have htwice : NoNames split p (stringSplitViewDelimitedBy split patchesSpec DT.space ++
        stringSplitViewDelimitedBy split patchesSpec DT.space) := fun s hs =>
      hp.noNames s ((List.mem_append.mp hs).elim id id)
    obtain ⟨mem'', hrun', hprog'⟩ := hprog.runFlag true h hw htwice hp.tailsClear
    rw [hprog'.unique hprog fun x _ => finalData_append_self_list _ x] at hrun'
    exact hrun'

theorem patchLaws (h : Image mem p) (hw : p.2.WellFormed)
    (hp : Patchable split mem p patchesSpec) :
    ∃ mem' good, DT.processPatches split mem p.1 patchesSpec = .ok (mem', good) ∧
      PatchLaws split mem p patchesSpec mem' good := by
  obtain ⟨mem', good, hrun, hlaws, -⟩ := h.lawful hw hp
  exact ⟨mem', good, hrun, hlaws⟩

/-- A patch with a value too large for its property, and one that is applied. -/
def tooLargeThenPatchP : Bytes :=
  ascii ['/', 'a', '#', 'p', '=', '4', '2', '9', '4', '9', '6', '7', '2', '9', '6', ' '] ++ patchP

theorem patchLaws_tooLargeThenPatchP : ∃ mem' good,
    DT.processPatches (fun s d => s.splitOn d) wordThenEmpty.flatten 0 tooLargeThenPatchP =
        .ok (mem', good) ∧
      PatchLaws (fun s d => s.splitOn d) wordThenEmpty.flatten (0, wordThenEmpty)
        tooLargeThenPatchP mem' good :=
  patchLaws (p := (0, wordThenEmpty)) (image_flatten _ (by decide)) (by decide)
    ⟨by decide, by decide⟩

/-- Patch lists under which every property ends with the same data give the same image, whatever
else they have in them and in whatever order. -/
theorem processPatches_congr (h : Image mem p) (hw : p.2.WellFormed)
    (hp : Patchable split mem p patchesSpec) (hp' : Patchable split mem p patchesSpec')
    (heq : ∀ x ∈ allProperties p,
      finalData split p (stringSplitViewDelimitedBy split patchesSpec DT.space) x =
        finalData split p (stringSplitViewDelimitedBy split patchesSpec' DT.space) x) :
    ∃ mem' good good', DT.processPatches split mem p.1 patchesSpec = .ok (mem', good) ∧
      DT.processPatches split mem p.1 patchesSpec' = .ok (mem', good') := by
  obtain ⟨m₁, hrun₁, hprog₁⟩ := h.processPatches hw hp
  obtain ⟨m₂, hrun₂, hprog₂⟩ := h.processPatches hw hp'
  rw [← hprog₁.unique hprog₂ heq] at hrun₂
  exact ⟨m₁, _, _, hrun₁, hrun₂⟩

theorem processPatches_congr_patchP : ∃ mem' good good',
    DT.processPatches (fun s d => s.splitOn d) wordThenEmpty.flatten 0 tooLargeThenPatchP =
        .ok (mem', good) ∧
      DT.processPatches (fun s d => s.splitOn d) wordThenEmpty.flatten 0 patchP =
        .ok (mem', good') :=
  processPatches_congr (p := (0, wordThenEmpty)) (image_flatten _ (by decide)) (by decide)
    ⟨by decide, by decide⟩ ⟨by decide, by decide⟩ (by decide)

end DTree
end JevMachO

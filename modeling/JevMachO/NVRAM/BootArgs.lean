import JevMachO.DelimitedCStr
import JevMachO.NVRAM.Variables

/-! Boot arguments. The value of the `boot-args` variable is split at spaces without asking
whether there is such a variable. -/
namespace JevMachO
open Lib

namespace NVRAMProxyData

def bootArgsLit : Bytes := ascii ['b', 'o', 'o', 't', '-', 'a', 'r', 'g', 's']

def space : UInt8 := 0x20

def bootArgsValue (mem : Bytes) (part : ℕ) : Exec (Option ℕ) := do
  NVRAM.varValue mem (← NVRAMPartition.varNamed mem part bootArgsLit)

def bootArgs (mem : Bytes) (part : ℕ) : Exec DelimitedCStrIterator := do
  rangeForDelimitedCStr mem space (← bootArgsValue mem part)

def hasBootArg (mem : Bytes) (part : ℕ) (argName : Bytes) : Exec Bool := do
  let first ← bootArgs mem part
  rangeContainsStr (DelimitedCStrIterator.cursor mem space) (mem.length + 1) first argName

def commonBootArgsValue (mem : Bytes) (data : NVRAMProxyData) : Exec (Option ℕ) :=
  bootArgsValue mem data.commonPart

def commonBootArgs (mem : Bytes) (data : NVRAMProxyData) : Exec DelimitedCStrIterator :=
  bootArgs mem data.commonPart

def commonHasBootArg (mem : Bytes) (data : NVRAMProxyData) (argName : Bytes) : Exec Bool :=
  hasBootArg mem data.commonPart argName

def systemBootArgsValue (mem : Bytes) (data : NVRAMProxyData) : Exec (Option ℕ) :=
  bootArgsValue mem data.systemPart

def systemBootArgs (mem : Bytes) (data : NVRAMProxyData) : Exec DelimitedCStrIterator :=
  bootArgs mem data.systemPart

def systemHasBootArg (mem : Bytes) (data : NVRAMProxyData) (argName : Bytes) : Exec Bool :=
  hasBootArg mem data.systemPart argName

/-! ### What is asked for -/

/-- The `boot-args` variable among some strings: its value, when there is one. -/
def bootArgsOf (strs : List Bytes) : Option Bytes :=
  (strs.find? fun s => decide (bootArgsLit ++ [NVRAM.eqChr] <+: s)).map
    (·.drop (bootArgsLit.length + 1))

/-- The argument is one of the space-separated tokens of the variable's value. -/
def HasToken (strs : List Bytes) (argName : Bytes) : Prop :=
  ∃ v ∈ bootArgsOf strs, argName ∈ v.splitOn space

instance (strs : List Bytes) (argName : Bytes) : Decidable (HasToken strs argName) :=
  inferInstanceAs (Decidable (∃ v ∈ bootArgsOf strs, argName ∈ v.splitOn space))

variable {mem : Bytes} {part : ℕ} {strs : List Bytes}

theorem isPrefix_iff_nameOf {k s : Bytes} (hk : NVRAMPartition.VarName k) :
    k ++ [NVRAM.eqChr] <+: s ↔ NVRAMPartition.nameOf s = k := by
  rw [NVRAMPartition.nameOf_eq_iff hk]
  constructor
  · rintro ⟨v, rfl⟩
    exact ⟨v, by simp⟩
  · rintro ⟨v, rfl⟩
    exact ⟨v, by simp⟩

theorem varName_bootArgsLit : NVRAMPartition.VarName bootArgsLit := ⟨by decide, by decide⟩

/-- The tokens of a value are compared one after the other. -/
theorem rangeContainsStr_tokens {p : ℕ} {v : Bytes} (h : cstr mem p = .ok v) (argName : Bytes) :
    (do
      let first ← rangeForDelimitedCStr mem space (some p)
      rangeContainsStr (DelimitedCStrIterator.cursor mem space) (mem.length + 1) first argName) =
      .ok (decide (argName ∈ v.splitOn space)) := by
  obtain ⟨h0, hat⟩ := cstr_eq_ok h
  obtain ⟨it, hit, hv⟩ := exists_visits_splitOn (d := space) (by decide) hat h0
  have hlen := length_splitOn_le space v
  have hin := hat.length_le (by simp)
  rw [List.length_append, List.length_singleton] at hin
  rw [← List.map_id (v.splitOn space)] at hv
  rw [rangeForDelimitedCStr, hit, ok_bind, rangeContainsStr,
    hv.anyOf _ (fun str => str == argName) (fun _ _ => rfl) _ (by omega)]
  congr 1
  rw [Bool.eq_iff_iff, decide_eq_true_iff, List.any_eq_true]
  simp

theorem bootArgsOf_of_none (h : ∀ s ∈ strs, NVRAMPartition.nameOf s ≠ bootArgsLit) :
    bootArgsOf strs = none := by
  rw [bootArgsOf, List.find?_eq_none.mpr, Option.map_none]
  intro s hs
  rw [decide_eq_true_iff, isPrefix_iff_nameOf varName_bootArgsLit]
  exact h s hs

theorem bootArgsOf_of_first {pre post : List Bytes} {v : Bytes}
    (hpre : ∀ t ∈ pre, NVRAMPartition.nameOf t ≠ bootArgsLit) :
    bootArgsOf (pre ++ (bootArgsLit ++ NVRAM.eqChr :: v) :: post) = some v := by
  have hskip : pre.find? (fun s => decide (bootArgsLit ++ [NVRAM.eqChr] <+: s)) = none := by
    rw [List.find?_eq_none]
    intro t ht
    rw [decide_eq_true_iff, isPrefix_iff_nameOf varName_bootArgsLit]
    exact hpre t ht
  have hfirst : bootArgsLit ++ [NVRAM.eqChr] <+: bootArgsLit ++ NVRAM.eqChr :: v :=
    ⟨v, by simp⟩
  rw [bootArgsOf, List.find?_append, hskip, Option.none_or,
    List.find?_cons_of_pos (by simpa only [decide_eq_true_iff] using hfirst)]
  rfl

/-- Without the variable the token iterator is made from a null pointer. -/
theorem hasBootArg_of_none (h : NVRAMPartition.HoldsVars mem part strs)
    (hnone : ∀ s ∈ strs, NVRAMPartition.nameOf s ≠ bootArgsLit) (argName : Bytes) :
    hasBootArg mem part argName = .error .nullDeref := by
  rw [hasBootArg, bootArgs, bootArgsValue, h.varNamed_of_none hnone]
  rfl

theorem hasBootArg_of_first {pre post : List Bytes} {v : Bytes}
    (h : NVRAMPartition.HoldsVars mem part (pre ++ (bootArgsLit ++ NVRAM.eqChr :: v) :: post))
    (hpre : ∀ t ∈ pre, NVRAMPartition.nameOf t ≠ bootArgsLit) (argName : Bytes) :
    hasBootArg mem part argName = .ok (decide (argName ∈ v.splitOn space)) := by
  obtain ⟨hvar, hcstr⟩ := h.varNamed_of_first
    ((NVRAMPartition.nameOf_eq_iff varName_bootArgsLit).mpr ⟨v, rfl⟩) hpre
  obtain ⟨hval, hv⟩ := NVRAMPartition.varValue_eq varName_bootArgsLit.no_eq hcstr
  rw [hasBootArg, bootArgs, bootArgsValue, hvar, ok_bind, hval, ok_bind]
  exact rangeContainsStr_tokens hv argName

/-- A call returns, with true exactly when the argument is one of the tokens. -/
def Answers (strs : List Bytes) (argName : Bytes) (call : Exec Bool) : Prop :=
  call = .ok (decide (HasToken strs argName))

instance (strs : List Bytes) (argName : Bytes) (call : Exec Bool) :
    Decidable (Answers strs argName call) := inferInstanceAs (Decidable (_ = _))

theorem answers_hasBootArg (h : NVRAMPartition.HoldsVars mem part strs) (argName : Bytes) :
    Answers strs argName (hasBootArg mem part argName) ↔ (bootArgsOf strs).isSome := by
  unfold Answers
  rcases NVRAMPartition.first_or_none bootArgsLit strs with
    hnone | ⟨pre, s, post, rfl, hs, hpre⟩
  · rw [hasBootArg_of_none h hnone, bootArgsOf_of_none hnone]
    simp
  · obtain ⟨v, rfl⟩ := (NVRAMPartition.nameOf_eq_iff varName_bootArgsLit).mp hs
    have htoken : decide (argName ∈ v.splitOn space) =
        decide (HasToken (pre ++ (bootArgsLit ++ NVRAM.eqChr :: v) :: post) argName) := by
      rw [decide_eq_decide]
      simp [HasToken, bootArgsOf_of_first hpre]
    rw [hasBootArg_of_first h hpre, bootArgsOf_of_first hpre, htoken]
    simp

theorem answers_iff {data : NVRAMProxyData} {commonStrs systemStrs : List Bytes}
    (hc : NVRAMPartition.HoldsVars mem data.commonPart commonStrs)
    (hs : NVRAMPartition.HoldsVars mem data.systemPart systemStrs) (argName : Bytes) :
    (Answers commonStrs argName (commonHasBootArg mem data argName) ↔
      ∃ s ∈ commonStrs, bootArgsLit ++ [NVRAM.eqChr] <+: s) ∧
    (Answers systemStrs argName (systemHasBootArg mem data argName) ↔
      ∃ s ∈ systemStrs, bootArgsLit ++ [NVRAM.eqChr] <+: s) := by
  have hsome : ∀ strs, (bootArgsOf strs).isSome ↔
      ∃ s ∈ strs, bootArgsLit ++ [NVRAM.eqChr] <+: s := fun strs => by
    simp [bootArgsOf, List.find?_isSome]
  rw [← hsome, ← hsome]
  exact ⟨answers_hasBootArg hc argName, answers_hasBootArg hs argName⟩

/-- A boot argument in front, in the middle and at the end of the value, and two spaces in a
row. -/
def withBootArgs : List Bytes :=
  [ascii ['a', '=', '1'], bootArgsLit ++ NVRAM.eqChr :: ascii ['-', 'v', ' ', ' ', 'x', ' ', 'y']]

def withoutBootArgs : List Bytes := [ascii ['a', '=', '1']]

def someData : NVRAMProxyData := ⟨0, 0, (NVRAMPartition.blankHeader ++ packed withBootArgs).length⟩

/-- Two partitions in a row. -/
def twoPartitions (commonStrs systemStrs : List Bytes) : Bytes :=
  NVRAMPartition.blankHeader ++ packed commonStrs ++
    (NVRAMPartition.blankHeader ++ packed systemStrs)

theorem answers_withBootArgs :
    (∀ argName ∈ [ascii ['-', 'v'], ascii ['x'], ascii ['y']],
      systemHasBootArg (twoPartitions withBootArgs withBootArgs) someData argName = .ok true) ∧
    Answers withBootArgs (ascii ['v'])
      (commonHasBootArg (twoPartitions withBootArgs withBootArgs) someData (ascii ['v'])) := by
  have hc : NVRAMPartition.HoldsVars (twoPartitions withBootArgs withBootArgs)
      someData.commonPart withBootArgs := ⟨by decide, by decide, by decide⟩
  have hs : NVRAMPartition.HoldsVars (twoPartitions withBootArgs withBootArgs)
      someData.systemPart withBootArgs := ⟨by decide, by decide, by decide⟩
  exact ⟨by decide, (answers_iff hc hs (ascii ['v'])).1.mpr (by decide)⟩

/-- A partition without the variable: the delimiter is looked for behind the null pointer. -/
theorem not_answers_withoutBootArgs :
    NVRAMPartition.HoldsVars (twoPartitions withBootArgs withoutBootArgs) someData.commonPart
      withBootArgs ∧
    NVRAMPartition.HoldsVars (twoPartitions withBootArgs withoutBootArgs) someData.systemPart
      withoutBootArgs ∧
    systemHasBootArg (twoPartitions withBootArgs withoutBootArgs) someData (ascii ['x']) =
      .error .nullDeref ∧
    ¬Answers withoutBootArgs (ascii ['x'])
      (systemHasBootArg (twoPartitions withBootArgs withoutBootArgs) someData (ascii ['x'])) :=
  ⟨⟨by decide, by decide, by decide⟩, ⟨by decide, by decide, by decide⟩, by decide, by decide⟩

end NVRAMProxyData
end JevMachO

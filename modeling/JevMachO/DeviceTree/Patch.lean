import JevMachO.DeviceTree.Lookup
import JevMachO.Hex

/-! Patching properties in place. `process_patch` stores eight bytes for a property of four, so
the four bytes after its data are overwritten with zeros. -/
namespace JevMachO
open Lib

namespace DTProp

/-- `as_u32`, as the address of the reference it returns. -/
def asU32 (mem : Bytes) (p : ℕ) : Exec ℕ := do
  assertThat ((← sizeRaw mem p) == 4)
  return data p

/-- `as_u64`, as the address of the reference it returns. -/
def asU64 (mem : Bytes) (p : ℕ) : Exec ℕ := do
  assertThat ((← sizeRaw mem p) == 8)
  return data p

end DTProp

namespace DT

def equals : UInt8 := 0x3d

def space : UInt8 := 0x20

/-- One `path=value` patch: the image after it, and whether it was applied. -/
def processPatch (split : SplitView) (mem : Bytes) (rootNode : ℕ) (patchSpec : Bytes) :
    Exec (Bytes × Bool) := do
  match stringSplitViewDelimitedBy split patchSpec equals with
  | [propPath, propValStr] =>
    match ← DTNode.lookupProperty split mem rootNode propPath with
    | none => return (mem, false)
    | some prop =>
      if (← DTProp.sizeRaw mem prop) = 4 then
        match sv2int 4 propValStr with
        | none => return (mem, false)
        | some propVal =>
          let _before ← load mem (← DTProp.asU32 mem prop) 4
          -- the source writes through `(uint64_t &)`
          let mem ← store mem (← DTProp.asU32 mem prop) (leBytes 8 propVal)
          return (mem, true)
      else if (← DTProp.sizeRaw mem prop) = 8 then
        match sv2int 8 propValStr with
        | none => return (mem, false)
        | some propVal =>
          let _before ← load mem (← DTProp.asU64 mem prop) 8
          let mem ← store mem (← DTProp.asU64 mem prop) (leBytes 8 propVal)
          return (mem, true)
      else return (mem, false)
  | _ => return (mem, false)

/-- The loop of `process_patches`, with the flag it accumulates. -/
def processSpecs (split : SplitView) (rootNode : ℕ) :
    List Bytes → Bytes → Bool → Exec (Bytes × Bool)
  | [], mem, good => return (mem, good)
  | patchspec :: rest, mem, good => do
    let r ← processPatch split mem rootNode patchspec
    processSpecs split rootNode rest r.1 (good && r.2)

def processPatches (split : SplitView) (mem : Bytes) (rootNode : ℕ) (patchesSpec : Bytes) :
    Exec (Bytes × Bool) :=
  processSpecs split rootNode (stringSplitViewDelimitedBy split patchesSpec space) mem true

end DT

namespace DTree

/-- The property a patch names in a tree, and the text of its value. -/
def specTarget (split : SplitView) (p : ℕ × DTree) (spec : Bytes) :
    Option ((ℕ × Property) × Bytes) :=
  match stringSplitViewDelimitedBy split spec DT.equals with
  | [propPath, propValStr] => (resolve split p propPath).map (·, propValStr)
  | _ => none

/-- The value a property accepts: only properties of four and of eight bytes have one. -/
def acceptedValue (x : Property) (propValStr : Bytes) : Option ℕ :=
  if x.data.length = 4 then sv2int 4 propValStr
  else if x.data.length = 8 then sv2int 8 propValStr
  else none

/-- The property a patch is applied to, and its value, when the value is accepted. -/
def accepted (split : SplitView) (p : ℕ × DTree) (spec : Bytes) :
    Option ((ℕ × Property) × ℕ) :=
  (specTarget split p spec).bind fun t => (acceptedValue t.1.2 t.2).map (t.1, ·)

/-- The data a property has after the patches: the last accepted value, or its own data. -/
def finalData (split : SplitView) (p : ℕ × DTree) (specs : List Bytes) (x : ℕ × Property) :
    Bytes :=
  match ((specs.filterMap (accepted split p)).filter fun a => a.1.1 == x.1).getLast? with
  | some (_, v) => leBytes x.2.data.length v
  | none => x.2.data

theorem resolve_mem {split : SplitView} {p : ℕ × DTree} {path : Bytes} {x : ℕ × Property}
    (h : resolve split p path = some x) : x ∈ allProperties p := by
  unfold resolve at h
  split at h
  · split_ifs at h
    obtain ⟨q, hq, hx⟩ := Option.bind_eq_some_iff.mp h
    exact mem_allProperties.mpr
      ⟨q, mem_nodesAt_of_scannedTarget (self_mem_nodesAt p) hq, mem_propertiesAt hx⟩
  · simp at h

theorem specTarget_mem {split : SplitView} {p : ℕ × DTree} {spec : Bytes}
    {t : (ℕ × Property) × Bytes} (h : specTarget split p spec = some t) :
    t.1 ∈ allProperties p := by
  unfold specTarget at h
  split at h
  · obtain ⟨x, hx, rfl⟩ := Option.map_eq_some_iff.mp h
    exact resolve_mem hx
  · simp at h

theorem accepted_cases {split : SplitView} {p : ℕ × DTree} {spec : Bytes} {x : ℕ × Property}
    {v : ℕ} (h : accepted split p spec = some (x, v)) :
    (∃ val, specTarget split p spec = some (x, val)) ∧ x ∈ allProperties p ∧
      (x.2.data.length = 4 ∧ v < 2 ^ 32 ∨ x.2.data.length = 8) := by
  obtain ⟨⟨y, val⟩, ht, hv⟩ := Option.bind_eq_some_iff.mp h
  obtain ⟨v', hv', heq⟩ := Option.map_eq_some_iff.mp hv
  obtain ⟨rfl, rfl⟩ := Prod.mk.inj heq
  refine ⟨⟨val, ht⟩, specTarget_mem ht, ?_⟩
  simp only [acceptedValue] at hv'
  split_ifs at hv' with h4 h8
  · exact Or.inl ⟨h4, sv2int_lt hv'⟩
  · exact Or.inr h8

/-! ### One patch on a laid-out tree -/

variable {split : SplitView} {mem mem' : Bytes} {p : ℕ × DTree} {x : ℕ × Property}

/-- Every property's data is inside the image. -/
def DataFits (mem : Bytes) (p : ℕ × DTree) : Prop :=
  ∀ x ∈ allProperties p, DTProp.data x.1 + x.2.data.length ≤ mem.length

theorem Laid.sizeRaw_eq (h : Laid mem p) (hx : x ∈ allProperties p) :
    DTProp.sizeRaw mem x.1 = .ok (UInt32.ofNat x.2.data.length) := by
  obtain ⟨q, hq, hxq⟩ := mem_allProperties.mp hx
  exact Property.sizeRaw_eq ((h q hq).sizeWord x hxq)

theorem load_ok {o n : ℕ} (h : o + n ≤ mem.length) : ∃ bs, load mem o n = .ok bs :=
  ⟨_, by rw [load, slice, if_pos h]⟩

theorem sizeWord_eq_iff (x : Property) {n : ℕ} (hn : n < 2 ^ 32) :
    UInt32.ofNat x.data.length = UInt32.ofNat n ↔ x.data.length = n := by
  have hx := x.length_data
  constructor
  · intro h
    have := congrArg UInt32.toNat h
    rwa [u32_toNat_ofNat (by omega), u32_toNat_ofNat hn] at this
  · intro h
    rw [h]

theorem asU32_eq {o : ℕ} (h : DTProp.sizeRaw mem o = .ok 4) :
    DTProp.asU32 mem o = .ok (DTProp.data o) := by
  simp only [DTProp.asU32, h, ok_bind, beq_self_eq_true, assertThat_true, pure_eq_ok]

theorem asU64_eq {o : ℕ} (h : DTProp.sizeRaw mem o = .ok 8) :
    DTProp.asU64 mem o = .ok (DTProp.data o) := by
  simp only [DTProp.asU64, h, ok_bind, beq_self_eq_true, assertThat_true, pure_eq_ok]

/-- A patch stores eight bytes at the data of the property it is accepted for. -/
theorem Laid.processPatch_eq (h : Laid mem p) (hw : p.2.WellFormed) (hfit : DataFits mem p)
    (split : SplitView) (spec : Bytes) :
    DT.processPatch split mem p.1 spec =
      match accepted split p spec with
      | none => .ok (mem, false)
      | some (x, v) => do return (← store mem (DTProp.data x.1) (leBytes 8 v), true) := by
  unfold DT.processPatch accepted specTarget
  rcases stringSplitViewDelimitedBy split spec DT.equals with
    _ | ⟨propPath, _ | ⟨propValStr, _ | ⟨_, _⟩⟩⟩
  · rfl
  · rfl
  · simp only [h.lookupProperty_eq hw, ok_bind]
    cases hr : resolve split p propPath with
    | none => rfl
    | some x =>
      have hx := resolve_mem hr
      have hxf := hfit x hx
      have h4 : UInt32.ofNat x.2.data.length = 4 ↔ x.2.data.length = 4 :=
        sizeWord_eq_iff x.2 (by decide)
      have h8 : UInt32.ofNat x.2.data.length = 8 ↔ x.2.data.length = 8 :=
        sizeWord_eq_iff x.2 (by decide)
      have hsz := h.sizeRaw_eq hx
      simp only [Option.map_some, Option.bind_some, acceptedValue]
      by_cases hl4 : x.2.data.length = 4
      · rw [h4.mpr hl4] at hsz
        rw [hl4] at hxf
        obtain ⟨bs, hbs⟩ := load_ok hxf
        simp only [hsz, ok_bind, if_true, if_pos hl4, asU32_eq hsz]
        cases sv2int 4 propValStr with
        | none => rfl
        | some v =>
          simp only [hbs, ok_bind]
          rfl
      · rw [if_neg hl4]
        by_cases hl8 : x.2.data.length = 8
        · rw [h8.mpr hl8] at hsz
          rw [hl8] at hxf
          obtain ⟨bs, hbs⟩ := load_ok hxf
          have h84 : ¬(8 : UInt32) = 4 := by decide
          simp only [hsz, ok_bind, if_true, if_pos hl8, asU64_eq hsz, if_neg h84]
          cases sv2int 8 propValStr with
          | none => rfl
          | some v =>
            simp only [hbs, ok_bind]
            rfl
        · simp only [hsz, ok_bind, if_neg (mt h4.mp hl4), if_neg (mt h8.mp hl8), if_neg hl8]
          rfl
  · rfl

end DTree
end JevMachO

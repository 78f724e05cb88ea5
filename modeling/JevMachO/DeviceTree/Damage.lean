import JevMachO.DeviceTree.PatchRun

/-! A store that clears bytes after a property of four is never undone. Walks only move
forward: whatever a damaged image makes of the bytes behind the damage, a property found there
has its data behind it too. -/
namespace JevMachO
namespace DTree
open Lib

variable {split : SplitView} {mem mem' mem₀ : Bytes} {p q n : ℕ × DTree} {x y : ℕ × Property}
  {spec : Bytes} {a : ℕ}

/-! ### Lookups over a partly framed tree -/

/-- The nodes of a tree up to `n`, in the order they were flattened, are framed. -/
structure FramedTo (mem : Bytes) (p n : ℕ × DTree) : Prop where
  node : n ∈ nodesAt p.1 p.2
  framed : ∀ q ∈ nodesAt p.1 p.2, q.1 ≤ n.1 → Framed mem q

/-- A node of the tree up to `n`, or anything behind the header of `n`. -/
def Reached (p n : ℕ × DTree) (a : ℕ) : Prop :=
  (∃ q ∈ nodesAt p.1 p.2, q.1 ≤ n.1 ∧ q.1 = a) ∨ n.1 + n.2.headerSize ≤ a

/-- A property of a node up to `n`, or anything behind the header of `n`. -/
def ReachedProperty (p n : ℕ × DTree) (a : ℕ) : Prop :=
  (∃ q ∈ nodesAt p.1 p.2, q.1 ≤ n.1 ∧ ∃ y ∈ propertiesAt q, y.1 = a) ∨
    n.1 + n.2.headerSize ≤ a

theorem le_of_mem_nodesAt (hq : q ∈ nodesAt p.1 p.2) : p.1 ≤ q.1 :=
  (locate_bounds headerSize (mem_nodesAt.mp hq)).1

namespace FramedTo

theorem root (h : FramedTo mem p n) : Framed mem p :=
  h.framed p (self_mem_nodesAt p) (le_of_mem_nodesAt h.node)

/-- The end of a node's header is the next node. -/
theorem reached_next (h : FramedTo mem p n) (hq : q ∈ nodesAt p.1 p.2) (hle : q.1 ≤ n.1) :
    Reached p n (q.1 + q.2.headerSize) := by
  have hpos := headerSize_pos n.2
  rcases nodes_apart hq h.node with rfl | hlt | hlt
  · exact Or.inr le_rfl
  · obtain ⟨r, hr, hr1, hrn⟩ := locate_next headerSize (mem_nodesAt.mp hq) (mem_nodesAt.mp h.node)
      hlt
    exact Or.inl ⟨r, mem_nodesAt.mpr hr, hrn, hr1⟩
  · omega

theorem reached_extent (h : FramedTo mem p n) {k : ℕ} (ha : Reached p n a)
    (hk : (do return DTNode.sizeofNode + (← DTNode.propertiesSizeof mem a).toNat : Exec ℕ) =
      .ok k) : Reached p n (a + k) := by
  rcases ha with ⟨q, hq, hle, rfl⟩ | ha
  · obtain rfl := Except.ok.inj ((h.framed q hq hle).extent_eq.symm.trans hk)
    exact h.reached_next hq hle
  · exact Or.inr (by omega)

theorem reached_childNamed (h : FramedTo mem p n) {name : Bytes}
    (hc : DTNode.childNamed mem p.1 name = .ok (some a)) : Reached p n a := by
  rw [DTNode.childNamed, h.root.children_eq, ok_bind] at hc
  refine SizedIterator.found_inv (fun _ _ => h.reached_extent) ?_ hc
  intro b hb
  rw [SizedIterator.ptr_ofSize hb]
  exact h.reached_next (self_mem_nodesAt p) (le_of_mem_nodesAt h.node)

theorem reached_lookupComponents (h : FramedTo mem p n) {names : List Bytes} {res : ℕ}
    (hres : Reached p n res) (hc : DTNode.lookupComponents mem p.1 names res = .ok (some a)) :
    Reached p n a := by
  induction names generalizing res with
  | nil =>
    obtain rfl := Option.some.inj (Except.ok.inj hc)
    exact hres
  | cons name names ih =>
    unfold DTNode.lookupComponents at hc
    obtain ⟨r, hr, hc⟩ := bind_eq_ok.mp hc
    cases r with
    | none => simp at hc
    | some r => exact ih (h.reached_childNamed hr) hc

theorem reached_propertyNamed (h : FramedTo mem p n) {b : ℕ} {name : Bytes}
    (hb : Reached p n b) (hc : DTNode.propertyNamed mem b name = .ok (some a)) :
    ReachedProperty p n a := by
  rcases hb with ⟨q, hq, hle, rfl⟩ | hb
  · have hf := h.framed q hq hle
    rw [DTNode.propertyNamed, hf.properties_eq, ok_bind] at hc
    obtain ⟨y, hy, rfl⟩ := List.mem_map.mp (hf.visits_properties.mem_of_findIfOrNull hc)
    exact Or.inl ⟨q, hq, hle, y, hy, rfl⟩
  · right
    obtain ⟨first, hfirst, hc⟩ := bind_eq_ok.mp hc
    refine SizedIterator.found_inv (P := fun a => n.1 + n.2.headerSize ≤ a)
      (fun _ _ ha _ => ha.trans (Nat.le_add_right _ _)) ?_ hc
    intro c hc
    obtain ⟨sz, -, hfirst⟩ := bind_eq_ok.mp hfirst
    split_ifs at hfirst
    · obtain rfl := Except.ok.inj hfirst
      simp [SizedIterator.sentinel] at hc
    · obtain ⟨sz', -, hfirst⟩ := bind_eq_ok.mp hfirst
      obtain rfl := Except.ok.inj hfirst
      rw [SizedIterator.ptr_ofSize hc]
      omega

/-- Whatever a lookup finds lies in the framed part or behind it. -/
theorem reached_lookupProperty (h : FramedTo mem p n) {path : Bytes}
    (hc : DTNode.lookupProperty split mem p.1 path = .ok (some a)) : ReachedProperty p n a := by
  unfold DTNode.lookupProperty at hc
  split at hc
  · obtain ⟨r, hr, hc⟩ := bind_eq_ok.mp hc
    cases r with
    | none => simp at hc
    | some r =>
      refine h.reached_propertyNamed ?_ hc
      unfold DTNode.lookupNode at hr
      split_ifs at hr
      · simp at hr
      · exact h.reached_lookupComponents
          (Or.inl ⟨p, self_mem_nodesAt p, le_of_mem_nodesAt h.node, rfl⟩) hr
  · simp at hc

theorem mono (h : FramedTo mem p n) (hq : q ∈ nodesAt p.1 p.2) (hle : q.1 ≤ n.1) :
    FramedTo mem p q := ⟨hq, fun r hr hrq => h.framed r hr (hrq.trans hle)⟩

end FramedTo

/-! ### Damage -/

/-- The tail of a property of `n` was not clear and is now, in an image framed up to `n`. -/
structure Damaged (mem₀ : Bytes) (p n : ℕ × DTree) (x : ℕ × Property) (mem : Bytes) : Prop
    extends FramedTo mem p n where
  prop : x ∈ propertiesAt n
  length_data : x.2.data.length = 4
  notClear : ¬TailClear mem₀ x
  clear : TailClear mem x

theorem lt_of_inFrame {i : ℕ} (hi : InFrame q i) : i < q.1 + q.2.headerSize := by
  rcases hi with hi | ⟨y, hy, hi⟩
  · simp only [headerSize, DTNode.sizeofNode]
    omega
  · have := bounds_of_mem_propertiesAt hy
    have := size_pos y.2
    omega

theorem size_of_length_data (x : Property) (h4 : x.data.length = 4) : x.size = 40 := by
  simp only [Property.size, DTProp.sizeofProp, h4]

/-- No frame up to a node is in the tail of one of its properties. -/
theorem notTail_of_inFrame (hq : q ∈ nodesAt p.1 p.2) (hn : n ∈ nodesAt p.1 p.2)
    (hle : q.1 ≤ n.1) (hx : x ∈ propertiesAt n) (h4 : x.2.data.length = 4) {i : ℕ}
    (hi : InFrame q i) : i < DTProp.data x.1 + 4 ∨ DTProp.data x.1 + 8 ≤ i := by
  have hb := bounds_of_mem_propertiesAt hx
  have hsx := size_of_length_data x.2 h4
  have hlt := lt_of_inFrame hi
  have hpos := headerSize_pos n.2
  simp only [DTProp.data, DTProp.sizeofProp]
  rcases nodes_apart hq hn with rfl | h
  · rcases hi with hi | ⟨y, hy, hi⟩
    · omega
    · have hsy := size_pos y.2
      rcases properties_apart (mem_allProperties.mpr ⟨q, hq, hx⟩)
        (mem_allProperties.mpr ⟨q, hq, hy⟩) with rfl | h <;> omega
  · omega

/-- Eight bytes of a number below 2^32 clear the second four. -/
theorem tailClear_patch {v : ℕ} (hv : v < 2 ^ 32)
    (hp : patch mem (DTProp.data x.1) (leBytes 8 v) = some mem') : TailClear mem' x := by
  have hat := at_patch hp
  rw [leBytes_add 4 4, at_append, length_leBytes, Nat.div_eq_of_lt (by omega), leBytes_zero] at hat
  exact hat.2

theorem FramedTo.damage (h : FramedTo mem p n) (hx : x ∈ propertiesAt n)
    (h4 : x.2.data.length = 4) (hnot : ¬TailClear mem₀ x) {v : ℕ} (hv : v < 2 ^ 32)
    (hp : patch mem (DTProp.data x.1) (leBytes 8 v) = some mem') : Damaged mem₀ p n x mem' where
  node := h.node
  framed q hq hle := (h.framed q hq hle).congr fun i hi => by
    have hdata := notInData_of_inFrame hq (mem_allProperties.mpr ⟨n, h.node, hx⟩) hi
    have htail := notTail_of_inFrame hq h.node hle hx h4 hi
    refine getElem?_patch_outside hp ?_
    simp only [InData, h4] at hdata
    rw [length_leBytes]
    omega
  prop := hx
  length_data := h4
  notClear := hnot
  clear := tailClear_patch hv hp

namespace Damaged

/-- A store at a property whose tail was clear before the run. -/
theorem store_clear (h : Damaged mem₀ p n x mem) (h₀ : Laid mem₀ p) (hy : y ∈ allProperties p)
    {v : ℕ} (h48 : y.2.data.length = 4 ∧ v < 2 ^ 32 ∧ TailClear mem₀ y ∨ y.2.data.length = 8)
    (hp : patch mem (DTProp.data y.1) (leBytes 8 v) = some mem') : Damaged mem₀ p n x mem' := by
  have hne : y ≠ x := by
    rintro rfl
    rcases h48 with h48 | h48
    · exact h.notClear h48.2.2
    · exact absurd (h.length_data.symm.trans h48) (by decide)
  refine { h with framed := ?_, clear := ?_ }
  · intro q hq hle
    have hf := h.framed q hq hle
    refine hf.congr fun i hi => ?_
    have hdata := notInData_of_inFrame hq hy hi
    by_cases hin : DTProp.data y.1 ≤ i ∧ i < DTProp.data y.1 + 8
    · -- only a clear tail can be part of a frame, and it is cleared again
      rcases h48 with ⟨h4, hv, hclear⟩ | h8
      · simp only [InData, h4] at hdata
        obtain ⟨k, rfl⟩ := Nat.exists_eq_add_of_le (show DTProp.data y.1 + 4 ≤ i by omega)
        have hk : k < (List.replicate 4 (0 : UInt8)).length := by
          rw [List.length_replicate]
          omega
        rw [(tailClear_patch hv hp).getElem? hk, (h₀ q hq).toFramed.agree hf hi,
          hclear.getElem? hk]
      · simp only [InData, h8] at hdata
        omega
    · exact getElem?_patch_outside hp (by rw [length_leBytes]; omega)
  · refine h.clear.of_getElem? fun i hi => getElem?_patch_outside hp ?_
    have hx := mem_allProperties.mpr ⟨n, h.node, h.prop⟩
    have hsx := size_of_length_data x.2 h.length_data
    have hsy : 40 ≤ y.2.size := by
      simp only [Property.size, DTProp.sizeofProp]
      omega
    rw [List.length_replicate] at hi
    simp only [DTProp.data, DTProp.sizeofProp, length_leBytes]
    rcases properties_apart hx hy with rfl | hap
    · exact absurd rfl hne
    · omega

/-- A store behind the framed part. -/
theorem store_behind (h : Damaged mem₀ p n x mem) (ha : n.1 + n.2.headerSize ≤ a) {v : ℕ}
    (hp : patch mem (DTProp.data a) (leBytes 8 v) = some mem') : Damaged mem₀ p n x mem' := by
  have hb := bounds_of_mem_propertiesAt h.prop
  have hsx := size_of_length_data x.2 h.length_data
  have hframe : ∀ i < DTProp.data a, mem'[i]? = mem[i]? := fun i hi =>
    getElem?_patch_outside hp (Or.inl hi)
  simp only [DTProp.data, DTProp.sizeofProp] at hframe
  refine { h with framed := ?_, clear := ?_ }
  · intro q hq hle
    refine (h.framed q hq hle).congr fun i hi => hframe i ?_
    have hlt := lt_of_inFrame hi
    have hpos := headerSize_pos n.2
    rcases nodes_apart hq h.node with rfl | hap <;> omega
  · refine h.clear.of_getElem? fun i hi => hframe _ ?_
    simp only [List.length_replicate] at hi
    simp only [DTProp.data, DTProp.sizeofProp]
    omega

/-- A damaged tail lies outside all data. -/
theorem not_frame (h : Damaged mem₀ p n x mem)
    (hframe : ∀ i, (∀ y ∈ allProperties p, ¬InData y i) → mem[i]? = mem₀[i]?) : False := by
  refine h.notClear (h.clear.of_getElem? fun i hi => (hframe _ fun y hy => ?_).symm)
  rw [List.length_replicate] at hi
  exact notInData_tail (mem_allProperties.mpr ⟨n, h.node, h.prop⟩) hy h.length_data (by omega)
    (by omega)

end Damaged

/-- A patch that returns has left the image or stored eight bytes at a property it found. -/
theorem processPatch_cases {o : ℕ} {r : Bytes × Bool}
    (h : DT.processPatch split mem o spec = .ok r) : r.1 = mem ∨
      ∃ path prop v, DTNode.lookupProperty split mem o path = .ok (some prop) ∧
        (DTProp.sizeRaw mem prop = .ok 4 ∧ v < 2 ^ 32 ∨ DTProp.sizeRaw mem prop = .ok 8) ∧
        patch mem (DTProp.data prop) (leBytes 8 v) = some r.1 := by
  unfold DT.processPatch at h
  split at h
  · rename_i propPath propValStr _
    obtain ⟨prop?, hprop, h⟩ := bind_eq_ok.mp h
    cases prop? with
    | none =>
      obtain rfl := Except.ok.inj h
      exact Or.inl rfl
    | some prop =>
      obtain ⟨sz, hsz, h⟩ := bind_eq_ok.mp h
      split_ifs at h with h4
      · subst h4
        cases hv : sv2int 4 propValStr with
        | none =>
          simp only [hv, pure_eq_ok] at h
          obtain rfl := Except.ok.inj h
          exact Or.inl rfl
        | some v =>
          simp only [hv, asU32_eq hsz, ok_bind] at h
          obtain ⟨_, -, h⟩ := bind_eq_ok.mp h
          obtain ⟨m, hm, h⟩ := bind_eq_ok.mp h
          obtain rfl := Except.ok.inj h
          exact Or.inr ⟨propPath, prop, v, hprop, Or.inl ⟨hsz, sv2int_lt hv⟩, store_eq_ok hm⟩
      · obtain ⟨sz', hsz', h⟩ := bind_eq_ok.mp h
        split_ifs at h with h8
        · subst h8
          cases hv : sv2int 8 propValStr with
          | none =>
            simp only [hv, pure_eq_ok] at h
            obtain rfl := Except.ok.inj h
            exact Or.inl rfl
          | some v =>
            simp only [hv, asU64_eq hsz', ok_bind] at h
            obtain ⟨_, -, h⟩ := bind_eq_ok.mp h
            obtain ⟨m, hm, h⟩ := bind_eq_ok.mp h
            obtain rfl := Except.ok.inj h
            exact Or.inr ⟨propPath, prop, v, hprop, Or.inr hsz', store_eq_ok hm⟩
        · obtain rfl := Except.ok.inj h
          exact Or.inl rfl
  · obtain rfl := Except.ok.inj h
    exact Or.inl rfl

/-- Some tail of the tree is damaged. -/
def SomeDamage (mem₀ : Bytes) (p : ℕ × DTree) (mem : Bytes) : Prop :=
  ∃ n x, Damaged mem₀ p n x mem

theorem Damaged.step (h : Damaged mem₀ p n x mem) (h₀ : Laid mem₀ p) {r : Bytes × Bool}
    (hr : DT.processPatch split mem p.1 spec = .ok r) : SomeDamage mem₀ p r.1 := by
  rcases processPatch_cases hr with heq | ⟨path, prop, v, hfound, hsz, hp⟩
  · exact ⟨n, x, heq ▸ h⟩
  · rcases h.toFramedTo.reached_lookupProperty hfound with ⟨q, hq, hle, y, hy, rfl⟩ | hbehind
    · have hyp := mem_allProperties.mpr ⟨q, hq, hy⟩
      rw [Property.sizeRaw_eq ((h.framed q hq hle).sizeWord y hy), Except.ok.injEq,
        Except.ok.injEq] at hsz
      have h4 : UInt32.ofNat y.2.data.length = 4 ↔ y.2.data.length = 4 :=
        sizeWord_eq_iff y.2 (by decide)
      have h8 : UInt32.ofNat y.2.data.length = 8 ↔ y.2.data.length = 8 :=
        sizeWord_eq_iff y.2 (by decide)
      rw [h4, h8] at hsz
      rcases hsz with ⟨hy4, hv⟩ | hy8
      · by_cases hclear : TailClear mem₀ y
        · exact ⟨n, x, h.store_clear h₀ hyp (Or.inl ⟨hy4, hv, hclear⟩) hp⟩
        · exact ⟨q, y, (h.toFramedTo.mono hq hle).damage hy hy4 hclear hv hp⟩
      · exact ⟨n, x, h.store_clear h₀ hyp (Or.inr hy8) hp⟩
    · exact ⟨n, x, h.store_behind hbehind hp⟩

theorem SomeDamage.run (h : SomeDamage mem₀ p mem) (h₀ : Laid mem₀ p) {specs : List Bytes}
    {good : Bool} {r : Bytes × Bool} (hr : DT.processSpecs split p.1 specs mem good = .ok r) :
    SomeDamage mem₀ p r.1 := by
  induction specs generalizing mem good with
  | nil =>
    obtain rfl := Except.ok.inj hr
    exact h
  | cons spec specs ih =>
    obtain ⟨r', hr', hr⟩ := bind_eq_ok.mp hr
    obtain ⟨n, x, hd⟩ := h
    exact ih (hd.step h₀ hr') hr

/-! ### Whole runs -/

/-- Every patch accepted on a property of four bytes meets a clear tail. -/
def TailsClear (split : SplitView) (mem : Bytes) (p : ℕ × DTree) (specs : List Bytes) : Prop :=
  ∀ spec ∈ specs, ∀ a ∈ accepted split p spec, a.1.2.data.length = 4 → TailClear mem a.1

instance (split : SplitView) (mem : Bytes) (p : ℕ × DTree) (specs : List Bytes) :
    Decidable (TailsClear split mem p specs) :=
  inferInstanceAs (Decidable (∀ spec ∈ specs, ∀ a ∈ accepted split p spec,
    a.1.2.data.length = 4 → TailClear mem a.1))

/-- No patch names a property called `name`. -/
def NoNames (split : SplitView) (p : ℕ × DTree) (specs : List Bytes) : Prop :=
  ∀ spec ∈ specs, ∀ t ∈ specTarget split p spec, t.1.2.name ≠ nameLit

instance (split : SplitView) (p : ℕ × DTree) (specs : List Bytes) :
    Decidable (NoNames split p specs) :=
  inferInstanceAs (Decidable (∀ spec ∈ specs, ∀ t ∈ specTarget split p spec,
    t.1.2.name ≠ nameLit))

/-- Only the data of the properties named by the patches differs, and each of these holds the
last value accepted for it, or its own data. -/
structure PatchedRight (split : SplitView) (mem : Bytes) (p : ℕ × DTree) (specs : List Bytes)
    (mem' : Bytes) : Prop where
  length : mem'.length = mem.length
  frame : ∀ i, (∀ spec ∈ specs, ∀ t ∈ specTarget split p spec, ¬InData t.1 i) →
    mem'[i]? = mem[i]?
  final : ∀ spec ∈ specs, ∀ t ∈ specTarget split p spec,
    At mem' (DTProp.data t.1.1) (finalData split p specs t.1)

/-- `process_patches` returns and has patched exactly what the patches name. -/
def PatchesRight (split : SplitView) (mem : Bytes) (p : ℕ × DTree) (patchesSpec : Bytes) : Prop :=
  ∃ mem' good, DT.processPatches split mem p.1 patchesSpec = .ok (mem', good) ∧
    PatchedRight split mem p (stringSplitViewDelimitedBy split patchesSpec DT.space) mem'

variable {seen specs : List Bytes} {good : Bool}

theorem NoNames.accepted (h : NoNames split p specs) (hs : spec ∈ specs) {a : (ℕ × Property) × ℕ}
    (ha : accepted split p spec = some a) : a.1.2.name ≠ nameLit := by
  obtain ⟨⟨val, ht⟩, -⟩ := accepted_cases (x := a.1) (v := a.2) ha
  exact h spec hs _ ht

theorem Progress.patchedRight (h : Progress split mem₀ p specs mem) :
    PatchedRight split mem₀ p specs mem where
  length := h.length
  frame i hi := h.frame i fun spec hs a ha => by
    obtain ⟨⟨val, ht⟩, -⟩ := accepted_cases (x := a.1) (v := a.2) ha
    exact hi spec hs _ ht
  final _ _ _ ht := h.final _ (specTarget_mem ht)

/-- Over clear tails every patch is applied in place. -/
theorem Progress.run (h₀ : Image mem₀ p) (hw : p.2.WellFormed)
    (hname : NoNames split p (seen ++ specs)) (hclear : TailsClear split mem₀ p specs)
    (h : Progress split mem₀ p seen mem) :
    ∃ r, DT.processSpecs split p.1 specs mem good = .ok r ∧
      Progress split mem₀ p (seen ++ specs) r.1 := by
  induction specs generalizing seen mem good with
  | nil => exact ⟨(mem, good), rfl, by simpa using h⟩
  | cons spec specs ih =>
    have hlaid := h.laid h₀.laid fun s hs a ha => hname.accepted (by simp [hs]) ha
    have heq := hlaid.processPatch_eq hw (h.dataFits h₀.dataFits) split spec
    have hclear' : TailsClear split mem₀ p specs := fun s hs => hclear s (by simp [hs])
    rw [List.append_cons] at hname ⊢
    simp only [DT.processSpecs]
    cases ha : accepted split p spec with
    | none =>
      rw [ha] at heq
      simp only [heq, ok_bind]
      exact ih hname hclear' (h.skip ha)
    | some a =>
      obtain ⟨x, v⟩ := a
      have hx := (accepted_cases ha).2.1
      have hroom : DTProp.data x.1 + (leBytes 8 v).length ≤ mem.length := by
        rw [h.length, length_leBytes]
        rcases (accepted_cases ha).2.2 with ⟨h4, -⟩ | h8
        · have := (hclear spec (by simp) _ ha h4).length_le (by simp)
          simpa [add_assoc] using this
        · have := h₀.dataFits x hx
          rwa [h8] at this
      obtain ⟨mem', hp⟩ := patch_isSome hroom
      rw [ha] at heq
      simp only [store_of_patch hp, ok_bind, pure_eq_ok] at heq
      simp only [heq, ok_bind]
      exact ih hname hclear' (h.store ha (hclear spec (by simp) _ ha) hp)

/-- A run over a tail that is not clear ends in damage. -/
theorem Progress.run_damage (h₀ : Image mem₀ p) (hw : p.2.WellFormed)
    (hname : NoNames split p (seen ++ specs)) (hnot : ¬TailsClear split mem₀ p specs)
    (h : Progress split mem₀ p seen mem) {r : Bytes × Bool}
    (hr : DT.processSpecs split p.1 specs mem good = .ok r) : SomeDamage mem₀ p r.1 := by
  induction specs generalizing seen mem good with
  | nil => exact absurd (fun _ hs => by simp at hs) hnot
  | cons spec specs ih =>
    have hlaid := h.laid h₀.laid fun s hs a ha => hname.accepted (by simp [hs]) ha
    have heq := hlaid.processPatch_eq hw (h.dataFits h₀.dataFits) split spec
    rw [List.append_cons] at hname
    simp only [DT.processSpecs] at hr
    cases ha : accepted split p spec with
    | none =>
      rw [ha] at heq
      simp only [heq, ok_bind] at hr
      refine ih hname (fun hc => hnot ?_) (h.skip ha) hr
      intro s hs
      rcases List.mem_cons.mp hs with rfl | hs
      · simp [ha]
      · exact hc s hs
    | some a =>
      obtain ⟨x, v⟩ := a
      obtain ⟨r', hr', hr⟩ := bind_eq_ok.mp hr
      rw [heq, ha] at hr'
      obtain ⟨mem', hst, hret⟩ := bind_eq_ok.mp hr'
      obtain rfl := Except.ok.inj hret
      have hp := store_eq_ok hst
      by_cases hx : x.2.data.length = 4 → TailClear mem₀ x
      · refine ih hname (fun hc => hnot ?_) (h.store ha hx hp) hr
        intro s hs
        rcases List.mem_cons.mp hs with rfl | hs
        · intro a hy
          obtain rfl := Option.some.inj (ha.symm.trans hy)
          exact hx
        · exact hc s hs
      · obtain ⟨h4, hclear⟩ := Classical.not_imp.mp hx
        obtain ⟨-, hxp, h48⟩ := accepted_cases ha
        obtain ⟨q, hq, hxq⟩ := mem_allProperties.mp hxp
        have hv : v < 2 ^ 32 := by
          rcases h48 with h48 | h8
          · exact h48.2
          · exact absurd (h4.symm.trans h8) (by decide)
        have hto : FramedTo mem p q := ⟨hq, fun s hs _ => (hlaid s hs).toFramed⟩
        exact SomeDamage.run ⟨q, x, hto.damage hxq h4 hclear hv hp⟩ h₀.laid hr

/-- A run that went right met only clear tails. -/
theorem PatchesRight.tailsClear {patchesSpec : Bytes}
    (hright : PatchesRight split mem p patchesSpec) (h : Image mem p) (hw : p.2.WellFormed)
    (hname : NoNames split p (stringSplitViewDelimitedBy split patchesSpec DT.space)) :
    TailsClear split mem p (stringSplitViewDelimitedBy split patchesSpec DT.space) := by
  obtain ⟨mem', good, hrun, hright⟩ := hright
  by_contra hnot
  obtain ⟨n, x, hd⟩ := h.progress.run_damage h hw hname hnot hrun
  exact hd.not_frame fun i hi => hright.frame i fun s hs t ht => hi _ (specTarget_mem ht)

theorem patchesRight_iff {patchesSpec : Bytes} (h : Image mem p) (hw : p.2.WellFormed)
    (hname : NoNames split p (stringSplitViewDelimitedBy split patchesSpec DT.space)) :
    PatchesRight split mem p patchesSpec ↔
      TailsClear split mem p (stringSplitViewDelimitedBy split patchesSpec DT.space) := by
  constructor
  · exact fun hright => hright.tailsClear h hw hname
  · intro hclear
    obtain ⟨⟨mem', good⟩, hrun, hprog⟩ := h.progress.run h hw hname hclear
    exact ⟨mem', good, hrun, hprog.patchedRight⟩

/-- A property of four bytes with a one-letter name. -/
def word (c : Char) (n : ℕ) : Property :=
  lettered c (leBytes 4 n) (by rw [length_leBytes]; omega)

/-- The word is the last property of its node, and the next node has no properties. -/
def wordThenEmpty : DTree := .node [] [named 'a' [word 'p' 1] [], .node [] []]

/-- The word is followed by another property. -/
def wordThenWord : DTree := .node [] [named 'a' [word 'p' 1, word 'q' 2] []]

/-- The patch `/a#p=5`. -/
def patchP : Bytes := ascii ['/', 'a', '#', 'p', '=', '5']

theorem patchesRight_wordThenEmpty :
    PatchesRight (fun s d => s.splitOn d) wordThenEmpty.flatten (0, wordThenEmpty) patchP :=
  (patchesRight_iff (image_flatten _ (by decide)) (by decide) (by decide)).mpr (by decide)

theorem not_patchesRight_wordThenWord : wordThenWord.WellFormed ∧
    NoNames (fun s d => s.splitOn d) (0, wordThenWord) [patchP] ∧
    ¬PatchesRight (fun s d => s.splitOn d) wordThenWord.flatten (0, wordThenWord) patchP := by
  refine ⟨by decide, by decide, fun hright => ?_⟩
  have hclear := hright.tailsClear (image_flatten _ (by decide)) (by decide) (by decide)
  revert hclear
  decide

end DTree
end JevMachO

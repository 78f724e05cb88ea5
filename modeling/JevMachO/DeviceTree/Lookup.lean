import JevMachO.DeviceTree.Children
import JevMachO.DeviceTree.Regions

/-! Node and property lookup. Components are matched against the nodes the child iterator of
the starting node stops at, each component on its own, so a path is followed only as far as
`scannedTarget` and `pathTarget` agree. -/
namespace JevMachO
namespace DTree
open Lib

/-- The first property with the name, of a node at its offset. -/
def propertyAt (name : Bytes) (p : ℕ × DTree) : Option (ℕ × Property) :=
  (propertiesAt p).find? fun q => q.2.name == name

/-- The first node among those the child iterator stops at with the name. -/
def scannedChild (p : ℕ × DTree) (name : Bytes) : Option (ℕ × DTree) :=
  (scanned p).find? fun q => q.2.name == some name

/-- The node the last name of the list selects when every name is looked up from `p`. -/
def scannedTarget (p : ℕ × DTree) : List Bytes → ℕ × DTree → Option (ℕ × DTree)
  | [], res => some res
  | name :: names, _ => (scannedChild p name).bind (scannedTarget p names)

/-- The direct child with the name. -/
def directChild (p : ℕ × DTree) (name : Bytes) : Option (ℕ × DTree) :=
  (childrenAt p).find? fun q => q.2.name == some name

/-- The node reached by following direct children. -/
def pathTarget (p : ℕ × DTree) : List Bytes → Option (ℕ × DTree)
  | [] => some p
  | name :: names => (directChild p name).bind fun q => pathTarget q names

/-- The property a path string resolves to in a tree. -/
def resolve (split : SplitView) (p : ℕ × DTree) (path : Bytes) : Option (ℕ × Property) :=
  match stringSplitViewDelimitedBy split path hash with
  | [nodePath, propName] =>
    if nodePath.head? = some slash then
      (scannedTarget p ((stringSplitViewDelimitedBy split nodePath slash).drop 1) p).bind
        (propertyAt propName)
    else none
  | _ => none

theorem mem_of_scannedTarget {p res q : ℕ × DTree} {names : List Bytes}
    (h : scannedTarget p names res = some q) : q = res ∨ q ∈ scanned p := by
  induction names generalizing res with
  | nil => exact Or.inl (Option.some.inj h).symm
  | cons name names ih =>
    obtain ⟨r, hr, hq⟩ := Option.bind_eq_some_iff.mp h
    rcases ih hq with rfl | hq
    · exact Or.inr (List.mem_of_find?_eq_some hr)
    · exact Or.inr hq

theorem WellFormed.scanned {p q : ℕ × DTree} (h : p.2.WellFormed) (hq : q ∈ scanned p) :
    q.2.WellFormed :=
  fun s hs => h s (Rose.preorder_trans (mem_preorder_of_nodesAt (mem_nodesAt_of_scanned hq)) hs)

theorem WellFormed.namesOk {t : DTree} (h : t.WellFormed) : NamesOk t :=
  h t (Rose.self_mem_preorder t)

theorem nameProp_eq (p : ℕ × DTree) : p.2.nameProp = (propertyAt nameLit p).map Prod.snd := by
  unfold nameProp
  rw [propertyAt, propertiesAt,
    ← map_snd_locate Property.size (p.1 + DTNode.sizeofNode) p.2.label, List.find?_map]
  rw [map_snd_locate]
  rfl

theorem mem_propertiesAt {name : Bytes} {p : ℕ × DTree} {x : ℕ × Property}
    (h : propertyAt name p = some x) : x ∈ propertiesAt p := List.mem_of_find?_eq_some h

theorem name_of_propertyAt {name : Bytes} {p : ℕ × DTree} {x : ℕ × Property}
    (h : propertyAt name p = some x) : x.2.name = name := by
  simpa using List.find?_some h

namespace Labelled
variable {mem : Bytes} {p : ℕ × DTree}

theorem propertyAt_eq (h : Labelled mem p) (hn : NamesOk p.2) (name : Bytes) :
    DTNode.propertyNamed mem p.1 name = .ok ((propertyAt name p).map Prod.fst) :=
  h.propertyNamed_eq hn.props name

theorem nameOrNullptr_eq (h : Labelled mem p) (hn : NamesOk p.2) :
    DTNode.nameOrNullptr mem p.1 =
      .ok ((propertyAt nameLit p).map fun q => DTProp.data q.1) := by
  simp only [DTNode.nameOrNullptr, h.propertyAt_eq hn, ok_bind, pure_eq_ok, Option.map_map]
  rfl

/-- The predicate `child_named` scans with compares the node's own name. -/
theorem childNamed_pred (h : Labelled mem p) (hn : NamesOk p.2) (name : Bytes) :
    (do
      match ← DTNode.nameOrNullptr mem p.1 with
      | none => return false
      | some namePtr => return (← cstr mem namePtr) == name : Exec Bool) =
      .ok (p.2.name == some name) := by
  rw [h.nameOrNullptr_eq hn, DTree.name, nameProp_eq, ok_bind]
  cases hp : propertyAt nameLit p with
  | none => rfl
  | some q =>
    have h0 := hn.node q.2 (by rw [nameProp_eq, hp]; rfl)
    have hc := cstr_of_at (h.nodeName q (mem_propertiesAt hp) (name_of_propertyAt hp)) h0
    simp only [Option.map_some, hc, ok_bind, pure_eq_ok]
    rfl

end Labelled

namespace Laid
variable {mem : Bytes} {p : ℕ × DTree}

theorem childNamed_eq (h : Laid mem p) (hw : p.2.WellFormed) (name : Bytes) :
    DTNode.childNamed mem p.1 name = .ok ((scannedChild p name).map Prod.fst) := by
  have hfind := h.visits_children.findIfOrNull
    (fun child => do
      match ← DTNode.nameOrNullptr mem child with
      | none => return false
      | some namePtr => return (← cstr mem namePtr) == name)
    (fun q => q.2.name == some name)
    (fun q hq => (h.scanned hq).self.childNamed_pred (hw.scanned hq).namesOk name)
    p.2.children.length (Rose.length_scanned headerSize p).le
  unfold DTNode.childNamed
  rw [h.self.children_eq, ok_bind,
    SizedIterator.sz_ofSize _ _ h.self.length_children_lt]
  exact hfind

/-- A child that is found is a node the child iterator stops at, whatever its name. -/
theorem exists_of_childNamed (h : Laid mem p) {name : Bytes} {n : ℕ}
    (hf : DTNode.childNamed mem p.1 name = .ok (some n)) : ∃ q ∈ DTree.scanned p, q.1 = n := by
  unfold DTNode.childNamed at hf
  rw [h.self.children_eq, ok_bind] at hf
  exact List.mem_map.mp (h.visits_children.mem_of_findIfOrNull hf)

theorem lookupComponents_eq (h : Laid mem p) (hw : p.2.WellFormed) (names : List Bytes)
    (res : ℕ × DTree) : DTNode.lookupComponents mem p.1 names res.1 =
      .ok ((scannedTarget p names res).map Prod.fst) := by
  induction names generalizing res with
  | nil => rfl
  | cons name names ih =>
    unfold DTNode.lookupComponents
    rw [h.childNamed_eq hw, ok_bind, scannedTarget]
    cases scannedChild p name with
    | none => rfl
    | some q => exact ih q

/-- `lookup_property` finds what the path string resolves to. -/
theorem lookupProperty_eq (h : Laid mem p) (hw : p.2.WellFormed) (split : SplitView)
    (path : Bytes) : DTNode.lookupProperty split mem p.1 path =
      .ok ((resolve split p path).map Prod.fst) := by
  unfold DTNode.lookupProperty resolve
  rcases stringSplitViewDelimitedBy split path hash with
    _ | ⟨nodePath, _ | ⟨propName, _ | ⟨_, _⟩⟩⟩
  · rfl
  · rfl
  · dsimp only
    unfold DTNode.lookupNode
    by_cases hs : nodePath.head? = some slash
    · rw [if_neg (not_not_intro hs), if_pos hs, h.lookupComponents_eq hw, ok_bind]
      cases ht : scannedTarget p ((stringSplitViewDelimitedBy split nodePath slash).drop 1) p with
      | none => rfl
      | some q =>
        rcases mem_of_scannedTarget ht with rfl | hq
        · exact h.self.propertyAt_eq hw.namesOk propName
        · exact (h.scanned hq).self.propertyAt_eq (hw.scanned hq).namesOk propName
    · rw [if_pos hs, if_neg hs]
      rfl
  · rfl

end Laid

/-! ### Paths of names -/

/-- Component names and a property name that a path string can carry. -/
structure PathNames (names : List Bytes) (propName : Bytes) : Prop where
  ne_nil : names ≠ []
  name : ∀ c ∈ names, c ≠ [] ∧ slash ∉ c ∧ hash ∉ c
  prop : propName ≠ [] ∧ hash ∉ propName

/-- The string `/c1/../ck`. -/
def nodePath (names : List Bytes) : Bytes := names.flatMap (slash :: ·)

/-- The string `/c1/../ck#p`. -/
def propertyPath (names : List Bytes) (propName : Bytes) : Bytes :=
  nodePath names ++ hash :: propName

theorem nodePath_eq {names : List Bytes} (h : names ≠ []) :
    nodePath names = List.intercalate [slash] ([] :: names) := (intercalate_nil_cons h).symm

theorem propertyPath_eq (names : List Bytes) (propName : Bytes) :
    propertyPath names propName = List.intercalate [hash] [nodePath names, propName] := by
  simp [propertyPath, List.intercalate]

variable {split : SplitView} {names : List Bytes} {propName : Bytes}

theorem split_nodePath (hs : split.YieldsSegments) (hn : PathNames names propName) :
    split (nodePath names) slash = [] :: names := by
  rw [nodePath_eq hn.ne_nil]
  refine hs slash _ (by simp) ?_ ?_
  · intro c hc
    rcases List.mem_cons.mp hc with rfl | hc
    · simp
    · exact (hn.name c hc).2.1
  · rw [List.getLast?_cons, List.getLast?_eq_some_getLast hn.ne_nil, Option.getD_some]
    intro h
    exact (hn.name _ (List.getLast_mem hn.ne_nil)).1 (Option.some.inj h)

theorem hash_notMem_nodePath (hn : PathNames names propName) : hash ∉ nodePath names := by
  intro h
  obtain ⟨c, hc, hm⟩ := List.mem_flatMap.mp h
  rcases List.mem_cons.mp hm with hm | hm
  · exact absurd hm (by decide)
  · exact (hn.name c hc).2.2 hm

theorem split_propertyPath (hs : split.YieldsSegments) (hn : PathNames names propName) :
    split (propertyPath names propName) hash = [nodePath names, propName] := by
  rw [propertyPath_eq]
  refine hs hash _ (by simp) ?_ ?_
  · intro c hc
    rcases List.mem_pair.mp hc with rfl | rfl
    · exact hash_notMem_nodePath hn
    · exact hn.prop.2
  · simpa using hn.prop.1

theorem resolve_propertyPath (hs : split.YieldsSegments) (hn : PathNames names propName)
    (p : ℕ × DTree) : resolve split p (propertyPath names propName) =
      (scannedTarget p names p).bind (propertyAt propName) := by
  have hhead : (nodePath names).head? = some slash := by
    obtain ⟨c, cs, rfl⟩ := List.exists_cons_of_ne_nil hn.ne_nil
    rfl
  unfold resolve stringSplitViewDelimitedBy
  simp only [split_propertyPath hs hn, split_nodePath hs hn, hhead, if_true, List.drop_one,
    List.tail_cons]

/-- Every name is the name of a node the child iterator stops at. -/
def NamesScanned (p : ℕ × DTree) (names : List Bytes) : Prop :=
  ∀ c ∈ names, ∃ s ∈ scanned p, s.2.name = some c

instance (p : ℕ × DTree) (names : List Bytes) : Decidable (NamesScanned p names) :=
  inferInstanceAs (Decidable (∀ c ∈ names, ∃ s ∈ scanned p, s.2.name = some c))

theorem scannedChild_eq_none {p : ℕ × DTree} {c : Bytes} :
    scannedChild p c = none ↔ ¬∃ s ∈ scanned p, s.2.name = some c := by
  simp [scannedChild, List.find?_eq_none]

theorem namesScanned_cons {p : ℕ × DTree} {c : Bytes} {cs : List Bytes} :
    NamesScanned p (c :: cs) ↔ scannedChild p c ≠ none ∧ NamesScanned p cs := by
  rw [ne_eq, scannedChild_eq_none, not_not]
  exact List.forall_mem_cons

/-- A path is followed to its end exactly when every component names a node the scan of the
starting node stops at; the last component alone selects the result. -/
theorem scannedTarget_eq (p : ℕ × DTree) (hne : names ≠ []) (res : ℕ × DTree) :
    scannedTarget p names res =
      if NamesScanned p names then scannedChild p (names.getLast hne) else none := by
  induction names generalizing res with
  | nil => exact absurd rfl hne
  | cons c cs ih =>
    unfold scannedTarget
    simp only [namesScanned_cons]
    cases hc : scannedChild p c with
    | none => simp
    | some q =>
      cases cs with
      | nil => simp [scannedTarget, hc, NamesScanned]
      | cons d ds => simpa using ih (by simp) q

/-! ### Where a property lies tells the node -/

def hasProperty (propName : Bytes) (p : ℕ × DTree) : Bool := (propertyAt propName p).isSome

theorem hasProperty_iff {p : ℕ × DTree} :
    hasProperty propName p = true ↔ ∃ x, propertyAt propName p = some x := Option.isSome_iff_exists

/-- Two lookups that end in nodes of one tree give the same property exactly when they end in
the same node, or both in none that has it. -/
theorem property_eq_iff {p : ℕ × DTree} {a b : Option (ℕ × DTree)}
    (ha : ∀ q, a = some q → q ∈ nodesAt p.1 p.2) (hb : ∀ q, b = some q → q ∈ nodesAt p.1 p.2) :
    (a.bind (propertyAt propName)).map Prod.fst = (b.bind (propertyAt propName)).map Prod.fst ↔
      a.filter (hasProperty propName) = b.filter (hasProperty propName) := by
  have hfilter : ∀ c : Option (ℕ × DTree), (c.filter (hasProperty propName)).bind
      (propertyAt propName) = c.bind (propertyAt propName) := by
    rintro (_ | q)
    · rfl
    · cases hq : propertyAt propName q with
      | none => simp [hasProperty, Option.filter, hq]
      | some x => simp [hasProperty, Option.filter, hq]
  have hsome : ∀ {c : Option (ℕ × DTree)}, (∀ q, c = some q → q ∈ nodesAt p.1 p.2) → ∀ q,
      c.filter (hasProperty propName) = some q →
      q ∈ nodesAt p.1 p.2 ∧ ∃ x, propertyAt propName q = some x := by
    intro c hc q hq
    obtain ⟨rfl, hp⟩ := Option.filter_eq_some_iff.mp hq
    exact ⟨hc q rfl, hasProperty_iff.mp hp⟩
  constructor
  · rw [← hfilter a, ← hfilter b]
    intro h
    cases hq : a.filter (hasProperty propName) with
    | none =>
      cases hr : b.filter (hasProperty propName) with
      | none => rfl
      | some r =>
        obtain ⟨-, y, hy⟩ := hsome hb r hr
        simp [hq, hr, hy] at h
    | some q =>
      obtain ⟨hqm, x, hx⟩ := hsome ha q hq
      cases hr : b.filter (hasProperty propName) with
      | none => simp [hq, hr, hx] at h
      | some r =>
        obtain ⟨hrm, y, hy⟩ := hsome hb r hr
        have hxy : x.1 = y.1 := by simpa [hq, hr, hx, hy] using h
        rw [eq_of_property_eq hqm hrm (mem_propertiesAt hx) (mem_propertiesAt hy) hxy]
  · intro h
    rw [← hfilter a, ← hfilter b, h]

theorem mem_nodesAt_of_scannedTarget {p res q : ℕ × DTree} (hres : res ∈ nodesAt p.1 p.2)
    (h : scannedTarget p names res = some q) : q ∈ nodesAt p.1 p.2 := by
  rcases mem_of_scannedTarget h with rfl | hq
  · exact hres
  · exact mem_nodesAt_of_scanned hq

theorem mem_nodesAt_of_pathTarget {p q : ℕ × DTree} (h : pathTarget p names = some q) :
    q ∈ nodesAt p.1 p.2 := by
  induction names generalizing p with
  | nil =>
    obtain rfl := Option.some.inj h
    exact self_mem_nodesAt _
  | cons name names ih =>
    obtain ⟨r, hr, hq⟩ := Option.bind_eq_some_iff.mp h
    exact nodesAt_trans (mem_nodesAt_of_childrenAt (List.mem_of_find?_eq_some hr)) (ih hq)

/-- `lookup_property` of `/c1/../ck#p` is the first property `p` of the node reached by
following direct children. -/
def LookupFollowsPath (split : SplitView) (mem : Bytes) (p : ℕ × DTree) (names : List Bytes)
    (propName : Bytes) : Prop :=
  DTNode.lookupProperty split mem p.1 (propertyPath names propName) =
    .ok (((pathTarget p names).bind (propertyAt propName)).map Prod.fst)

/-- Where direct children lead to a node with the property, every component names a node among
the first `nchildren` of the preorder below the starting node, and that node is the first of
them with the last component's name. Where they do not, some component names none of these
nodes, or the first with the last component's name has no such property. -/
def ScanMeetsPath (p : ℕ × DTree) (names : List Bytes) (hne : names ≠ []) (propName : Bytes) :
    Prop :=
  match (pathTarget p names).filter (hasProperty propName) with
  | some q => NamesScanned p names ∧ scannedChild p (names.getLast hne) = some q
  | none => NamesScanned p names →
      ∀ q, scannedChild p (names.getLast hne) = some q → hasProperty propName q = false

theorem lookupFollowsPath_iff (hs : split.YieldsSegments) {mem : Bytes} {p : ℕ × DTree}
    (h : Image mem p) (hw : p.2.WellFormed) (hn : PathNames names propName) :
    LookupFollowsPath split mem p names propName ↔
      ScanMeetsPath p names hn.ne_nil propName := by
  unfold LookupFollowsPath
  rw [h.laid.lookupProperty_eq hw, Except.ok.injEq, resolve_propertyPath hs hn,
    property_eq_iff (fun q hq => mem_nodesAt_of_scannedTarget (self_mem_nodesAt p) hq)
      (fun q hq => mem_nodesAt_of_pathTarget hq),
    scannedTarget_eq p hn.ne_nil, ScanMeetsPath]
  cases hq : (pathTarget p names).filter (hasProperty propName) with
  | none =>
    split_ifs with hall
    · simp only [Option.filter_eq_none_iff, hall, true_implies, Bool.not_eq_true]
    · simp only [Option.filter_none, hall, false_implies]
  | some q =>
    have hprop := (Option.filter_eq_some_iff.mp hq).2
    split_ifs with hall
    · simp only [Option.filter_eq_some_iff, hprop, hall, true_and, and_true]
    · simp only [Option.filter_none, hall, false_and, reduceCtorEq]

/-- A node with a one-letter name before its other properties. -/
def named (c : Char) (props : List Property) (children : List DTree) : DTree :=
  .node (.ofData nameLit [c.toUInt8, 0] length_nameLit_le (by simp) :: props)
    children

/-- A property with a one-letter name. -/
def lettered (c : Char) (data : Bytes) (hd : data.length < 2 ^ 31) : Property :=
  .ofData [c.toUInt8] data (by simp) hd

def flag (c : Char) : Property := lettered c [] (by decide)

/-- A node `a` with property `p` below the root. -/
def flatTree : DTree := named 'r' [] [named 'a' [flag 'p'] []]

/-- A node `x` with property `p` below the node `a` of the root. -/
def nestedTree : DTree := named 'r' [] [named 'a' [] [named 'x' [flag 'p'] []]]

theorem lookupFollowsPath_flatTree :
    LookupFollowsPath (fun s d => s.splitOn d) flatTree.flatten (0, flatTree)
      [ascii ['a']] (ascii ['p']) :=
  (lookupFollowsPath_iff splitOn_yieldsSegments (image_flatten _ (by decide)) (by decide)
    ⟨by decide, by decide, by decide⟩).mpr ⟨by decide, rfl⟩

theorem not_lookupFollowsPath_nestedTree : nestedTree.WellFormed ∧
    (∀ s ∈ nestedTree.preorder, (name s).isSome ∧ (s.children.map name).Nodup) ∧
    ¬LookupFollowsPath (fun s d => s.splitOn d) nestedTree.flatten (0, nestedTree)
      [ascii ['a'], ascii ['x']] (ascii ['p']) := by
  refine ⟨by decide, by decide, ?_⟩
  unfold LookupFollowsPath
  rw [(image_flatten nestedTree (by decide)).laid.lookupProperty_eq (by decide)]
  decide

end DTree
end JevMachO

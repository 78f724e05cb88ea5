import JevMachO.Common

/-! Paths into an APFS container and the nodes they name. The container's volumes and the
directory records of a volume come from an external library and are taken as they are. -/
namespace JevMachO
namespace APFS
open Lib

def dtDir : UInt8 := 4

/-- A directory record, with the type bits of its flags. -/
structure DirRec where
  parentId : UInt64
  name : Bytes
  fileId : UInt64
  drecType : UInt8
  deriving DecidableEq, Repr

def DirRec.isDir (dirrec : DirRec) : Bool := dirrec.drecType = dtDir

/-- `ApfsVolume`: the `apfs_volname` buffer of its superblock, and what `name()` answers while the
container is open and when it is closed. The library promises `name_eq`: the name is what the
buffer holds, and a volume keeps its own copy of that. -/
structure ApfsVolume where
  apfsVolname : Bytes
  name (closed : Bool) : Bytes
  name_eq : ∀ closed, name closed = untilNul apfsVolname

/-- `ApfsContainer`: its volumes in order, the library's `ROOT_DIR_PARENT`, and `LookupName` by
volume index, parent id and C string. -/
structure Container where
  volumes : List ApfsVolume
  rootDirParent : UInt64
  lookupName : ℕ → UInt64 → Bytes → Option DirRec

/-- A node, by the constructor that made it: the container, a volume of it (by index), or a
directory record in a volume. -/
inductive APFSNode where
  | container
  | volume (vol : ℕ)
  | record (vol : ℕ) (dirrec : DirRec)
  deriving DecidableEq, Repr

def APFSNode.childNamed (container : Container) (name : Bytes) : APFSNode → Option APFSNode
  | .container => (container.volumes.findIdx? fun vol => vol.name false == name).map .volume
  | .volume vol =>
    (container.lookupName vol container.rootDirParent (untilNul name)).map (.record vol)
  | .record vol dirrec =>
    if dirrec.isDir then (container.lookupName vol dirrec.fileId (untilNul name)).map (.record vol)
    else none

/-! ### Paths -/

/-- The loop of `ranges::join`. -/
def joinLoop (del : Bytes) (lastIdx : ℕ) : ℕ → List Bytes → Bytes → Bytes
  | _, [], res => res
  | i, el :: rng, res =>
    let res := res ++ el
    let res := if i ≠ lastIdx then res ++ del else res
    joinLoop del lastIdx (i + 1) rng res

def join (rng : List Bytes) (del : Bytes) : Bytes := joinLoop del (rng.length - 1) 0 rng []

structure APFSPath where
  volume : Bytes
  path : Bytes
  deriving DecidableEq, Repr

/-- The constructor from a volume name and a path in the volume. -/
def APFSPath.ofVolume (volume volumePath : Bytes) : Exec APFSPath := do
  assertThat (!volume.isEmpty)
  return ⟨volume, if volumePath.isEmpty then [slash] else volumePath⟩

/-- The constructor from one string. -/
def APFSPath.ofFullPath (split : SplitView) (fullPath : Bytes) : Exec APFSPath := do
  let fp := if fullPath.isEmpty || fullPath.head? != some slash then slash :: fullPath
    else fullPath
  let sv := (stringSplitViewDelimitedBy split fp slash).drop 1
  let volume := (sv[0]?).getD []
  let path := join (sv.drop 1) [slash]
  if !path.isEmpty then assertThat (!volume.isEmpty)
  return ⟨volume, path⟩

/-- The first volume whose `apfs_volname`, a C string, is the given string. -/
def lookupVolume (volName : Bytes) (container : Container) : Option ℕ :=
  container.volumes.findIdx? fun vol => volName == untilNul vol.apfsVolname

/-- The loop of `lookup`: from node to child, until a child is missing. -/
def childrenNamed (container : Container) (res : APFSNode) (names : List Bytes) :
    Option APFSNode :=
  names.foldlM (fun res childName => res.childNamed container childName) res

def lookup (split : SplitView) (path : APFSPath) (container : Container) : Option APFSNode :=
  if path.volume.isEmpty then some .container
  else match lookupVolume path.volume container with
  | none => none
  | some vol =>
    let res := APFSNode.volume vol
    if path.path.isEmpty then some res
    else childrenNamed container res ((stringSplitViewDelimitedBy split path.path slash).drop 1)

/-- `lookup` of a path that is being constructed. -/
def lookupOf (split : SplitView) (path : Exec APFSPath) (container : Container) :
    Exec (Option APFSNode) := do
  return lookup split (← path) container

/-! ### Name resolution -/

/-- The record that a sequence of names leads to below a directory. -/
def resolve (container : Container) (vol : ℕ) : UInt64 → List Bytes → Option DirRec
  | _, [] => none
  | parent, name :: names =>
    (container.lookupName vol parent (untilNul name)).bind fun dirrec =>
      if names.isEmpty then some dirrec
      else if dirrec.isDir then resolve container vol dirrec.fileId names
      else none

/-- The node that a sequence of names leads to from a volume. -/
def nodeAt (container : Container) (v : Bytes) (names : List Bytes) : Option APFSNode :=
  (lookupVolume v container).bind fun vol => childrenNamed container (.volume vol) names

/-- `/c1/../cn`. -/
def pathString (names : List Bytes) : Bytes := names.flatMap (slash :: ·)

theorem joinLoop_eq (del : Bytes) {rng : List Bytes} {i lastIdx : ℕ} (res : Bytes)
    (hi : i + rng.length = lastIdx + 1) :
    joinLoop del lastIdx i rng res = res ++ List.intercalate del rng := by
  induction rng generalizing i res with
  | nil => simp [joinLoop]
  | cons el rng ih =>
    rw [List.length_cons] at hi
    cases rng with
    | nil =>
      have hlast : i = lastIdx := by simpa using hi
      simp [joinLoop, hlast]
    | cons el' rng =>
      have hlast : i ≠ lastIdx := by
        rw [List.length_cons] at hi
        omega
      rw [joinLoop, if_pos hlast, ih (res ++ el ++ del) (by omega)]
      simp [List.intercalate]

theorem join_eq (rng : List Bytes) (del : Bytes) : join rng del = List.intercalate del rng := by
  cases rng with
  | nil => rfl
  | cons el rng => exact joinLoop_eq del [] (by simp)

/-! ### Nodes and records -/

section resolve
variable {container : Container} {vol : ℕ}

theorem childrenNamed_record (parent : UInt64) (name : Bytes) (names : List Bytes) :
    ((container.lookupName vol parent (untilNul name)).map (APFSNode.record vol)).bind
        (fun res => childrenNamed container res names) =
      (resolve container vol parent (name :: names)).map (APFSNode.record vol) := by
  induction names generalizing parent name with
  | nil =>
    unfold resolve
    cases container.lookupName vol parent (untilNul name) <;> rfl
  | cons name' names ih =>
    unfold resolve
    cases container.lookupName vol parent (untilNul name) with
    | none => rfl
    | some dirrec =>
      have hstep : childrenNamed container (.record vol dirrec) (name' :: names) =
          ((APFSNode.record vol dirrec).childNamed container name').bind
            fun res => childrenNamed container res names := rfl
      simp only [Option.map_some, Option.bind_some, hstep, APFSNode.childNamed,
        List.isEmpty_cons, Bool.false_eq_true, if_false]
      split_ifs with hdir
      · exact ih dirrec.fileId name'
      · rfl

/-- The steps from a volume node resolve the names from the root's parent on. -/
theorem childrenNamed_volume {names : List Bytes} (hne : names ≠ []) :
    childrenNamed container (.volume vol) names =
      (resolve container vol container.rootDirParent names).map (APFSNode.record vol) := by
  obtain ⟨name, names, rfl⟩ := List.exists_cons_of_ne_nil hne
  exact childrenNamed_record container.rootDirParent name names

end resolve

/-! ### The two constructors -/

section lookup
variable {split : SplitView} {v : Bytes} {cs : List Bytes}

theorem pathString_eq {names : List Bytes} (hne : names ≠ []) :
    pathString names = List.intercalate [slash] ([] :: names) := (intercalate_nil_cons hne).symm

/-- Splitting a path gives an empty first segment and then the names. -/
theorem split_pathString (hsplit : split.YieldsSegments) (hne : cs ≠ [])
    (hcs : ∀ c ∈ cs, c ≠ [] ∧ slash ∉ c) : split (pathString cs) slash = [] :: cs := by
  rw [pathString_eq hne]
  refine hsplit slash ([] :: cs) (by simp) ?_ ?_
  · intro c hc
    rcases List.mem_cons.mp hc with rfl | hc
    · simp
    · exact (hcs c hc).2
  · rw [List.getLast?_cons_of_ne_nil hne]
    intro hlast
    exact (hcs [] (List.mem_of_getLast? hlast)).1 rfl

/-- The constructor from one string joins the names without a leading slash. -/
theorem ofFullPath_eq (hsplit : split.YieldsSegments) (hv : v ≠ []) (hvs : slash ∉ v)
    (hcs : ∀ c ∈ cs, c ≠ [] ∧ slash ∉ c) :
    APFSPath.ofFullPath split (pathString (v :: cs)) =
      .ok ⟨v, List.intercalate [slash] cs⟩ := by
  have hseg : split (pathString (v :: cs)) slash = [] :: v :: cs := by
    refine split_pathString hsplit (by simp) fun c hc => ?_
    rcases List.mem_cons.mp hc with rfl | hc
    · exact ⟨hv, hvs⟩
    · exact hcs c hc
  have hslash : ((pathString (v :: cs)).isEmpty ||
      (pathString (v :: cs)).head? != some slash) = false := by
    simp [pathString]
  have hempty : v.isEmpty = false := List.isEmpty_eq_false_iff.mpr hv
  simp only [APFSPath.ofFullPath, hslash, stringSplitViewDelimitedBy, hseg, join_eq,
    Bool.false_eq_true, if_false, List.drop_succ_cons, List.drop_zero, List.getElem?_cons_zero,
    Option.getD_some, hempty, Bool.not_false, assertThat_true, ok_bind, pure_eq_ok, ite_self]

theorem ofVolume_eq (hv : v ≠ []) (hne : cs ≠ []) :
    APFSPath.ofVolume v (pathString cs) = .ok ⟨v, pathString cs⟩ := by
  obtain ⟨c, cs, rfl⟩ := List.exists_cons_of_ne_nil hne
  have hempty : v.isEmpty = false := List.isEmpty_eq_false_iff.mpr hv
  simp [APFSPath.ofVolume, pathString, hempty]

theorem lookup_eq (container : Container) (hv : v ≠ []) {path : Bytes} (hpath : path ≠ [])
    {segs : List Bytes} (hsegs : split path slash = segs) :
    lookup split ⟨v, path⟩ container = nodeAt container v (segs.drop 1) := by
  have hv' : v.isEmpty = false := List.isEmpty_eq_false_iff.mpr hv
  have hpath' : path.isEmpty = false := List.isEmpty_eq_false_iff.mpr hpath
  simp only [lookup, hv', hpath', Bool.false_eq_true, if_false, stringSplitViewDelimitedBy, hsegs,
    nodeAt]
  cases lookupVolume v container <;> rfl

/-- Without the leading slash, the first name is what the lookup drops. -/
theorem lookup_ofFullPath (container : Container) (hsplit : split.YieldsSegments)
    (hv : v ≠ []) (hvs : slash ∉ v) (hne : cs ≠ []) (hcs : ∀ c ∈ cs, c ≠ [] ∧ slash ∉ c) :
    lookupOf split (APFSPath.ofFullPath split (pathString (v :: cs))) container =
      .ok (nodeAt container v cs.tail) := by
  have hsegs : split (List.intercalate [slash] cs) slash = cs := by
    refine hsplit slash cs hne (fun c hc => (hcs c hc).2) fun hlast => ?_
    exact (hcs [] (List.mem_of_getLast? hlast)).1 rfl
  have hpath : List.intercalate [slash] cs ≠ [] := by
    obtain ⟨c, cs, rfl⟩ := List.exists_cons_of_ne_nil hne
    have hc := (hcs c List.mem_cons_self).1
    cases cs <;> simp [List.intercalate, hc]
  unfold lookupOf
  rw [ofFullPath_eq hsplit hv hvs hcs, ok_bind, lookup_eq container hv hpath hsegs,
    List.drop_one]
  rfl

theorem lookup_ofVolume (container : Container) (hsplit : split.YieldsSegments)
    (hv : v ≠ []) (hne : cs ≠ []) (hcs : ∀ c ∈ cs, c ≠ [] ∧ slash ∉ c) :
    lookupOf split (APFSPath.ofVolume v (pathString cs)) container =
      .ok (nodeAt container v cs) := by
  have hpath : pathString cs ≠ [] := by
    obtain ⟨c, cs, rfl⟩ := List.exists_cons_of_ne_nil hne
    simp [pathString]
  unfold lookupOf
  rw [ofVolume_eq hv hne, ok_bind,
    lookup_eq container hv hpath (split_pathString hsplit hne hcs)]
  rfl

end lookup

/-- Both ways of naming a path find the node that the successive steps lead to. -/
structure LookupsAgree (split : SplitView) (container : Container) (v : Bytes) (cs : List Bytes) :
    Prop where
  fullPath : lookupOf split (APFSPath.ofFullPath split (pathString (v :: cs))) container =
    .ok (nodeAt container v cs)
  volumePath : lookupOf split (APFSPath.ofVolume v (pathString cs)) container =
    .ok (nodeAt container v cs)

theorem lookupsAgree_iff {split : SplitView} (hsplit : split.YieldsSegments)
    (container : Container) {v : Bytes} {cs : List Bytes} (hv : v ≠ []) (hvs : slash ∉ v)
    (hne : cs ≠ []) (hcs : ∀ c ∈ cs, c ≠ [] ∧ slash ∉ c) :
    LookupsAgree split container v cs ↔
      ∀ vol, lookupVolume v container = some vol → cs.tail ≠ [] ∧
        resolve container vol container.rootDirParent cs.tail =
          resolve container vol container.rootDirParent cs := by
  have hfull := lookup_ofFullPath container hsplit hv hvs hne hcs
  have hvolume := lookup_ofVolume container hsplit hv hne hcs
  have hagree : LookupsAgree split container v cs ↔
      nodeAt container v cs.tail = nodeAt container v cs := by
    constructor
    · intro h
      exact Except.ok.inj (hfull.symm.trans h.fullPath)
    · intro h
      exact ⟨hfull.trans (congrArg _ h), hvolume⟩
  rw [hagree, nodeAt, nodeAt]
  cases lookupVolume v container with
  | none => simp
  | some vol =>
    rw [Option.bind_some, Option.bind_some, childrenNamed_volume hne]
    simp only [Option.some.injEq, forall_eq']
    by_cases htail : cs.tail = []
    · -- the volume's own node is no record
      rw [htail]
      have hself : childrenNamed container (.volume vol) [] = some (.volume vol) := rfl
      rw [hself]
      cases resolve container vol container.rootDirParent cs <;> simp
    · rw [childrenNamed_volume htail]
      have hinj : Function.Injective (APFSNode.record vol) := fun _ _ h =>
        (APFSNode.record.inj h).2
      rw [(Option.map_injective hinj).eq_iff]
      exact (and_iff_right htail).symm

def ApfsVolume.ofVolname (apfsVolname : Bytes) : ApfsVolume where
  apfsVolname := apfsVolname
  name _ := untilNul apfsVolname
  name_eq _ := rfl

/-- One volume `v` with one directory `a`, which contains itself. -/
def selfContained : Container where
  volumes := [.ofVolname (ascii ['v'])]
  rootDirParent := 1
  lookupName _ parent name :=
    if parent = 1 ∧ name = ascii ['a'] then some ⟨1, name, 1, dtDir⟩ else none

/-- `a/a` is there, and a way to the same record as `a`. -/
theorem lookupsAgree_selfContained :
    nodeAt selfContained (ascii ['v']) [ascii ['a'], ascii ['a']] =
        some (.record 0 ⟨1, ascii ['a'], 1, dtDir⟩) ∧
      LookupsAgree (fun s d => s.splitOn d) selfContained (ascii ['v'])
        [ascii ['a'], ascii ['a']] :=
  ⟨by decide, (lookupsAgree_iff splitOn_yieldsSegments selfContained (by decide) (by decide)
    (by decide) (by decide)).mpr (by
      intro vol hvol
      obtain rfl := Option.some.inj (hvol.symm.trans (rfl : _ = some 0))
      exact ⟨by decide, by decide⟩)⟩

/-- One volume `v` with one entry `a`, a directory. -/
def oneDirectory : Container where
  volumes := [.ofVolname (ascii ['v'])]
  rootDirParent := 1
  lookupName _ parent name :=
    if parent = 1 ∧ name = ascii ['a'] then some ⟨1, name, 2, dtDir⟩ else none

theorem not_lookupsAgree_directory :
    lookupOf (fun s d => s.splitOn d) (APFSPath.ofFullPath (fun s d => s.splitOn d)
        (ascii ['/', 'v', '/', 'a'])) oneDirectory = .ok (some (.volume 0)) ∧
      lookupOf (fun s d => s.splitOn d) (APFSPath.ofVolume (ascii ['v']) (ascii ['/', 'a']))
        oneDirectory = .ok (some (.record 0 ⟨1, ascii ['a'], 2, dtDir⟩)) ∧
      ¬LookupsAgree (fun s d => s.splitOn d) oneDirectory (ascii ['v']) [ascii ['a']] :=
  ⟨by decide, by decide, fun h => absurd h.fullPath (by decide)⟩

end APFS
end JevMachO

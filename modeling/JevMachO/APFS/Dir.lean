import JevMachO.APFS.Context
import JevMachO.APFS.Path

/-! What a node lists, U-Boot's directory streams over such lists, and where listing and looking
up agree. -/
namespace JevMachO
namespace APFS
open Lib

def dtReg : UInt8 := 8

def dtLnk : UInt8 := 10

def fsDtDir : UInt32 := 4

def fsDtReg : UInt32 := 8

def fsDtLnk : UInt32 := 10

def DirRec.isLink (dirrec : DirRec) : Bool := dirrec.drecType = dtLnk

/-- A container with `ListDirectory`, the records below a parent id unless the call fails. -/
structure Library extends Container where
  listDirectory : ℕ → UInt64 → Option (List DirRec)

namespace APFSNode

def isContainer : APFSNode → Bool
  | .container => true
  | _ => false

def isVolume : APFSNode → Bool
  | .volume _ => true
  | _ => false

def isPath : APFSNode → Bool
  | .record _ _ => true
  | _ => false

def isDir : APFSNode → Bool
  | .record _ dirrec => dirrec.isDir
  | _ => false

def isDirUboot (node : APFSNode) : Bool := node.isContainer || node.isVolume || node.isDir

def isLink : APFSNode → Bool
  | .record _ dirrec => dirrec.isLink
  | _ => false

def isFileUBoot (node : APFSNode) : Bool := node.isPath && !(node.isDir || node.isLink)

def ubootType (node : APFSNode) : Exec UInt32 := do
  if node.isDirUboot then return fsDtDir
  if node.isLink then return fsDtLnk
  assertThat node.isFileUBoot
  return fsDtReg

def name (container : Container) (closed : Bool) : APFSNode → Bytes
  | .record _ dirrec => dirrec.name
  | .volume vol => (container.volumes[vol]?).elim [] (·.name closed)
  | .container => [slash]

/-- The records below a parent, as nodes. -/
def listRecords (lib : Library) (vol : ℕ) (parentIno : UInt64) : Exec (List APFSNode) :=
  match lib.listDirectory vol parentIno with
  | none => .error .assertFailed
  | some resDrs => .ok (resDrs.map (.record vol))

def list (lib : Library) (node : APFSNode) : Exec (List APFSNode) := do
  assertThat (node.isContainer || node.isVolume || node.isDir)
  match node with
  | .container => return (List.range lib.volumes.length).map .volume
  | .volume vol => listRecords lib vol lib.rootDirParent
  | .record vol dirrec => listRecords lib vol dirrec.fileId

end APFSNode

/-- `list` of a path. -/
def list (split : SplitView) (path : APFSPath) (lib : Library) :
    Exec (Option (List APFSNode)) :=
  match lookup split path lib.toContainer with
  | none => .ok none
  | some node => do return some (← node.list lib)

/-- `childDirNamed` does not look at the type of the parent. -/
def childDirNamed (container : Container) (vol : ℕ) (parentDir : DirRec) (childDirName : Bytes) :
    Option DirRec :=
  container.lookupName vol parentDir.fileId (untilNul childDirName)

def lookupDir (split : SplitView) (container : Container) (vol : ℕ) (dirPath : Bytes) :
    Exec (Option DirRec) :=
  if dirPath.isEmpty || dirPath.head? != some slash then .ok none
  else match container.lookupName vol container.rootDirParent (ascii ['r', 'o', 'o', 't']) with
  | none => .error .assertFailed
  | some res => .ok (((stringSplitViewDelimitedBy split dirPath slash).drop 1).foldlM
      (childDirNamed container vol) res)

/-! ### Directory streams -/

/-- `struct fs_dirent`. -/
structure FsDirent where
  type : UInt32
  size : UInt64
  name : Bytes
  deriving DecidableEq, Repr

/-- `strncpy` of a C string into `n` bytes: cut off or filled with zeros. -/
def strncpy (src : Bytes) (n : ℕ) : Bytes :=
  (untilNul src).take n ++ List.replicate (n - (untilNul src).length) 0

/-- `APFSDirStream`, with the container that its nodes were made from. -/
structure APFSDirStream where
  container : Container
  nodes : List APFSNode
  idx : ℕ

/-- The entry for a node. -/
def APFSNode.dirent (container : Container) (closed : Bool) (node : APFSNode) :
    Exec FsDirent := do
  return ⟨← node.ubootType, 0, strncpy (node.name container closed) 256⟩

/-- `apfs_readdir`: no entry stands for `-ENOENT`. -/
def APFSDirStream.readdir (dir : APFSDirStream) (closed : Bool) :
    Exec (Option FsDirent × APFSDirStream) :=
  match dir.nodes[dir.idx]? with
  | none => .ok (none, dir)
  | some node => do
    return (some (← node.dirent dir.container closed), { dir with idx := dir.idx + 1 })

/-- The context and the streams in the order they were opened, those that were closed gone. -/
structure UBoot where
  ctx : UBootAPFS.APFSCtx
  streams : List (Option APFSDirStream)

/-- A call from U-Boot. What the library reads on the device comes with the call that asks, and
with a read of a stream whether the container it was opened on is closed by then. -/
inductive Call where
  | context (action : UBootAPFS.Action)
  | opendir (filename : Bytes) (lib : Library)
  | readdir (dirs : ℕ) (closed : Bool)
  | closedir (dirs : ℕ)

/-- The call reads the stream. -/
def Call.readsFrom (dirs : ℕ) : Call → Bool
  | .readdir dirs' _ => dirs' = dirs
  | _ => false

namespace UBoot

/-- `apfs_ctx.container()`. -/
def container (s : UBoot) (lib : Library) : Exec Library := do
  assertThat (s.ctx.mOpened && s.ctx.mContainer = .containerStorage)
  return lib

def apfsOpendir (split : SplitView) (s : UBoot) (filename : Bytes) (lib : Library) :
    Exec (ℕ × UBoot) := do
  let path ← APFSPath.ofFullPath split (untilNul filename)
  match ← list split path (← s.container lib) with
  | none => .error .assertFailed
  | some nodes => return (s.streams.length,
      { s with streams := s.streams ++ [some ⟨lib.toContainer, nodes, 0⟩] })

/-- A stream that is not open is no object. -/
def stream (s : UBoot) (dirs : ℕ) : Exec APFSDirStream :=
  match s.streams[dirs]? with
  | some (some dir) => .ok dir
  | _ => .error .outOfBounds

def apfsReaddir (s : UBoot) (dirs : ℕ) (closed : Bool) : Exec (Option FsDirent × UBoot) := do
  let (dent, dir) ← (← s.stream dirs).readdir closed
  return (dent, { s with streams := s.streams.set dirs (some dir) })

def apfsClosedir (s : UBoot) (dirs : ℕ) : Exec UBoot := do
  let _ ← s.stream dirs
  return { s with streams := s.streams.set dirs none }

/-- The state after a call that returns. -/
def step (split : SplitView) (s : UBoot) : Call → Option UBoot
  | .context action => (s.ctx.step action).map fun ctx => { s with ctx := ctx }
  | .opendir filename lib => (s.apfsOpendir split filename lib).toOption.map Prod.snd
  | .readdir dirs closed => (s.apfsReaddir dirs closed).toOption.map Prod.snd
  | .closedir dirs => (s.apfsClosedir dirs).toOption

/-- What a call returns for a stream, if it reads it. -/
def readOf (dirs : ℕ) (s : UBoot) : Call → List (Option FsDirent)
  | .readdir dirs' closed =>
    if dirs' = dirs then ((s.apfsReaddir dirs closed).toOption.map Prod.fst).toList else []
  | _ => []

/-- What the calls of `apfs_readdir` for one stream return, in order. -/
def reads (split : SplitView) (dirs : ℕ) : UBoot → List Call → List (Option FsDirent)
  | _, [] => []
  | s, call :: calls =>
    readOf dirs s call ++
      match s.step split call with
      | some s' => reads split dirs s' calls
      | none => []

end UBoot

/-! ### What a stream returns -/

def APFSNode.typeOf (node : APFSNode) : UInt32 :=
  if node.isDirUboot then fsDtDir else if node.isLink then fsDtLnk else fsDtReg

/-- The entry that a node's name and type make. -/
def APFSNode.entry (container : Container) (node : APFSNode) : FsDirent :=
  ⟨node.typeOf, 0, strncpy (node.name container false) 256⟩

/-- Names outlive the container. -/
theorem APFSNode.name_closed (container : Container) (closed : Bool) (node : APFSNode) :
    node.name container closed = node.name container false := by
  cases node with
  | volume vol =>
    simp only [name]
    cases container.volumes[vol]? with
    | none => rfl
    | some volume => exact (volume.name_eq closed).trans (volume.name_eq false).symm
  | _ => rfl

/-- Every node that is no directory and no link is a file, and the assertion holds. -/
theorem APFSNode.ubootType_eq (node : APFSNode) : node.ubootType = .ok node.typeOf := by
  cases node with
  | container => rfl
  | volume vol => rfl
  | record vol dirrec =>
    unfold ubootType typeOf
    cases hdir : (record vol dirrec).isDirUboot with
    | true => rfl
    | false =>
      cases hlink : (record vol dirrec).isLink with
      | true => rfl
      | false =>
        have hfile : (record vol dirrec).isFileUBoot = true := by
          simp only [isDirUboot, isContainer, isVolume, Bool.false_or] at hdir
          simp [isFileUBoot, isPath, hdir, hlink]
        simp [hfile]

theorem APFSNode.dirent_eq (container : Container) (closed : Bool) (node : APFSNode) :
    node.dirent container closed = .ok (node.entry container) := by
  unfold dirent entry
  rw [ubootType_eq, ok_bind, pure_eq_ok, name_closed]

/-- The first `n` reads of a stream: its entries, and `-ENOENT` from then on. -/
def firstReads (dents : List FsDirent) (n : ℕ) : List (Option FsDirent) :=
  (dents.take n).map some ++ List.replicate (n - dents.length) none

/-- The entries that a stream has still to return. -/
def APFSDirStream.ahead (dir : APFSDirStream) : List FsDirent :=
  (dir.nodes.drop dir.idx).map (APFSNode.entry dir.container)

/-- One read returns the first entry ahead, or nothing and moves nothing. -/
theorem APFSDirStream.readdir_eq (dir : APFSDirStream) (closed : Bool) :
    ∃ dir', dir.readdir closed = .ok (dir.ahead.head?, dir') ∧ dir'.ahead = dir.ahead.tail := by
  unfold readdir ahead
  cases hnode : dir.nodes[dir.idx]? with
  | none =>
    have hend : dir.nodes.drop dir.idx = [] :=
      List.drop_eq_nil_of_le (List.getElem?_eq_none_iff.mp hnode)
    exact ⟨dir, by simp [hend], by simp [hend]⟩
  | some node =>
    have hcons : dir.nodes.drop dir.idx = node :: dir.nodes.drop (dir.idx + 1) := by
      obtain ⟨hlt, rfl⟩ := List.getElem?_eq_some_iff.mp hnode
      exact List.drop_eq_getElem_cons hlt
    refine ⟨{ dir with idx := dir.idx + 1 }, ?_, ?_⟩
    · simp [APFSNode.dirent_eq, hcons]
    · simp [hcons]

theorem firstReads_succ (dents : List FsDirent) (n : ℕ) :
    firstReads dents (n + 1) = dents.head? :: firstReads dents.tail n := by
  cases dents with
  | nil => simp [firstReads, List.replicate_succ]
  | cons dent dents => simp [firstReads]

namespace UBoot
variable {split : SplitView} {s s' : UBoot} {dirs : ℕ} {call : Call} {calls : List Call}

theorem stream_eq {dir : APFSDirStream} (hs : s.streams[dirs]? = some (some dir)) :
    s.stream dirs = .ok dir := by
  unfold stream
  rw [hs]

theorem stream_closed (hs : s.streams[dirs]? = some none) :
    s.stream dirs = .error .outOfBounds := by
  unfold stream
  rw [hs]

/-- What a call of `apfs_opendir` that returns has found and made. -/
theorem apfsOpendir_eq_ok {filename : Bytes} {lib : Library}
    (h : s.apfsOpendir split filename lib = .ok (dirs, s')) :
    ∃ path nodes, APFSPath.ofFullPath split (untilNul filename) = .ok path ∧
      list split path lib = .ok (some nodes) ∧ dirs = s.streams.length ∧
      s' = { s with streams := s.streams ++ [some ⟨lib.toContainer, nodes, 0⟩] } := by
  obtain ⟨path, hpath, h⟩ := bind_eq_ok.mp h
  obtain ⟨lib', hlib, h⟩ := bind_eq_ok.mp h
  obtain ⟨found, hlist, h⟩ := bind_eq_ok.mp h
  obtain ⟨-, -, hlib⟩ := bind_eq_ok.mp hlib
  obtain rfl := Except.ok.inj hlib
  cases found with
  | none => cases h
  | some nodes =>
    obtain ⟨hdirs, hs'⟩ := Prod.mk.inj (Except.ok.inj h)
    exact ⟨path, nodes, hpath, hlist, hdirs.symm, hs'.symm⟩

/-- Reading moves the stream and leaves the others. -/
theorem step_readdir {dir : APFSDirStream} (hs : s.streams[dirs]? = some (some dir))
    (closed : Bool) :
    ∃ dir', dir'.ahead = dir.ahead.tail ∧ s.apfsReaddir dirs closed = .ok (dir.ahead.head?,
      { s with streams := s.streams.set dirs (some dir') }) := by
  obtain ⟨dir', hread, hahead⟩ := dir.readdir_eq closed
  refine ⟨dir', hahead, ?_⟩
  rw [apfsReaddir, stream_eq hs, ok_bind, hread]
  rfl

/-- Calls for other streams, and for none, leave a stream as it is. -/
theorem step_other (hlt : dirs < s.streams.length) (hread : call.readsFrom dirs = false)
    (hclose : call ≠ .closedir dirs) (hs : s.step split call = some s') :
    s'.streams[dirs]? = s.streams[dirs]? := by
  cases call with
  | context action =>
    obtain ⟨ctx, -, rfl⟩ := Option.map_eq_some_iff.mp hs
    rfl
  | opendir filename lib =>
    obtain ⟨⟨dirs', t⟩, ht, rfl⟩ := Option.map_eq_some_iff.mp hs
    obtain ⟨path, nodes, -, -, -, rfl⟩ := apfsOpendir_eq_ok (toOption_eq_some.mp ht)
    exact List.getElem?_append_left hlt
  | readdir dirs' closed =>
    obtain ⟨⟨dent, t⟩, ht, rfl⟩ := Option.map_eq_some_iff.mp hs
    obtain ⟨dir, -, ht⟩ := bind_eq_ok.mp (toOption_eq_some.mp ht)
    obtain ⟨r, -, ht⟩ := bind_eq_ok.mp ht
    obtain ⟨-, rfl⟩ := Prod.mk.inj (Except.ok.inj ht)
    have hne : dirs' ≠ dirs := of_decide_eq_false hread
    exact List.getElem?_set_ne hne
  | closedir dirs' =>
    obtain ⟨dir, -, ht⟩ := bind_eq_ok.mp (toOption_eq_some.mp hs)
    obtain rfl := Except.ok.inj ht
    have hne : dirs' ≠ dirs := fun h => hclose (h ▸ rfl)
    exact List.getElem?_set_ne hne

theorem reads_cons (hs : s.step split call = some s') :
    reads split dirs s (call :: calls) = readOf dirs s call ++ reads split dirs s' calls := by
  rw [reads, hs]

theorem readOf_other (hread : call.readsFrom dirs = false) : readOf dirs s call = [] := by
  cases call with
  | readdir dirs' closed => exact if_neg (of_decide_eq_false hread)
  | _ => rfl

/-- No call gets through that reads a stream which was closed. -/
theorem reads_closed (hs : s.streams[dirs]? = some none) {t : UBoot}
    (hrun : run (step split) s calls = some t) :
    reads split dirs s calls = [] ∧ calls.countP (Call.readsFrom dirs) = 0 := by
  induction calls generalizing s with
  | nil => exact ⟨rfl, rfl⟩
  | cons call calls ih =>
    obtain ⟨r, hr, hrun⟩ := Option.bind_eq_some_iff.mp hrun
    have hlt : dirs < s.streams.length := (List.getElem?_eq_some_iff.mp hs).1
    have hread : call.readsFrom dirs = false := by
      cases call with
      | readdir dirs' closed =>
        refine decide_eq_false fun h => ?_
        obtain ⟨u, hu, -⟩ := Option.map_eq_some_iff.mp hr
        obtain ⟨dir, hdir, -⟩ := bind_eq_ok.mp (toOption_eq_some.mp hu)
        rw [h, stream_closed hs] at hdir
        cases hdir
      | _ => rfl
    have hclose : call ≠ .closedir dirs := by
      rintro rfl
      obtain ⟨dir, hdir, -⟩ := bind_eq_ok.mp (toOption_eq_some.mp hr)
      rw [stream_closed hs] at hdir
      cases hdir
    have hkeep := step_other hlt hread hclose hr
    rw [reads_cons hr, readOf_other hread, List.countP_cons, hread]
    simpa using ih (hkeep.trans hs) hrun

/-- From any state on, the reads of an open stream return what is ahead in it. -/
theorem reads_of_stream {dir : APFSDirStream} (hs : s.streams[dirs]? = some (some dir)) {t : UBoot}
    (hrun : run (step split) s calls = some t) :
    reads split dirs s calls = firstReads dir.ahead (calls.countP (Call.readsFrom dirs)) := by
  induction calls generalizing s dir with
  | nil => simp [reads, firstReads]
  | cons call calls ih =>
    obtain ⟨r, hr, hrun⟩ := Option.bind_eq_some_iff.mp hrun
    have hlt : dirs < s.streams.length := (List.getElem?_eq_some_iff.mp hs).1
    rw [reads_cons hr, List.countP_cons]
    cases hread : call.readsFrom dirs with
    | true =>
      obtain ⟨closed, rfl⟩ : ∃ closed, call = .readdir dirs closed := by
        cases call with
        | readdir dirs' closed => exact ⟨closed, by rw [of_decide_eq_true hread]⟩
        | _ => cases hread
      obtain ⟨dir', hahead, hstep⟩ := step_readdir hs closed
      obtain rfl : { s with streams := s.streams.set dirs (some dir') } = r := by
        rw [step, hstep] at hr
        exact Option.some.inj hr
      have hdir' : (s.streams.set dirs (some dir'))[dirs]? = some (some dir') := by
        rw [List.getElem?_set_self hlt]
      rw [readOf, if_pos rfl, if_pos rfl, hstep, ih hdir' hrun, hahead, firstReads_succ]
      rfl
    | false =>
      rw [readOf_other hread, if_neg Bool.false_ne_true, List.nil_append, Nat.add_zero]
      by_cases hclose : call = .closedir dirs
      · -- the stream is gone, and so are its reads
        subst hclose
        obtain ⟨dir', -, ht⟩ := bind_eq_ok.mp (toOption_eq_some.mp hr)
        obtain rfl := Except.ok.inj ht
        have hgone : (s.streams.set dirs none)[dirs]? = some none := by
          rw [List.getElem?_set_self hlt]
        obtain ⟨hnil, hzero⟩ := reads_closed hgone hrun
        rw [hnil, hzero]
        simp [firstReads]
      · exact ih ((step_other hlt hread hclose hr).trans hs) hrun

/-- Whatever else happens after a directory was opened, to other streams and to the context, the
reads of its stream return the entries of the listing in order and then `-ENOENT`. -/
theorem reads_opendir {filename : Bytes} {lib : Library} {t : UBoot}
    (hopen : s.apfsOpendir split filename lib = .ok (dirs, s'))
    (hrun : run (step split) s' calls = some t) :
    ∃ path nodes, APFSPath.ofFullPath split (untilNul filename) = .ok path ∧
      list split path lib = .ok (some nodes) ∧
      reads split dirs s' calls = firstReads (nodes.map (APFSNode.entry lib.toContainer))
        (calls.countP (Call.readsFrom dirs)) := by
  obtain ⟨path, nodes, hpath, hlist, rfl, rfl⟩ := apfsOpendir_eq_ok hopen
  refine ⟨path, nodes, hpath, hlist, ?_⟩
  have hstream : (s.streams ++ [some ⟨lib.toContainer, nodes, 0⟩])[s.streams.length]? =
      some (some ⟨lib.toContainer, nodes, 0⟩) := List.getElem?_concat_length
  have hreads := reads_of_stream hstream hrun
  simpa only [APFSDirStream.ahead, List.drop_zero] using hreads

end UBoot

/-- One volume with the directory `root` in it, and in that a file and a link. -/
def smallVolume : Library where
  volumes := [.ofVolname (ascii ['v'] ++ [0, 0])]
  rootDirParent := 1
  lookupName _ parent name :=
    if parent = 1 ∧ name = ascii ['r', 'o', 'o', 't'] then
      some ⟨1, ascii ['r', 'o', 'o', 't'], 2, dtDir⟩
    else if parent = 2 ∧ name = ascii ['f'] then some ⟨2, ascii ['f'], 16, dtReg⟩
    else if parent = 2 ∧ name = ascii ['l'] then some ⟨2, ascii ['l'], 17, dtLnk⟩
    else none
  listDirectory _ parent :=
    if parent = 1 then some [⟨1, ascii ['r', 'o', 'o', 't'], 2, dtDir⟩]
    else if parent = 2 then some [⟨2, ascii ['f'], 16, dtReg⟩, ⟨2, ascii ['l'], 17, dtLnk⟩]
    else some []

/-- A volume's directory read to its end while another stream and the context come and go. -/
def interleaved : List Call :=
  [.opendir (ascii ['/']) smallVolume, .readdir 0 false, .context .apfsClose, .readdir 0 true,
    .readdir 1 true, .closedir 1, .readdir 0 true]

theorem reads_opendir_interleaved : ∃ (s' : UBoot) (nodes : List APFSNode),
    UBoot.apfsOpendir (fun s d => s.splitOn d)
        ⟨(UBootAPFS.APFSCtx.init.apfsProbe UBootAPFS.APFSCtx.aPartition .succeeds).2, []⟩
        (ascii ['/', 'v']) smallVolume = .ok (0, s') ∧
      UBoot.reads (fun s d => s.splitOn d) 0 s' interleaved =
        firstReads (nodes.map (APFSNode.entry smallVolume.toContainer)) 3 := by
  obtain ⟨s', hopen, t, hrun⟩ : ∃ s', UBoot.apfsOpendir (fun s d => s.splitOn d)
      ⟨(UBootAPFS.APFSCtx.init.apfsProbe UBootAPFS.APFSCtx.aPartition .succeeds).2, []⟩
      (ascii ['/', 'v']) smallVolume = .ok (0, s') ∧
        ∃ t, run (UBoot.step fun s d => s.splitOn d) s' interleaved = some t :=
    ⟨_, rfl, _, rfl⟩
  obtain ⟨path, nodes, -, -, hreads⟩ := UBoot.reads_opendir hopen hrun
  exact ⟨s', nodes, hopen, hreads⟩

/-! ### Listing and looking up -/

/-- The container for no names, else a volume and names of directories in it. -/
def pathTo : List Bytes → APFSPath
  | [] => ⟨[], []⟩
  | v :: cs => ⟨v, pathString cs⟩

/-- What the library promises: `LookupName` and `ListDirectory` are about the same records, the
names of records are file names, and those of volumes tell them apart. -/
structure Library.Coherent (lib : Library) : Prop where
  listed : ∀ vol parent drs, lib.listDirectory vol parent = some drs →
    ∀ dirrec ∈ drs, lib.lookupName vol parent dirrec.name = some dirrec
  found : ∀ vol parent drs, lib.listDirectory vol parent = some drs →
    ∀ name dirrec, lib.lookupName vol parent name = some dirrec → dirrec ∈ drs
  names : ∀ vol parent drs, lib.listDirectory vol parent = some drs →
    ∀ dirrec ∈ drs, dirrec.name ≠ [] ∧ slash ∉ dirrec.name ∧ (0 : UInt8) ∉ dirrec.name
  volumes : (lib.volumes.map fun vol => untilNul vol.apfsVolname).Nodup
  volnames : ∀ vol ∈ lib.volumes,
    untilNul vol.apfsVolname ≠ [] ∧ slash ∉ untilNul vol.apfsVolname

/-- The children of a listing are what looking up below the path finds, under the names that they
have and that the entries of a stream give, if these names fit in. -/
structure ListsChildren (split : SplitView) (lib : Library) (names : List Bytes)
    (children : List APFSNode) : Prop where
  listed : ∀ child ∈ children,
    lookup split (pathTo (names ++ [child.name lib.toContainer false])) lib.toContainer = some child
  found : ∀ name child, name ≠ [] → slash ∉ name →
    lookup split (pathTo (names ++ [name])) lib.toContainer = some child → child ∈ children
  readable : ∀ child ∈ children, (child.name lib.toContainer false).length < 256 →
    lookup split (pathTo (names ++ [untilNul (child.entry lib.toContainer).name]))
      lib.toContainer = some child

section listing
variable {split : SplitView} {lib : Library}

/-- Both ways of going through the volumes look for the same name. -/
theorem findIdx?_name (container : Container) (name : Bytes) :
    (container.volumes.findIdx? fun vol => vol.name false == name) =
      lookupVolume name container := by
  simp only [lookupVolume, ApfsVolume.name_eq, Bool.beq_comm]

theorem lookup_pathTo (hsplit : split.YieldsSegments) (container : Container) {v : Bytes}
    {cs : List Bytes} (hv : v ≠ []) (hcs : ∀ c ∈ cs, c ≠ [] ∧ slash ∉ c) :
    lookup split (pathTo (v :: cs)) container = nodeAt container v cs := by
  cases cs with
  | nil =>
    have hv' : v.isEmpty = false := List.isEmpty_eq_false_iff.mpr hv
    simp only [lookup, pathTo, pathString, List.flatMap_nil, hv', nodeAt, Bool.false_eq_true,
      if_false, List.isEmpty_nil, if_true]
    cases lookupVolume v container <;> rfl
  | cons c cs =>
    exact lookup_eq container hv (by simp [pathString])
      (split_pathString hsplit (List.cons_ne_nil c cs) hcs)

/-- One more name is one more step. -/
theorem lookup_pathTo_concat (hsplit : split.YieldsSegments) (container : Container)
    {names : List Bytes} (hnames : ∀ c ∈ names, c ≠ [] ∧ slash ∉ c) {name : Bytes}
    (hne : name ≠ []) (hslash : slash ∉ name) :
    lookup split (pathTo (names ++ [name])) container =
      (lookup split (pathTo names) container).bind (APFSNode.childNamed container name) := by
  cases names with
  | nil =>
    have hroot : lookup split (pathTo []) container = some .container := rfl
    rw [hroot, List.nil_append, lookup_pathTo hsplit container hne (by simp)]
    rw [nodeAt, Option.bind_some, APFSNode.childNamed, findIdx?_name]
    cases lookupVolume name container <;> rfl
  | cons v cs =>
    have hv := (hnames v List.mem_cons_self).1
    have hcs : ∀ c ∈ cs, c ≠ [] ∧ slash ∉ c := fun c hc => hnames c (List.mem_cons_of_mem v hc)
    have hcs' : ∀ c ∈ cs ++ [name], c ≠ [] ∧ slash ∉ c := by
      intro c hc
      rcases List.mem_append.mp hc with hc | hc
      · exact hcs c hc
      · rw [List.mem_singleton.mp hc]
        exact ⟨hne, hslash⟩
    rw [List.cons_append, lookup_pathTo hsplit container hv hcs',
      lookup_pathTo hsplit container hv hcs, nodeAt, nodeAt]
    cases lookupVolume v container with
    | none => rfl
    | some vol =>
      simp only [Option.bind_some, childrenNamed, List.foldlM_append, List.foldlM_cons,
        List.foldlM_nil]
      cases List.foldlM (fun res childName => APFSNode.childNamed container childName res)
        (APFSNode.volume vol) cs with
      | none => rfl
      | some node => exact bind_pure (APFSNode.childNamed container name node)

/-- The volume of a name is the one that has it. -/
theorem Library.Coherent.lookupVolume (hlib : lib.Coherent) {vol : ℕ}
    (hvol : vol < lib.volumes.length) :
    lookupVolume (untilNul lib.volumes[vol].apfsVolname) lib.toContainer = some vol := by
  rw [APFS.lookupVolume, List.findIdx?_eq_some_iff_getElem]
  refine ⟨hvol, by simp, fun j hj => ?_⟩
  intro heq
  have hnames := eq_of_beq heq
  have hnodup := List.pairwise_iff_getElem.mp hlib.volumes j vol (by simpa using hj.trans hvol)
    (by simpa using hvol) hj
  rw [List.getElem_map, List.getElem_map] at hnodup
  exact hnodup hnames.symm

/-- The records below a parent, listed and looked up. -/
theorem Library.Coherent.records (hlib : lib.Coherent) {vol : ℕ} {parent : UInt64}
    {children : List APFSNode} (hlist : APFSNode.listRecords lib vol parent = .ok children) :
    (∀ child ∈ children,
      (lib.lookupName vol parent (untilNul (child.name lib.toContainer false))).map
        (APFSNode.record vol) = some child) ∧
      ∀ name child, (lib.lookupName vol parent (untilNul name)).map (APFSNode.record vol) =
        some child → child ∈ children := by
  unfold APFSNode.listRecords at hlist
  split at hlist
  · cases hlist
  · rename_i drs hdrs
    obtain rfl := Except.ok.inj hlist
    constructor
    · intro child hchild
      obtain ⟨dirrec, hmem, rfl⟩ := List.mem_map.mp hchild
      have h0 := (hlib.names vol parent drs hdrs dirrec hmem).2.2
      rw [APFSNode.name, untilNul_of_not_mem h0, hlib.listed vol parent drs hdrs dirrec hmem]
      rfl
    · intro name child hchild
      obtain ⟨dirrec, hfound, rfl⟩ := Option.map_eq_some_iff.mp hchild
      exact List.mem_map_of_mem (hlib.found vol parent drs hdrs _ dirrec hfound)

/-- The children that a node lists are those it has by name. -/
theorem Library.Coherent.children (hlib : lib.Coherent) {node : APFSNode}
    {children : List APFSNode} (hlist : node.list lib = .ok children) :
    (∀ child ∈ children,
        node.childNamed lib.toContainer (child.name lib.toContainer false) = some child) ∧
      ∀ name child, node.childNamed lib.toContainer name = some child → child ∈ children := by
  obtain ⟨_, hdir, hlist⟩ := bind_eq_ok.mp hlist
  cases node with
  | container =>
    obtain rfl := Except.ok.inj hlist
    constructor
    · intro child hchild
      obtain ⟨vol, hvol, rfl⟩ := List.mem_map.mp hchild
      have hlt := List.mem_range.mp hvol
      have hname : (APFSNode.volume vol).name lib.toContainer false =
          untilNul lib.volumes[vol].apfsVolname := by
        simp [APFSNode.name, List.getElem?_eq_getElem hlt, ApfsVolume.name_eq]
      rw [hname, APFSNode.childNamed, findIdx?_name, hlib.lookupVolume hlt]
      rfl
    · intro name child hchild
      obtain ⟨vol, hvol, rfl⟩ := Option.map_eq_some_iff.mp hchild
      obtain ⟨hlt, -⟩ := List.findIdx?_eq_some_iff_getElem.mp hvol
      exact List.mem_map_of_mem (List.mem_range.mpr hlt)
  | volume vol => exact hlib.records hlist
  | record vol dirrec =>
    have hisDir : dirrec.isDir = true := by
      cases hd : dirrec.isDir with
      | true => rfl
      | false => simp [APFSNode.isContainer, APFSNode.isVolume, APFSNode.isDir, hd] at hdir
    simp only [APFSNode.childNamed, hisDir, if_true]
    exact hlib.records hlist

/-- A child's name can be a component of a path. -/
theorem Library.Coherent.name (hlib : lib.Coherent) {node child : APFSNode}
    {children : List APFSNode} (hlist : node.list lib = .ok children) (hchild : child ∈ children) :
    child.name lib.toContainer false ≠ [] ∧ slash ∉ child.name lib.toContainer false ∧
      (0 : UInt8) ∉ child.name lib.toContainer false := by
  have hrecords : ∀ vol parent, APFSNode.listRecords lib vol parent = .ok children →
      child.name lib.toContainer false ≠ [] ∧ slash ∉ child.name lib.toContainer false ∧
        (0 : UInt8) ∉ child.name lib.toContainer false := by
    intro vol parent hlist
    unfold APFSNode.listRecords at hlist
    split at hlist
    · cases hlist
    · rename_i drs hdrs
      obtain rfl := Except.ok.inj hlist
      obtain ⟨dirrec, hmem, rfl⟩ := List.mem_map.mp hchild
      exact hlib.names vol parent drs hdrs dirrec hmem
  obtain ⟨-, -, hlist⟩ := bind_eq_ok.mp hlist
  cases node with
  | container =>
    obtain rfl := Except.ok.inj hlist
    obtain ⟨vol, hvol, rfl⟩ := List.mem_map.mp hchild
    have hlt := List.mem_range.mp hvol
    have hname : (APFSNode.volume vol).name lib.toContainer false =
          untilNul lib.volumes[vol].apfsVolname := by
      simp [APFSNode.name, List.getElem?_eq_getElem hlt, ApfsVolume.name_eq]
    rw [hname]
    obtain ⟨hne, hslash⟩ := hlib.volnames lib.volumes[vol] (List.getElem_mem hlt)
    exact ⟨hne, hslash, not_mem_untilNul _⟩
  | volume vol => exact hrecords vol lib.rootDirParent hlist
  | record vol dirrec => exact hrecords vol dirrec.fileId hlist

/-- A name that fits in is read back from the entry. -/
theorem untilNul_strncpy {name : Bytes} {n : ℕ} (h0 : (0 : UInt8) ∉ name) (hn : name.length < n) :
    untilNul (strncpy name n) = name := by
  rw [strncpy, untilNul_of_not_mem h0, List.take_of_length_le hn.le]
  obtain ⟨k, hk⟩ : ∃ k, n - name.length = k + 1 := ⟨n - name.length - 1, by omega⟩
  rw [hk, List.replicate_succ]
  exact takeWhile_ne_append h0 _

theorem listsChildren (hsplit : split.YieldsSegments) (hlib : lib.Coherent) {names : List Bytes}
    (hnames : ∀ c ∈ names, c ≠ [] ∧ slash ∉ c) {children : List APFSNode}
    (hlist : list split (pathTo names) lib = .ok (some children)) :
    ListsChildren split lib names children := by
  have hconcat : ∀ {name : Bytes}, name ≠ [] → slash ∉ name → _ :=
    lookup_pathTo_concat hsplit lib.toContainer hnames
  unfold list at hlist
  cases hnode : lookup split (pathTo names) lib.toContainer with
  | none =>
    rw [hnode] at hlist
    cases hlist
  | some node =>
    rw [hnode] at hlist hconcat
    obtain ⟨children', hnodes, hsome⟩ := bind_eq_ok.mp hlist
    obtain rfl := Option.some.inj (Except.ok.inj hsome)
    obtain ⟨hlisted, hfound⟩ := hlib.children hnodes
    have hone : ∀ child ∈ children', lookup split
        (pathTo (names ++ [child.name lib.toContainer false])) lib.toContainer = some child := by
      intro child hchild
      obtain ⟨hne, hslash, -⟩ := hlib.name hnodes hchild
      rw [hconcat hne hslash]
      exact hlisted child hchild
    refine ⟨hone, fun name child hne hslash hchild => ?_, fun child hchild hlen => ?_⟩
    · rw [hconcat hne hslash] at hchild
      exact hfound name child hchild
    · have h0 := (hlib.name hnodes hchild).2.2
      rw [APFSNode.entry, untilNul_strncpy h0 hlen]
      exact hone child hchild

end listing

theorem smallVolume_coherent : smallVolume.Coherent where
  listed vol parent drs h := by
    simp only [smallVolume] at h ⊢
    split_ifs at h with h1 h2 <;> obtain rfl := Option.some.inj h
    · subst h1
      decide
    · subst h2
      decide
    · nofun
  found vol parent drs h name dirrec hfound := by
    simp only [smallVolume] at h hfound
    split_ifs at hfound with h1 h2 h3 <;> obtain rfl := Option.some.inj hfound
    · rw [h1.1] at h
      obtain rfl := Option.some.inj h
      decide
    · rw [h2.1] at h
      obtain rfl := Option.some.inj h
      decide
    · rw [h3.1] at h
      obtain rfl := Option.some.inj h
      decide
  names vol parent drs h := by
    simp only [smallVolume] at h
    split_ifs at h <;> obtain rfl := Option.some.inj h <;> decide
  volumes := by decide
  volnames := by decide

theorem listsChildren_smallVolume : ListsChildren (fun s d => s.splitOn d) smallVolume
    [ascii ['v'], ascii ['r', 'o', 'o', 't']]
    [.record 0 ⟨2, ascii ['f'], 16, dtReg⟩, .record 0 ⟨2, ascii ['l'], 17, dtLnk⟩] :=
  listsChildren splitOn_yieldsSegments smallVolume_coherent (by decide) rfl

/-! ### The other lookup -/

/-- From a record on, the lookup by nodes is the one by records through directories only. -/
theorem childrenNamed_record_iff (container : Container) (vol : ℕ) {cs : List Bytes}
    {parent r : DirRec} :
    childrenNamed container (.record vol parent) cs = some (.record vol r) ↔
      cs.foldlM (childDirNamed container vol) parent = some r ∧
        ∀ pre, pre <+: cs → pre ≠ cs →
          ∃ d, pre.foldlM (childDirNamed container vol) parent = some d ∧ d.isDir = true := by
  induction cs generalizing parent with
  | nil =>
    simp only [childrenNamed, List.foldlM_nil, List.prefix_nil]
    constructor
    · intro h
      exact ⟨congrArg some (APFSNode.record.inj (Option.some.inj h)).2, fun _ hpre hne =>
        absurd hpre hne⟩
    · rintro ⟨h, -⟩
      rw [Option.some.inj h]
      rfl
  | cons c cs ih =>
    have hstep : childrenNamed container (.record vol parent) (c :: cs) =
        ((APFSNode.record vol parent).childNamed container c).bind
          fun res => childrenNamed container res cs := rfl
    have hstep' : ∀ names, (c :: names).foldlM (childDirNamed container vol) parent =
        (childDirNamed container vol parent c).bind
          fun res => names.foldlM (childDirNamed container vol) res := fun _ => rfl
    cases hfound : container.lookupName vol parent.fileId (untilNul c) with
    | none =>
      rw [hstep, hstep', childDirNamed, hfound, APFSNode.childNamed]
      split_ifs <;> simp [hfound]
    | some next =>
      have hchild : childDirNamed container vol parent c = some next := hfound
      rw [hstep, hstep', hchild, APFSNode.childNamed, hfound]
      constructor
      · intro h
        split_ifs at h with hdir
        · obtain ⟨hres, hway⟩ := ih.mp h
          refine ⟨hres, fun pre hpre hne => ?_⟩
          rcases List.prefix_cons_iff.mp hpre with rfl | ⟨pre', rfl, hpre'⟩
          · exact ⟨parent, rfl, hdir⟩
          · rw [hstep', hchild]
            exact hway pre' hpre' fun h => hne (congrArg _ h)
        · cases h
      · rintro ⟨hres, hway⟩
        have hdir : parent.isDir = true := by
          obtain ⟨d, hd, hdir⟩ := hway [] List.nil_prefix (List.cons_ne_nil c cs).symm
          obtain rfl := Option.some.inj hd
          exact hdir
        rw [if_pos hdir]
        refine ih.mpr ⟨hres, fun pre hpre hne => ?_⟩
        have hway' := hway (c :: pre) (List.cons_prefix_cons.mpr ⟨rfl, hpre⟩)
          fun h => hne (List.cons.inj h).2
        rwa [hstep', hchild] at hway'

/-- `lookup` finds below `/root` what `lookupDir` finds, provided that all the records on the way
are directories, which `lookupDir` does not ask. -/
theorem lookup_iff_lookupDir {split : SplitView} (hsplit : split.YieldsSegments)
    (container : Container) {v : Bytes} {vol : ℕ} {cs : List Bytes} {root r : DirRec}
    (hv : v ≠ []) (hvol : lookupVolume v container = some vol)
    (hroot : container.lookupName vol container.rootDirParent (ascii ['r', 'o', 'o', 't']) =
      some root) (hne : cs ≠ []) (hcs : ∀ c ∈ cs, c ≠ [] ∧ slash ∉ c) :
    lookup split (pathTo (v :: ascii ['r', 'o', 'o', 't'] :: cs)) container =
        some (.record vol r) ↔
      lookupDir split container vol (pathString cs) = .ok (some r) ∧
        ∀ pre, pre <+: cs → pre ≠ cs →
          ∃ d, pre.foldlM (childDirNamed container vol) root = some d ∧ d.isDir = true := by
  have hcs' : ∀ c ∈ ascii ['r', 'o', 'o', 't'] :: cs, c ≠ [] ∧ slash ∉ c := by
    intro c hc
    rcases List.mem_cons.mp hc with rfl | hc
    · decide
    · exact hcs c hc
  have hnode : lookup split (pathTo (v :: ascii ['r', 'o', 'o', 't'] :: cs)) container =
      childrenNamed container (.record vol root) cs := by
    have hstep : childrenNamed container (.volume vol) (ascii ['r', 'o', 'o', 't'] :: cs) =
        ((APFSNode.volume vol).childNamed container (ascii ['r', 'o', 'o', 't'])).bind
          fun res => childrenNamed container res cs := rfl
    have hc : untilNul (ascii ['r', 'o', 'o', 't']) = ascii ['r', 'o', 'o', 't'] := by decide
    rw [lookup_pathTo hsplit container hv hcs', nodeAt, hvol, Option.bind_some, hstep,
      APFSNode.childNamed, hc, hroot]
    rfl
  have hdir : lookupDir split container vol (pathString cs) =
      .ok (cs.foldlM (childDirNamed container vol) root) := by
    obtain ⟨c, cs', rfl⟩ := List.exists_cons_of_ne_nil hne
    have hhead : ((pathString (c :: cs')).isEmpty ||
        (pathString (c :: cs')).head? != some slash) = false := by
      simp [pathString]
    rw [lookupDir, hhead, hroot, stringSplitViewDelimitedBy, split_pathString hsplit hne hcs]
    rfl
  rw [hnode, hdir, childrenNamed_record_iff, Except.ok.injEq]

theorem lookup_iff_lookupDir_smallVolume :
    lookupDir (fun s d => s.splitOn d) smallVolume.toContainer 0 (pathString [ascii ['f']]) =
      .ok (some ⟨2, ascii ['f'], 16, dtReg⟩) :=
  have hlookup : lookup (fun s d => s.splitOn d)
      (pathTo [ascii ['v'], ascii ['r', 'o', 'o', 't'], ascii ['f']]) smallVolume.toContainer =
      some (.record 0 ⟨2, ascii ['f'], 16, dtReg⟩) := by decide
  ((lookup_iff_lookupDir splitOn_yieldsSegments smallVolume.toContainer (by decide) rfl rfl
    (List.cons_ne_nil _ _) (by decide)).mp hlookup).1

end APFS
end JevMachO

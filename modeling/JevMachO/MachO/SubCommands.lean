import JevMachO.MachO.Dump

/-! What a load command's fields are read as. `get()` decides it by a switch over the command's
type, as the printing of a Mach-O does for each of its commands; the accessors of a Mach-O decide it
by filters over the load commands, one for each kind they return. -/
namespace JevMachO
open Lib

namespace LoadCommandType

def uuid : UInt32 := 0x1b

def codeSignature : UInt32 := 0x1d

def segmentSplitInfo : UInt32 := 0x1e

def encryptionInfo : UInt32 := 0x21

def dataInCode : UInt32 := 0x29

def sourceVersion : UInt32 := 0x2a

def dylibCodeSignDrs : UInt32 := 0x2b

def linkerOptimizationHint : UInt32 := 0x2e

def buildVersion : UInt32 := 0x32

def dyldExportsTrie : UInt32 := 0x80000033

def dyldChainedFixups : UInt32 := 0x80000034

end LoadCommandType

/-- The classes that a `SubCommandVariant` can point to. -/
inductive SubCommandKind where
  | buildVersion
  | dylib
  | dySymtab
  | encryptionInfo
  | filesetEntry
  | functionStarts
  | linkeditData
  | segment
  | sourceVersion
  | symtab
  | uuid
  | unixThread
  | unknown
  deriving DecidableEq, Repr

/-- The alternative that is held, and its pointer. -/
structure SubCommandVariant where
  kind : SubCommandKind
  ptr : ℕ
  deriving DecidableEq, Repr

namespace LoadSubCommand
open LoadCommandType

/-- The cases of the `switch` of `get()`. -/
def cases : List (UInt32 × SubCommandKind) :=
  [(LoadCommandType.functionStarts, .functionStarts),
    (LoadCommandType.unixThread, .unixThread),
    (LoadCommandType.sourceVersion, .sourceVersion),
    (LoadCommandType.buildVersion, .buildVersion),
    (LoadCommandType.filesetEntry, .filesetEntry),
    (LoadCommandType.symtab, .symtab),
    (LoadCommandType.dysymtab, .dySymtab),
    (idDylib, .dylib), (loadDylib, .dylib), (loadWeakDylib, .dylib), (reexportDylib, .dylib),
    (LoadCommandType.encryptionInfo, .encryptionInfo),
    (codeSignature, .linkeditData), (segmentSplitInfo, .linkeditData), (dataInCode, .linkeditData),
    (dylibCodeSignDrs, .linkeditData), (linkerOptimizationHint, .linkeditData),
    (dyldExportsTrie, .linkeditData), (dyldChainedFixups, .linkeditData),
    (segment64, .segment),
    (LoadCommandType.uuid, .uuid)]

/-- The alternative for a type; the `default` case is the unknown command. -/
def kindOf (cmd : UInt32) : SubCommandKind := (cases.lookup cmd).getD .unknown

def get (mem : Bytes) (sub : ℕ) : Exec SubCommandVariant := do
  return ⟨kindOf (← LoadCommand.cmd mem (loadCommand sub)), sub⟩

end LoadSubCommand

namespace DylibCommand

def isID (mem : Bytes) (dylib : ℕ) : Exec Bool :=
  MachO.hasType mem LoadCommandType.idDylib (LoadSubCommand.loadCommand dylib)

def isLoad (mem : Bytes) (dylib : ℕ) : Exec Bool :=
  MachO.hasType mem LoadCommandType.loadDylib (LoadSubCommand.loadCommand dylib)

def isLoadWeak (mem : Bytes) (dylib : ℕ) : Exec Bool :=
  MachO.hasType mem LoadCommandType.loadWeakDylib (LoadSubCommand.loadCommand dylib)

def isRexport (mem : Bytes) (dylib : ℕ) : Exec Bool :=
  MachO.hasType mem LoadCommandType.reexportDylib (LoadSubCommand.loadCommand dylib)

/-- The four answers about a library. -/
def answers (mem : Bytes) (dylib : ℕ) : Exec (List Bool) := do
  return [← isID mem dylib, ← isLoad mem dylib, ← isLoadWeak mem dylib, ← isRexport mem dylib]

end DylibCommand

namespace MachO

def dylibCommands (mem : Bytes) (macho : ℕ) : Exec (Range Fault ℕ ℕ) := do
  let lcs ← (← loadCommands mem macho).filter
    (fun lc => do return isDylib (← LoadCommand.cmd mem lc)) mem.length
  return lcs.transform fun lc => .ok (LoadCommand.subcmd lc)

/-- `lc.subcmd()->get()` for each load command, as `format_to` goes through them. -/
def subCommands (mem : Bytes) (macho : ℕ) : Exec (List SubCommandVariant) := do
  let lcs ← loadCommands mem macho
  printEach lcs.cursor (fun lc => LoadSubCommand.get mem (LoadCommand.subcmd lc)) mem.length
    lcs.first

/-- What a walk over the range that an accessor returns stops at. -/
def visited (mem : Bytes) (range : Exec (Range Fault ℕ ℕ)) : Exec (List ℕ) := do
  (← range).elements mem.length

end MachO

/-- The pointers of one alternative. -/
def SubCommandVariant.ofKind (kind : SubCommandKind) (vs : List SubCommandVariant) : List ℕ :=
  (vs.filter fun v => v.kind == kind).map SubCommandVariant.ptr

open SubCommandVariant in
/-- Each accessor goes through the pointers of one alternative, or returns the first of them; the
imported libraries are those libraries that are loaded, weakly or not. -/
structure MachO.AgreesWithGet (mem : Bytes) (macho : ℕ) (vs : List SubCommandVariant) : Prop where
  loadCommands : loadCommandsVisited mem macho =
    .ok (vs.map fun v => LoadSubCommand.loadCommand v.ptr)
  get : ∀ v ∈ vs, LoadSubCommand.get mem v.ptr = .ok v
  segments : segmentsVisited mem macho = .ok (ofKind .segment vs)
  filesetEntries : visited mem (filesetEntryCommands mem macho) = .ok (ofKind .filesetEntry vs)
  dylibs : visited mem (dylibCommands mem macho) = .ok (ofKind .dylib vs)
  answers : ∀ dylib ∈ ofKind .dylib vs, ∃ bs, DylibCommand.answers mem dylib = .ok bs ∧
    bs.count true = 1
  importedDylibs : visited mem (importedDylibCommands mem macho) = visited mem (do
    (← dylibCommands mem macho).filter (fun dylib => do
      return (← DylibCommand.isLoad mem dylib) || (← DylibCommand.isLoadWeak mem dylib)) mem.length)
  symtab : symtab mem macho = .ok (ofKind .symtab vs).head?
  dysymtab : dysymtab mem macho = .ok (ofKind .dySymtab vs).head?
  functionStarts : functionStartsCommand mem macho = .ok (ofKind .functionStarts vs).head?
  unixThread : unixThread mem macho = .ok (ofKind .unixThread vs).head?

/-! ### The switch -/

namespace LoadSubCommand
variable {cmd : UInt32} {kind : SubCommandKind}

theorem nodup_cases : (cases.map Prod.fst).Nodup := by decide

theorem lookup_eq_some {α β : Type} [BEq α] [LawfulBEq α] {l : List (α × β)} {a : α} {b : β}
    (h : (l.map Prod.fst).Nodup) : l.lookup a = some b ↔ (a, b) ∈ l := by
  rw [List.lookup_eq_some_iff]
  constructor
  · rintro ⟨l₁, l₂, rfl, -⟩
    exact List.mem_append_right l₁ List.mem_cons_self
  · intro hmem
    obtain ⟨l₁, l₂, rfl⟩ := List.append_of_mem hmem
    refine ⟨l₁, l₂, rfl, fun p hp => bne_iff_ne.mpr ?_⟩
    rw [List.map_append, List.map_cons, List.nodup_append] at h
    exact (h.2.2 _ (List.mem_map_of_mem hp) _ List.mem_cons_self).symm

theorem kindOf_eq_iff (hkind : kind ≠ .unknown) : kindOf cmd = kind ↔ (cmd, kind) ∈ cases := by
  rw [← lookup_eq_some nodup_cases, kindOf]
  cases h : cases.lookup cmd with
  | none => exact ⟨fun h => absurd h.symm hkind, fun h => nomatch h⟩
  | some k => exact ⟨congrArg some, Option.some.inj⟩

theorem kindOf_eq_segment : kindOf cmd = .segment ↔ cmd = LoadCommandType.segment64 := by
  rw [kindOf_eq_iff (by decide)]
  simp [cases]

theorem kindOf_eq_filesetEntry :
    kindOf cmd = .filesetEntry ↔ cmd = LoadCommandType.filesetEntry := by
  rw [kindOf_eq_iff (by decide)]
  simp [cases]

theorem kindOf_eq_symtab : kindOf cmd = .symtab ↔ cmd = LoadCommandType.symtab := by
  rw [kindOf_eq_iff (by decide)]
  simp [cases]

theorem kindOf_eq_dySymtab : kindOf cmd = .dySymtab ↔ cmd = LoadCommandType.dysymtab := by
  rw [kindOf_eq_iff (by decide)]
  simp [cases]

theorem kindOf_eq_functionStarts :
    kindOf cmd = .functionStarts ↔ cmd = LoadCommandType.functionStarts := by
  rw [kindOf_eq_iff (by decide)]
  simp [cases]

theorem kindOf_eq_unixThread : kindOf cmd = .unixThread ↔ cmd = LoadCommandType.unixThread := by
  rw [kindOf_eq_iff (by decide)]
  simp [cases]

theorem kindOf_eq_dylib : kindOf cmd = .dylib ↔ isDylib cmd = true := by
  rw [kindOf_eq_iff (by decide)]
  simp [cases, isDylib, or_assoc]

/-- `get()` of the fields behind a load command tells of this command. -/
theorem get_subcmd {mem : Bytes} {lc : ℕ} {v : SubCommandVariant}
    (h : get mem (LoadCommand.subcmd lc) = .ok v) :
    v.ptr = LoadCommand.subcmd lc ∧ loadCommand v.ptr = lc ∧
      ∃ cmd, LoadCommand.cmd mem lc = .ok cmd ∧ v.kind = kindOf cmd := by
  have hback : loadCommand (LoadCommand.subcmd lc) = lc := Nat.add_sub_cancel lc _
  obtain ⟨cmd, hcmd, hv⟩ := bind_eq_ok.mp h
  obtain rfl := Except.ok.inj hv
  rw [hback] at hcmd
  exact ⟨rfl, hback, cmd, hcmd, rfl⟩

end LoadSubCommand

/-! ### The walk -/

namespace MachO
open LoadSubCommand SubCommandVariant
variable {mem : Bytes} {macho : ℕ} {vs : List SubCommandVariant}

/-- The commands of a complete walk, by what `get()` makes of each. -/
structure Walked (mem : Bytes) (macho : ℕ) (vs : List SubCommandVariant) : Prop where
  sees : ∃ r, loadCommands mem macho = .ok r ∧ r.Sees (vs.map fun v => loadCommand v.ptr)
  length_le : vs.length ≤ mem.length
  cmd : ∀ v ∈ vs, ∃ cmd, LoadCommand.cmd mem (loadCommand v.ptr) = .ok cmd ∧ v.kind = kindOf cmd
  subcmd : ∀ v ∈ vs, LoadCommand.subcmd (loadCommand v.ptr) = v.ptr

theorem walked_of_subCommands (h : subCommands mem macho = .ok vs) : Walked mem macho vs := by
  obtain ⟨r, hr, hwalk⟩ := bind_eq_ok.mp h
  obtain ⟨as, hv, hfold⟩ := Cursor.visits_of_accumulate hwalk
  obtain ⟨bs, hall, hvs⟩ := exists_of_foldlM_append hfold
  obtain rfl : vs = bs := hvs
  have hlen := hv.length_le hwalk
  rw [hall.length_eq] at hlen
  have hmap : as = vs.map fun v => loadCommand v.ptr := by
    rw [← List.forall₂_eq_eq_eq, List.forall₂_map_right_iff]
    exact hall.imp fun lc v hget => (get_subcmd hget).2.1.symm
  have hmem : ∀ v ∈ vs, ∃ lc, LoadSubCommand.get mem (LoadCommand.subcmd lc) = .ok v := by
    intro v hvm
    obtain ⟨i, hi, rfl⟩ := List.getElem_of_mem hvm
    exact ⟨_, (List.forall₂_iff_get.mp hall).2 i (by rwa [hall.length_eq]) hi⟩
  refine ⟨⟨r, hr, ?_⟩, hlen, fun v hvm => ?_, fun v hvm => ?_⟩
  · rw [← hmap]
    exact hv
  · obtain ⟨lc, hget⟩ := hmem v hvm
    obtain ⟨-, hback, hcmd⟩ := get_subcmd hget
    rwa [hback]
  · obtain ⟨lc, hget⟩ := hmem v hvm
    obtain ⟨hptr, hback, -⟩ := get_subcmd hget
    rw [hback, hptr]

namespace Walked

theorem get_eq (h : Walked mem macho vs) :
    ∀ v ∈ vs, LoadSubCommand.get mem v.ptr = .ok v := by
  intro v hv
  obtain ⟨cmd, hcmd, hkind⟩ := h.cmd v hv
  rw [LoadSubCommand.get, hcmd, ok_bind, ← hkind]
  rfl

/-- A test of a command's type that tells one alternative. -/
theorem hasType_eq (h : Walked mem macho vs) {kind : SubCommandKind} {type : UInt32}
    (htype : ∀ cmd, kindOf cmd = kind ↔ cmd = type) :
    ∀ v ∈ vs, hasType mem type (loadCommand v.ptr) = .ok (v.kind == kind) := by
  intro v hv
  obtain ⟨cmd, hcmd, hkind⟩ := h.cmd v hv
  have heq : (cmd == type) = (v.kind == kind) := by
    rw [Bool.eq_iff_iff, beq_iff_eq, beq_iff_eq, hkind, htype]
  rw [hasType, hcmd, ok_bind, heq]
  rfl

/-- A filtered range of load commands, each past its header. -/
theorem filter_sees (h : Walked mem macho vs) {p : ℕ → Exec Bool} {q : SubCommandVariant → Bool}
    (hp : ∀ v ∈ vs, p (loadCommand v.ptr) = .ok (q v)) :
    ∃ lcs, (do (← loadCommands mem macho).filter p mem.length) = .ok lcs ∧
      (lcs.transform fun lc => .ok (LoadCommand.subcmd lc)).Sees ((vs.filter q).map ptr) := by
  obtain ⟨r, hr, hs⟩ := h.sees
  obtain ⟨lcs, hlcs, hs'⟩ := hs.filter hp h.length_le
  refine ⟨lcs, ?_, hs'.transform fun v hv => ?_⟩
  · rw [hr, ok_bind, hlcs]
  · rw [h.subcmd v (List.mem_filter.mp hv).1]

theorem filter_elements (h : Walked mem macho vs) {p : ℕ → Exec Bool}
    {q : SubCommandVariant → Bool} (hp : ∀ v ∈ vs, p (loadCommand v.ptr) = .ok (q v)) :
    ∃ lcs, (do (← loadCommands mem macho).filter p mem.length) = .ok lcs ∧
      (lcs.transform fun lc => .ok (LoadCommand.subcmd lc)).elements mem.length =
        .ok ((vs.filter q).map ptr) := by
  obtain ⟨lcs, hlcs, hs⟩ := h.filter_sees hp
  refine ⟨lcs, hlcs, hs.elements ?_⟩
  rw [List.length_map]
  exact (List.length_filter_le _ _).trans h.length_le

theorem visited_filter (h : Walked mem macho vs) {p : ℕ → Exec Bool}
    {q : SubCommandVariant → Bool} (hp : ∀ v ∈ vs, p (loadCommand v.ptr) = .ok (q v)) :
    visited mem (do
      let lcs ← (← loadCommands mem macho).filter p mem.length
      return lcs.transform fun lc => .ok (LoadCommand.subcmd lc)) =
        .ok ((vs.filter q).map ptr) := by
  obtain ⟨lcs, hlcs, hs⟩ := h.filter_elements hp
  obtain ⟨r, hr, -⟩ := h.sees
  rw [hr, ok_bind] at hlcs ⊢
  rw [hlcs, ok_bind, visited, pure_eq_ok, ok_bind, hs]

/-- The first command of a type. -/
theorem subcmdOfType_eq (h : Walked mem macho vs) {kind : SubCommandKind} {type : UInt32}
    (htype : ∀ cmd, kindOf cmd = kind ↔ cmd = type) :
    subcmdOfType mem macho type = .ok (ofKind kind vs).head? := by
  obtain ⟨r, hr, hs⟩ := h.sees
  unfold subcmdOfType
  rw [hr, ok_bind, hs.findIfOrNull (h.hasType_eq htype) h.length_le, ok_bind, ofKind,
    List.head?_map, List.head?_filter]
  cases hfind : vs.find? fun v => v.kind == kind with
  | none => rfl
  | some v =>
    have hsub := h.subcmd v (List.mem_of_find?_eq_some hfind)
    simp only [Option.map_some, hsub, pure_eq_ok]

/-- The libraries, each of one of the four kinds. -/
theorem answers_eq (h : Walked mem macho vs) : ∀ dylib ∈ ofKind .dylib vs,
    ∃ bs, DylibCommand.answers mem dylib = .ok bs ∧ bs.count true = 1 := by
  intro dylib hdylib
  obtain ⟨v, hv, rfl⟩ := List.mem_map.mp hdylib
  obtain ⟨hv, hkind⟩ := List.mem_filter.mp hv
  obtain ⟨cmd, hcmd, hcmdKind⟩ := h.cmd v hv
  have hdylib : isDylib cmd = true := by
    rw [← kindOf_eq_dylib, ← hcmdKind]
    exact eq_of_beq hkind
  have hcase : cmd = LoadCommandType.idDylib ∨ cmd = LoadCommandType.loadDylib ∨
      cmd = LoadCommandType.loadWeakDylib ∨ cmd = LoadCommandType.reexportDylib := by
    simpa [isDylib, or_assoc] using hdylib
  refine ⟨[cmd == LoadCommandType.idDylib, cmd == LoadCommandType.loadDylib,
    cmd == LoadCommandType.loadWeakDylib, cmd == LoadCommandType.reexportDylib], ?_, ?_⟩
  · simp only [DylibCommand.answers, DylibCommand.isID, DylibCommand.isLoad,
      DylibCommand.isLoadWeak, DylibCommand.isRexport, hasType, hcmd, ok_bind, pure_eq_ok]
  · rcases hcase with rfl | rfl | rfl | rfl <;> decide

theorem isDylib_eq (h : Walked mem macho vs) : ∀ v ∈ vs,
    (do return isDylib (← LoadCommand.cmd mem (loadCommand v.ptr)) : Exec Bool) =
      .ok (v.kind == .dylib) := by
  intro v hv
  obtain ⟨cmd, hcmd, hkind⟩ := h.cmd v hv
  have heq : isDylib cmd = (v.kind == .dylib) := by
    rw [Bool.eq_iff_iff, beq_iff_eq, hkind, kindOf_eq_dylib]
  rw [hcmd, ok_bind, heq]
  rfl

/-- The type of the command that each pointer is behind. -/
theorem exists_cmd (h : Walked mem macho vs) : ∃ cmd : SubCommandVariant → UInt32, ∀ v ∈ vs,
    LoadCommand.cmd mem (loadCommand v.ptr) = .ok (cmd v) ∧ v.kind = kindOf (cmd v) := by
  have htype : ∀ v : SubCommandVariant, ∃ cmd, v ∈ vs →
      LoadCommand.cmd mem (loadCommand v.ptr) = .ok cmd ∧ v.kind = kindOf cmd := by
    intro v
    by_cases hv : v ∈ vs
    · obtain ⟨cmd, hcmd⟩ := h.cmd v hv
      exact ⟨cmd, fun _ => hcmd⟩
    · exact ⟨0, fun h => absurd h hv⟩
  choose cmd hcmd using htype
  exact ⟨cmd, hcmd⟩

/-- The imported libraries are those libraries that are loaded. -/
theorem loaded_sees (h : Walked mem macho vs) {cmd : SubCommandVariant → UInt32}
    (hcmd : ∀ v ∈ vs, LoadCommand.cmd mem (loadCommand v.ptr) = .ok (cmd v) ∧
      v.kind = kindOf (cmd v)) :
    ∃ r, (do
      (← dylibCommands mem macho).filter (fun dylib => do
        return (← DylibCommand.isLoad mem dylib) || (← DylibCommand.isLoadWeak mem dylib))
        mem.length) = .ok r ∧ r.Sees ((vs.filter fun v => isImportedDylib (cmd v)).map ptr) := by
  have hloaded : ∀ v ∈ vs.filter fun v => v.kind == .dylib, (do
      return (← DylibCommand.isLoad mem v.ptr) || (← DylibCommand.isLoadWeak mem v.ptr) :
        Exec Bool) = .ok (isImportedDylib (cmd v)) := by
    intro v hv
    have hv := (hcmd v (List.mem_filter.mp hv).1).1
    simp only [DylibCommand.isLoad, DylibCommand.isLoadWeak, hasType, hv, ok_bind, pure_eq_ok,
      isImportedDylib]
  have hdylib : ∀ v ∈ vs, (isImportedDylib (cmd v) && v.kind == .dylib) =
      isImportedDylib (cmd v) := by
    intro v hv
    rw [Bool.and_eq_left_iff_imp, beq_iff_eq, (hcmd v hv).2, kindOf_eq_dylib]
    exact fun h => isDylib_of_isLinkedDylib (isLinkedDylib_of_isImportedDylib h)
  obtain ⟨lcs, hlcs, hs⟩ := h.filter_sees
    (p := fun lc => do return isDylib (← LoadCommand.cmd mem lc)) h.isDylib_eq
  obtain ⟨r, hr, hsr⟩ := hs.filter
    (p := fun dylib => do
      return (← DylibCommand.isLoad mem dylib) || (← DylibCommand.isLoadWeak mem dylib)) hloaded
    ((List.length_filter_le _ _).trans h.length_le)
  obtain ⟨lc, hlc, -⟩ := h.sees
  rw [hlc, ok_bind] at hlcs
  rw [List.filter_filter, List.filter_congr hdylib] at hsr
  refine ⟨r, ?_, hsr⟩
  rw [dylibCommands, hlc, ok_bind, hlcs, ok_bind, pure_eq_ok, ok_bind, hr]

/-- The imported libraries, out of all commands or out of the libraries. -/
theorem visited_importedDylibCommands (h : Walked mem macho vs) :
    visited mem (importedDylibCommands mem macho) = visited mem (do
      (← dylibCommands mem macho).filter (fun dylib => do
        return (← DylibCommand.isLoad mem dylib) || (← DylibCommand.isLoadWeak mem dylib))
        mem.length) := by
  obtain ⟨cmd, hcmd⟩ := h.exists_cmd
  have himported : ∀ v ∈ vs, (do
      return isImportedDylib (← LoadCommand.cmd mem (loadCommand v.ptr)) : Exec Bool) =
        .ok (isImportedDylib (cmd v)) := by
    intro v hv
    rw [(hcmd v hv).1]
    rfl
  have hleft : visited mem (importedDylibCommands mem macho) =
      .ok ((vs.filter fun v => isImportedDylib (cmd v)).map ptr) := h.visited_filter himported
  obtain ⟨r, hr, hs⟩ := h.loaded_sees hcmd
  rw [hleft, hr, visited, ok_bind, hs.elements]
  rw [List.length_map]
  exact (List.length_filter_le _ _).trans h.length_le

end Walked

/-- Wherever the walk with `get()` comes to its end, the accessors agree with it. -/
theorem agreesWithGet (h : subCommands mem macho = .ok vs) : AgreesWithGet mem macho vs := by
  have hw := walked_of_subCommands h
  obtain ⟨r, hr, hs⟩ := hw.sees
  refine
    { loadCommands := ?_
      get := hw.get_eq
      segments := ?_
      filesetEntries := hw.visited_filter (hw.hasType_eq fun _ => kindOf_eq_filesetEntry)
      dylibs := hw.visited_filter hw.isDylib_eq
      answers := hw.answers_eq
      importedDylibs := hw.visited_importedDylibCommands
      symtab := hw.subcmdOfType_eq fun _ => kindOf_eq_symtab
      dysymtab := hw.subcmdOfType_eq fun _ => kindOf_eq_dySymtab
      functionStarts := hw.subcmdOfType_eq fun _ => kindOf_eq_functionStarts
      unixThread := hw.subcmdOfType_eq fun _ => kindOf_eq_unixThread }
  · rw [loadCommandsVisited, hr, ok_bind]
    refine hs.elements ?_
    rw [List.length_map]
    exact hw.length_le
  · obtain ⟨lcs, hlcs, hsegs⟩ := hw.filter_elements (hw.hasType_eq fun _ => kindOf_eq_segment)
    rw [segmentsVisited, segments, segmentLoadCommands, hlcs, ok_bind, pure_eq_ok, ok_bind]
    exact hsegs

/-- The commands of a small image: a library, a fileset entry and the two symbol tables. -/
theorem agreesWithGet_smallImage :
    AgreesWithGet smallImage 0 [⟨.dylib, 40⟩, ⟨.filesetEntry, 80⟩, ⟨.symtab, 114⟩,
      ⟨.dySymtab, 138⟩] :=
  agreesWithGet (by decide +kernel)

end MachO
end JevMachO

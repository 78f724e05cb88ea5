import JevMachO.Lib.Filling
import JevMachO.MachO.LoadCommands

/-! Names by number: the section and segment names that `n_sect` selects, and the names of the
imported libraries that a symbol's library ordinal selects, each in an array of 255. -/
namespace JevMachO
open Lib

/-- `dylib_names_map_t`, `section_names_map_t` and `segment_names_map_t`. -/
abbrev NamesMap (α : Type) := Vector α 255

/-- `map[i]`, for an index that has been converted to a `size_t`. -/
def NamesMap.entry {α : Type} (map : NamesMap α) (i : UInt64) : Exec α :=
  if h : i.toNat < 255 then .ok map[i.toNat] else .error .outOfBounds

/-! ### Sections -/

namespace SectionHeader

def sizeofSection : ℕ := 80

def sectName (mem : Bytes) (sec : ℕ) : Exec Bytes := readMaybeNullTermCString mem (some sec) 16

/-- The field `addr`. -/
def addr (mem : Bytes) (sec : ℕ) : Exec UInt64 := loadU64 mem (sec + 32)

end SectionHeader

namespace SegmentCommand

def sectSize (mem : Bytes) (seg : ℕ) : Exec UInt32 := loadU32 mem (seg + 56)

/-- `this + 1`. -/
def sectCbegin (seg : ℕ) : ℕ := seg + 64

def sections (mem : Bytes) (seg : ℕ) : Exec (List ℕ) := do
  let size ← sectSize mem seg
  return (List.range size.toNat).map fun i => sectCbegin seg + SectionHeader.sizeofSection * i

end SegmentCommand

/-! ### Libraries -/

/-- `dylibLoadCommands()` keeps these. -/
def isDylib (cmd : UInt32) : Bool :=
  cmd == LoadCommandType.idDylib || cmd == LoadCommandType.loadDylib ||
    cmd == LoadCommandType.loadWeakDylib || cmd == LoadCommandType.reexportDylib

/-- `importedDylibLoadCommands()` keeps these. -/
def isImportedDylib (cmd : UInt32) : Bool :=
  cmd == LoadCommandType.loadDylib || cmd == LoadCommandType.loadWeakDylib

/-- The kinds of libraries an ordinal counts. -/
def isLinkedDylib (cmd : UInt32) : Bool := isDylib cmd && cmd != LoadCommandType.idDylib

theorem isDylib_of_isLinkedDylib {cmd : UInt32} (h : isLinkedDylib cmd = true) :
    isDylib cmd = true := by
  unfold isLinkedDylib at h
  exact (Bool.and_eq_true_iff.mp h).1

theorem isLinkedDylib_of_isImportedDylib {cmd : UInt32} (h : isImportedDylib cmd = true) :
    isLinkedDylib cmd = true := by
  unfold isImportedDylib at h
  simp only [Bool.or_eq_true, beq_iff_eq] at h
  rcases h with rfl | rfl <;> decide

/-- `loadCommand()`. -/
def LoadSubCommand.loadCommand (sub : ℕ) : ℕ := sub - LoadCommand.sizeofLoadCommand

/-- `name()`, a pointer. -/
def DylibCommand.name (mem : Bytes) (dylib : ℕ) : Exec ℕ := do
  return LoadSubCommand.loadCommand dylib + (← loadU32 mem dylib).toNat

/-! ### The maps -/

namespace MachO

/-- `res[idx++] = x`, where `idx` is a `uint8_t`. -/
def putAtIdx {α : Type} : Filling 255 α → α → Exec (Filling 255 α) :=
  Filling.put (fun idx => (idx + 1) % 256) .outOfBounds

/-- `*out++ = x`, where `out` is a pointer into the array. -/
def putAtOut {α : Type} : Filling 255 α → α → Exec (Filling 255 α) :=
  Filling.put (· + 1) .outOfBounds

def segmentNamesMap (mem : Bytes) (macho : ℕ) : Exec (NamesMap Bytes) := do
  let segs ← segments mem macho
  let res ← segs.cursor.accumulate (fun res seg => do
    let e ← SegmentCommand.sectSize mem seg
    (List.range e.toNat).foldlM (fun res _ => do putAtIdx res (← SegmentCommand.name mem seg)) res)
    mem.length segs.first (.empty 255 [])
  return res.res

def sectionNamesMap (mem : Bytes) (macho : ℕ) : Exec (NamesMap Bytes) := do
  let segs ← segments mem macho
  let res ← segs.cursor.accumulate (fun res seg => do
    (← SegmentCommand.sections mem seg).foldlM
      (fun res sec => do putAtIdx res (← SectionHeader.sectName mem sec)) res)
    mem.length segs.first (.empty 255 [])
  return res.res

def importedDylibCommands (mem : Bytes) (macho : ℕ) : Exec (Range Fault ℕ ℕ) := do
  let lcs ← (← loadCommands mem macho).filter
    (fun lc => do return isImportedDylib (← LoadCommand.cmd mem lc)) mem.length
  return lcs.transform fun lc => .ok (LoadCommand.subcmd lc)

def dylibNamesMap (mem : Bytes) (macho : ℕ) : Exec (NamesMap (Option ℕ)) := do
  let dylibs := (← importedDylibCommands mem macho).transform (DylibCommand.name mem)
  let res ← dylibs.cursor.accumulate (fun res name => putAtOut res (some name)) mem.length
    dylibs.first (.empty 255 none)
  return res.res

end MachO

/-! ### Symbols -/

structure NList where
  strx : UInt32
  type : UInt8
  sect : UInt8
  desc : UInt16
  value : UInt64
  deriving DecidableEq, Repr

namespace NList

def nType : UInt8 := 0x0e

def nUndf : UInt8 := 0x00

def noSect : UInt8 := 0

def dylibOrdinal (nl : NList) : Exec UInt8 := do
  assertThat (nl.type &&& nType == nUndf && nl.sect == noSect)
  return ((nl.desc >>> 8) &&& 0xff).toUInt8

def dylibName (nl : NList) (map : NamesMap (Option ℕ)) : Exec (Option ℕ) := do
  map.entry ((← nl.dylibOrdinal).toUInt64 - 1)

def segmentName (nl : NList) (map : NamesMap Bytes) : Exec Bytes := map.entry nl.sect.toUInt64

def sectionName (nl : NList) (map : NamesMap Bytes) : Exec Bytes := map.entry nl.sect.toUInt64

end NList

/-! ### Laid out segments and libraries -/

namespace Command

def nsects (c : Command) : ℕ := ofLE ((c.payload.drop 56).take 4)

/-- The name field of the section with this index. -/
def sectname (c : Command) (i : ℕ) : Bytes :=
  untilNul ((c.payload.drop (64 + SectionHeader.sizeofSection * i)).take 16)

/-- The segment name and the section name of every section. -/
def sectionNames (c : Command) : List (Bytes × Bytes) :=
  (List.range c.nsects).map fun i => (c.segname, c.sectname i)

/-- A segment has its sections behind its fields. -/
def SectionsOk (c : Command) : Prop := c.cmd = LoadCommandType.segment64 →
  64 + SectionHeader.sizeofSection * c.nsects ≤ c.payload.length

instance (c : Command) : Decidable c.SectionsOk := inferInstanceAs (Decidable (_ → _))

/-- A library command has all the fields of one. -/
def DylibOk (c : Command) : Prop := isDylib c.cmd = true → 16 ≤ c.payload.length

instance (c : Command) : Decidable c.DylibOk := inferInstanceAs (Decidable (_ → _))

def nameOffset (c : Command) : ℕ := ofLE (c.payload.take 4)

variable {mem : Bytes} {p : ℕ} {c : Command}

theorem segname_eq (h : At mem p c.bytes) (hlen : 16 ≤ c.payload.length) :
    SegmentCommand.name mem (LoadCommand.subcmd p) = .ok c.segname :=
  readMaybeNullTermCString_eq (at_payload h) (by decide) hlen

theorem sectSize_eq (h : At mem p c.bytes) (hlen : 60 ≤ c.payload.length) :
    SegmentCommand.sectSize mem (LoadCommand.subcmd p) = .ok (UInt32.ofNat c.nsects) := by
  have hfield : ((c.payload.drop 56).take 4).length = 4 := by
    rw [List.length_take, List.length_drop]
    omega
  have hload := load_of_at ((at_payload h).sub 56 4) hfield.symm
    (List.ne_nil_of_length_pos (by omega))
  rw [SegmentCommand.sectSize, loadU32, hload, ok_bind, pure_eq_ok, nsects]

theorem nsects_lt (c : Command) : c.nsects < 2 ^ 32 := by
  have hlt := ofLE_lt ((c.payload.drop 56).take 4)
  have hle : 256 ^ ((c.payload.drop 56).take 4).length ≤ 256 ^ 4 :=
    Nat.pow_le_pow_right (by decide) (List.length_take_le _ _)
  rw [nsects]
  omega

theorem sectName_eq (h : At mem p c.bytes) {i : ℕ}
    (hlen : 64 + SectionHeader.sizeofSection * i + 16 ≤ c.payload.length) :
    SectionHeader.sectName mem (SegmentCommand.sectCbegin (LoadCommand.subcmd p) +
      SectionHeader.sizeofSection * i) = .ok (c.sectname i) := by
  have hfield : 16 ≤ (c.payload.drop (64 + SectionHeader.sizeofSection * i)).length := by
    rw [List.length_drop]
    omega
  have hat := (at_payload h).sub (64 + SectionHeader.sizeofSection * i)
    (c.payload.drop (64 + SectionHeader.sizeofSection * i)).length
  rw [List.take_length, ← Nat.add_assoc] at hat
  exact readMaybeNullTermCString_eq hat (by decide) hfield

theorem dylibName_eq (h : At mem p c.bytes) (hlen : 4 ≤ c.payload.length) :
    DylibCommand.name mem (LoadCommand.subcmd p) = .ok (p + c.nameOffset) := by
  have hfield : (c.payload.take 4).length = 4 := List.length_take_of_le hlen
  have hload := load_of_at ((List.take_prefix 4 _).trans (at_payload h)) hfield.symm
    (List.ne_nil_of_length_pos (by omega))
  have hlt := ofLE_lt (c.payload.take 4)
  rw [hfield] at hlt
  rw [DylibCommand.name, loadU32, hload]
  simp only [ok_bind, pure_eq_ok, LoadSubCommand.loadCommand, LoadCommand.subcmd,
    Nat.add_sub_cancel, nameOffset]
  rw [u32_toNat_ofNat hlt]

end Command

namespace MachO

/-- The names of all sections in load-command order, each with its segment's. -/
def sectionNames (cmds : List Command) : List (Bytes × Bytes) :=
  (cmds.filter fun c => c.cmd == LoadCommandType.segment64).flatMap Command.sectionNames

/-- The name pointers of the libraries of some kinds. -/
def dylibNames (macho : ℕ) (cmds : List Command) (kind : UInt32 → Bool) : List ℕ :=
  ((commandsAt macho cmds).filter fun c => kind c.2.cmd).map fun c => c.1 + c.2.nameOffset

/-- The array is built with these entries, each in its place, and the default behind them. -/
def BuiltOf {α : Type} (build : Exec (NamesMap α)) (d : α) (names : List α) : Prop :=
  ∃ map, build = .ok map ∧ map.toList = names ++ List.replicate (255 - names.length) d

theorem builtOf_iff {α : Type} {build : Exec (NamesMap α)} {d : α} {names : List α}
    {next : ℕ → ℕ} (hnext : ∀ i < 255, next i = i + 1)
    (h : build = (names.foldlM (Filling.put next .outOfBounds) (.empty 255 d)).map Filling.res) :
    BuiltOf build d names ↔ names.length ≤ 255 := by
  constructor
  · rintro ⟨map, -, hmap⟩
    have hlen := congrArg List.length hmap
    rw [Vector.length_toList, List.length_append, List.length_replicate] at hlen
    omega
  · intro hle
    obtain ⟨f, hf, hh⟩ := (Filling.holds_empty 255 d).foldlM_put hnext (e := Fault.outOfBounds)
      names (by simpa using hle)
    exact ⟨f.res, by rw [h, hf]; rfl, hh.res⟩

theorem bind_res {α : Type} (x : Exec (Filling 255 α)) :
    (x >>= fun res => .ok res.res) = x.map Filling.res := by
  cases x <;> rfl

theorem filter_eq_map_commandsAt (macho : ℕ) (cmds : List Command) (p : Command → Bool) :
    cmds.filter p = ((commandsAt macho cmds).filter fun c => p c.2).map Prod.snd := by
  conv_lhs => rw [← map_snd_locate Command.cmdsize (lcCbegin macho) cmds, List.filter_map]
  rfl

namespace CommandTable
variable {mem : Bytes} {macho : ℕ} {cmds : List Command}

/-- An array built by a loop over the segments that puts in some entries for each. -/
theorem namesMap_eq {α : Type} (h : CommandTable mem macho cmds)
    {f : Filling 255 α → α → Exec (Filling 255 α)}
    {body : Filling 255 α → ℕ → Exec (Filling 255 α)} {names : Command → List α}
    (hbody : ∀ c ∈ commandsAt macho cmds, c.2.cmd = LoadCommandType.segment64 →
      ∀ b, body b (LoadCommand.subcmd c.1) = (names c.2).foldlM f b) (b : Filling 255 α) :
    (do let segs ← segments mem macho
        let res ← segs.cursor.accumulate body mem.length segs.first b
        return res.res) =
      (((cmds.filter fun c => c.cmd == LoadCommandType.segment64).flatMap names).foldlM f b).map
        Filling.res := by
  obtain ⟨r, hr, hs⟩ := h.segments_eq
  have hlen : (((commandsAt macho cmds).filter fun c =>
      c.2.cmd == LoadCommandType.segment64).map fun c => LoadCommand.subcmd c.1).length ≤
      mem.length := by
    rw [List.length_map]
    exact (List.length_filter_le _ _).trans h.length_le
  have hfold : (((commandsAt macho cmds).filter fun c =>
      c.2.cmd == LoadCommandType.segment64).foldlM (fun b c => body b (LoadCommand.subcmd c.1)) b) =
      ((cmds.filter fun c => c.cmd == LoadCommandType.segment64).flatMap names).foldlM f b := by
    rw [filter_eq_map_commandsAt macho, List.flatMap_map]
    refine foldlM_flatMap (fun c hc b => ?_) b
    obtain ⟨hc, htype⟩ := List.mem_filter.mp hc
    exact hbody c hc (eq_of_beq htype) b
  rw [hr, ok_bind, Cursor.Visits.accumulate hs _ _ hlen, List.foldlM_map, hfold]
  exact bind_res _

theorem segmentNamesMap_eq (h : CommandTable mem macho cmds) (hok : ∀ c ∈ cmds, c.SectionsOk) :
    segmentNamesMap mem macho =
      (((sectionNames cmds).map Prod.fst).foldlM putAtIdx (.empty 255 [])).map Filling.res := by
  rw [sectionNames, List.map_flatMap]
  refine h.namesMap_eq (fun c hc htype b => ?_) _
  have hat := h.at_bytes c hc
  have hlen := hok _ (mem_of_mem_commandsAt hc) htype
  rw [Command.sectSize_eq hat (by omega), ok_bind, u32_toNat_ofNat c.2.nsects_lt,
    Command.segname_eq hat (by omega), Command.sectionNames, List.map_map]
  exact foldlM_map_of (f := putAtIdx) (g := Prod.fst ∘ fun i => (c.2.segname, c.2.sectname i))
    (fun _ _ _ => rfl) b

theorem sectionNamesMap_eq (h : CommandTable mem macho cmds) (hok : ∀ c ∈ cmds, c.SectionsOk) :
    sectionNamesMap mem macho =
      (((sectionNames cmds).map Prod.snd).foldlM putAtIdx (.empty 255 [])).map Filling.res := by
  rw [sectionNames, List.map_flatMap]
  refine h.namesMap_eq (fun c hc htype b => ?_) _
  have hat := h.at_bytes c hc
  have hlen := hok _ (mem_of_mem_commandsAt hc) htype
  rw [SegmentCommand.sections, Command.sectSize_eq hat (by omega)]
  simp only [ok_bind, pure_eq_ok]
  rw [u32_toNat_ofNat c.2.nsects_lt, Command.sectionNames, List.map_map, List.foldlM_map]
  refine foldlM_map_of (fun i hi b => ?_) b
  have hi := List.mem_range.mp hi
  have hsec := Command.sectName_eq hat (i := i) (by
    have := Nat.mul_le_mul_left SectionHeader.sizeofSection (Nat.succ_le_of_lt hi)
    simp only [SectionHeader.sizeofSection] at *
    omega)
  rw [hsec]
  rfl

theorem dylibNamesMap_eq (h : CommandTable mem macho cmds) (hok : ∀ c ∈ cmds, c.DylibOk) :
    dylibNamesMap mem macho =
      (((dylibNames macho cmds isImportedDylib).map some).foldlM putAtOut (.empty 255 none)).map
        Filling.res := by
  obtain ⟨r, hr, hs⟩ := h.loadCommands_eq
  obtain ⟨r', hr', hs'⟩ := hs.filter (p := fun lc => do
    return isImportedDylib (← LoadCommand.cmd mem lc)) (q := fun c => isImportedDylib c.2.cmd)
    (fun c hc => by rw [Command.cmd_eq (h.at_bytes c hc)]; rfl) h.length_le
  have hcmds := hs'.transform (f := fun lc => .ok (LoadCommand.subcmd lc)) fun _ _ => rfl
  have hnames := hcmds.transform (f := DylibCommand.name mem) (g := fun c => c.1 + c.2.nameOffset)
    fun c hc => by
      obtain ⟨hc, hkind⟩ := List.mem_filter.mp hc
      have hlen := hok _ (mem_of_mem_commandsAt hc)
        (isDylib_of_isLinkedDylib (isLinkedDylib_of_isImportedDylib hkind))
      exact Command.dylibName_eq (h.at_bytes c hc) (by omega)
  have hlen : (dylibNames macho cmds isImportedDylib).length ≤ mem.length := by
    rw [dylibNames, List.length_map]
    exact (List.length_filter_le _ _).trans h.length_le
  rw [dylibNamesMap, importedDylibCommands, hr, ok_bind, hr']
  simp only [ok_bind, pure_eq_ok]
  rw [Cursor.Visits.accumulate hnames _ _ hlen]
  simp only [dylibNames, List.foldlM_map]
  exact bind_res _

end CommandTable
/-! ### What the maps hold -/

/-- The three maps are built inside their arrays, no entry over another. -/
def MapsBuilt (mem : Bytes) (macho : ℕ) (cmds : List Command) : Prop :=
  BuiltOf (segmentNamesMap mem macho) [] ((sectionNames cmds).map Prod.fst) ∧
    BuiltOf (sectionNamesMap mem macho) [] ((sectionNames cmds).map Prod.snd) ∧
    BuiltOf (dylibNamesMap mem macho) none ((dylibNames macho cmds isImportedDylib).map some)

namespace CommandTable
variable {mem : Bytes} {macho : ℕ} {cmds : List Command}

theorem builtOf_segmentNamesMap_iff (h : CommandTable mem macho cmds)
    (hok : ∀ c ∈ cmds, c.SectionsOk) :
    BuiltOf (segmentNamesMap mem macho) [] ((sectionNames cmds).map Prod.fst) ↔
      (sectionNames cmds).length ≤ 255 := by
  rw [builtOf_iff (fun i hi => Nat.mod_eq_of_lt (by omega)) (h.segmentNamesMap_eq hok),
    List.length_map]

theorem builtOf_sectionNamesMap_iff (h : CommandTable mem macho cmds)
    (hok : ∀ c ∈ cmds, c.SectionsOk) :
    BuiltOf (sectionNamesMap mem macho) [] ((sectionNames cmds).map Prod.snd) ↔
      (sectionNames cmds).length ≤ 255 := by
  rw [builtOf_iff (fun i hi => Nat.mod_eq_of_lt (by omega)) (h.sectionNamesMap_eq hok),
    List.length_map]

theorem builtOf_dylibNamesMap_iff (h : CommandTable mem macho cmds)
    (hok : ∀ c ∈ cmds, c.DylibOk) :
    BuiltOf (dylibNamesMap mem macho) none ((dylibNames macho cmds isImportedDylib).map some) ↔
      (dylibNames macho cmds isImportedDylib).length ≤ 255 := by
  rw [builtOf_iff (fun _ _ => rfl) (h.dylibNamesMap_eq hok), List.length_map]

/-- The arrays are large enough for 255 sections and for 255 imported libraries. -/
theorem mapsBuilt_iff (h : CommandTable mem macho cmds) (hsections : ∀ c ∈ cmds, c.SectionsOk)
    (hdylibs : ∀ c ∈ cmds, c.DylibOk) :
    MapsBuilt mem macho cmds ↔ (sectionNames cmds).length ≤ 255 ∧
      (dylibNames macho cmds isImportedDylib).length ≤ 255 := by
  rw [MapsBuilt, h.builtOf_segmentNamesMap_iff hsections,
    h.builtOf_sectionNamesMap_iff hsections, h.builtOf_dylibNamesMap_iff hdylibs]
  tauto

end CommandTable

/-- An entry of a map, for an index inside it. -/
theorem entry_eq {α : Type} {map : NamesMap α} {d : α} {names : List α} {i : UInt64}
    (h : map.toList = names ++ List.replicate (255 - names.length) d) (hi : i.toNat < 255) :
    map.entry i = .ok (names[i.toNat]?.getD d) := by
  rw [NamesMap.entry, dif_pos hi]
  congr 1
  have hget : map.toList[i.toNat]? = some map[i.toNat] := by
    rw [List.getElem?_eq_getElem (by rwa [Vector.length_toList]), Vector.getElem_toList]
  rw [h] at hget
  by_cases hlt : i.toNat < names.length
  · rw [List.getElem?_append_left hlt] at hget
    rw [hget, Option.getD_some]
  · rw [List.getElem?_append_right (by omega), List.getElem?_replicate, if_pos (by omega)] at hget
    rw [List.getElem?_eq_none (by omega), Option.getD_none]
    exact (Option.some.inj hget).symm

/-- The names of the section with a number. Sections count from one; `JEV_NO_SECT` has no names. -/
def numbered (names : List (Bytes × Bytes)) : ℕ → Bytes × Bytes
  | 0 => ([], [])
  | k + 1 => names[k]?.getD ([], [])

/-- A symbol's section number selects the names of that section. -/
def NamesItsSection (mem : Bytes) (macho : ℕ) (cmds : List Command) (nl : NList) : Prop :=
  nl.sect.toNat ≤ (sectionNames cmds).length →
    (do nl.segmentName (← segmentNamesMap mem macho)) =
      .ok (numbered (sectionNames cmds) nl.sect.toNat).1 ∧
    (do nl.sectionName (← sectionNamesMap mem macho)) =
      .ok (numbered (sectionNames cmds) nl.sect.toNat).2

/-- A symbol's ordinal selects the name of that library, and no name where there is none. -/
def NamesItsDylib (mem : Bytes) (macho : ℕ) (cmds : List Command) (nl : NList) (o : UInt8) :
    Prop :=
  (do nl.dylibName (← dylibNamesMap mem macho)) =
    .ok (if o = 0 then none else (dylibNames macho cmds isLinkedDylib)[o.toNat - 1]?)

theorem length_dylibNames_le (macho : ℕ) (cmds : List Command) :
    (dylibNames macho cmds isImportedDylib).length ≤
      (dylibNames macho cmds isLinkedDylib).length := by
  rw [dylibNames, dylibNames, List.length_map, List.length_map]
  exact (List.monotone_filter_right _ fun c => isLinkedDylib_of_isImportedDylib).length_le

namespace CommandTable
variable {mem : Bytes} {macho : ℕ} {cmds : List Command}

/-- The maps are filled from zero: where a symbol should get the names of its section, it gets
those of the next one. -/
theorem namesItsSection_iff (h : CommandTable mem macho cmds) (hok : ∀ c ∈ cmds, c.SectionsOk)
    (hn : (sectionNames cmds).length ≤ 254) (nl : NList) :
    NamesItsSection mem macho cmds nl ↔ (nl.sect.toNat ≤ (sectionNames cmds).length →
      numbered (sectionNames cmds) nl.sect.toNat =
        numbered (sectionNames cmds) (nl.sect.toNat + 1)) := by
  obtain ⟨segs, hsegs, hsegsList⟩ := (h.builtOf_segmentNamesMap_iff hok).mpr (by omega)
  obtain ⟨secs, hsecs, hsecsList⟩ := (h.builtOf_sectionNamesMap_iff hok).mpr (by omega)
  have hsect : nl.sect.toUInt64.toNat = nl.sect.toNat := UInt8.toNat_toUInt64 _
  refine imp_congr_right fun hle => ?_
  have hidx : nl.sect.toUInt64.toNat < 255 := by omega
  rw [hsegs, hsecs, ok_bind, ok_bind, NList.segmentName, NList.sectionName,
    entry_eq hsegsList hidx, entry_eq hsecsList hidx, hsect, List.getElem?_map, List.getElem?_map,
    Except.ok.injEq, Except.ok.injEq, Prod.ext_iff, numbered.eq_2]
  cases (sectionNames cmds)[nl.sect.toNat]? with
  | none => exact ⟨fun ⟨h₁, h₂⟩ => ⟨h₁.symm, h₂.symm⟩, fun ⟨h₁, h₂⟩ => ⟨h₁.symm, h₂.symm⟩⟩
  | some n => exact ⟨fun ⟨h₁, h₂⟩ => ⟨h₁.symm, h₂.symm⟩, fun ⟨h₁, h₂⟩ => ⟨h₁.symm, h₂.symm⟩⟩

/-- An ordinal selects its library when it is not zero and as many of the libraries up to there
are imported ones as there are libraries. -/
theorem namesItsDylib_iff (h : CommandTable mem macho cmds) (hok : ∀ c ∈ cmds, c.DylibOk)
    (hn : (dylibNames macho cmds isLinkedDylib).length ≤ 253) {nl : NList} {o : UInt8}
    (ho : nl.dylibOrdinal = .ok o) :
    NamesItsDylib mem macho cmds nl o ↔ o ≠ 0 ∧
      (dylibNames macho cmds isImportedDylib)[o.toNat - 1]? =
        (dylibNames macho cmds isLinkedDylib)[o.toNat - 1]? := by
  have hle := length_dylibNames_le macho cmds
  obtain ⟨map, hmap, hmapList⟩ := (h.builtOf_dylibNamesMap_iff hok).mpr (by omega)
  have hsub : (o.toUInt64 - 1).toNat = (2 ^ 64 - 1 + o.toNat) % 2 ^ 64 := by
    rw [UInt64.toNat_sub, UInt8.toNat_toUInt64]
    rfl
  have hlt := o.toNat_lt
  rw [NamesItsDylib, hmap, ok_bind, NList.dylibName, ho, ok_bind]
  by_cases h0 : o = 0
  · rw [h0]
    refine iff_of_false ?_ fun hne => hne.1 rfl
    rw [NamesMap.entry, dif_neg (by decide)]
    nofun
  · have hne : o.toNat ≠ 0 := fun h => h0 (UInt8.toNat_inj.mp h)
    have hidx : (o.toUInt64 - 1).toNat = o.toNat - 1 := by omega
    rw [entry_eq hmapList (by omega), hidx, if_neg h0, List.getElem?_map, Except.ok.injEq,
      and_iff_right h0]
    cases (dylibNames macho cmds isImportedDylib)[o.toNat - 1]? with
    | none => rfl
    | some n => rfl

end CommandTable
/-! ### Small images -/

/-- A name in a field of 16 bytes. -/
def nameField (name : Bytes) : Bytes := name ++ List.replicate (16 - name.length) 0

def sectionHeader (sect seg : Bytes) (addr : ℕ) : Bytes :=
  nameField sect ++ nameField seg ++ leBytes 8 addr ++ List.replicate 40 0

def segmentWithSections (name : Bytes) (vmaddr vmsize fileoff filesize : ℕ)
    (sects : List Bytes) : Command where
  cmd := LoadCommandType.segment64
  payload := nameField name ++ leBytes 8 vmaddr ++ leBytes 8 vmsize ++ leBytes 8 fileoff ++
    leBytes 8 filesize ++ leBytes 8 0 ++ leBytes 4 sects.length ++ leBytes 4 0 ++ sects.flatten

def libraryCommand (cmd : UInt32) (name : Bytes) : Command where
  cmd := cmd
  payload := leBytes 4 24 ++ List.replicate 12 0 ++ nameField name

def imageOf (cmds : List Command) : Bytes :=
  headerBytes (cmds.flatMap Command.bytes).length ++ cmds.flatMap Command.bytes

theorem commandTable_imageOf {cmds : List Command}
    (hlt : (cmds.flatMap Command.bytes).length < 2 ^ 32) : CommandTable (imageOf cmds) 0 cmds := by
  have h := commandTable_headerBytes hlt []
  rwa [List.append_nil] at h

/-- A segment with two sections, and a library. -/
def twoSections (first second : UInt8) : List Command :=
  [segmentWithSections [0x54] 0 0 0 0
    [sectionHeader [first] [0x54] 0, sectionHeader [second] [0x54] 0],
    libraryCommand LoadCommandType.loadDylib [0x2f, 0x61]]

theorem mapsBuilt_twoSections :
    MapsBuilt (imageOf (twoSections 0x61 0x62)) 0 (twoSections 0x61 0x62) :=
  (CommandTable.mapsBuilt_iff (commandTable_imageOf (by decide +kernel)) (by decide +kernel)
    (by decide +kernel)).mpr ⟨by decide +kernel, by decide +kernel⟩

/-- Two sections of one name are not told apart. -/
theorem namesItsSection_sameNames :
    NamesItsSection (imageOf (twoSections 0x61 0x61)) 0 (twoSections 0x61 0x61) ⟨0, 0xf, 1, 0, 0⟩ :=
  (CommandTable.namesItsSection_iff (commandTable_imageOf (by decide +kernel)) (by decide +kernel)
    (by decide +kernel) _).mpr (by decide +kernel)

/-- A symbol of the first section gets the name of the second. -/
theorem not_namesItsSection :
    ¬ ∀ (mem : Bytes) (macho : ℕ) (cmds : List Command) (nl : NList),
      CommandTable mem macho cmds → (∀ c ∈ cmds, c.SectionsOk) →
      (sectionNames cmds).length ≤ 254 → NamesItsSection mem macho cmds nl := by
  intro h
  obtain ⟨-, hname⟩ := h (imageOf (twoSections 0x61 0x62)) 0 (twoSections 0x61 0x62)
    ⟨0, 0xf, 1, 0, 0⟩ (commandTable_imageOf (by decide +kernel)) (by decide +kernel)
    (by decide +kernel) (by decide +kernel)
  exact absurd hname (by decide +kernel)

theorem namesItsDylib_first :
    NamesItsDylib (imageOf (twoSections 0x61 0x62)) 0 (twoSections 0x61 0x62) ⟨0, 1, 0, 0x100, 0⟩
      1 :=
  (CommandTable.namesItsDylib_iff (commandTable_imageOf (by decide +kernel)) (by decide +kernel)
    (by decide +kernel) (by decide)).mpr (by decide +kernel)

/-- Ordinal zero reads the entry in front of the first. -/
theorem not_namesItsDylib :
    ¬ ∀ (mem : Bytes) (macho : ℕ) (cmds : List Command) (nl : NList) (o : UInt8),
      CommandTable mem macho cmds → (∀ c ∈ cmds, c.DylibOk) →
      (dylibNames macho cmds isLinkedDylib).length ≤ 253 → nl.dylibOrdinal = .ok o →
      NamesItsDylib mem macho cmds nl o := by
  intro h
  have hname := h (imageOf (twoSections 0x61 0x62)) 0 (twoSections 0x61 0x62) ⟨0, 1, 0, 0, 0⟩ 0
    (commandTable_imageOf (by decide +kernel)) (by decide +kernel) (by decide +kernel) (by decide)
  unfold NamesItsDylib at hname
  exact absurd hname (by decide +kernel)

/-- A segment of 256 sections without names. -/
def manySections : List Command :=
  [⟨LoadCommandType.segment64,
    List.replicate 56 0 ++ leBytes 4 256 ++ List.replicate (4 + 80 * 256) 0⟩]

theorem nsects_manySections :
    ∀ c ∈ manySections, c.nsects = 256 ∧ c.payload.length = 64 + 80 * 256 := by
  intro c hc
  obtain rfl := List.mem_singleton.mp hc
  refine ⟨?_, by simp only [List.length_append, List.length_replicate, length_leBytes]⟩
  rw [Command.nsects, List.append_assoc, List.drop_left' (List.length_replicate ..),
    List.take_left' (length_leBytes ..)]
  decide

/-- The 256th section's name goes behind the array. -/
theorem not_mapsBuilt :
    ¬ ∀ (mem : Bytes) (macho : ℕ) (cmds : List Command),
      CommandTable mem macho cmds → (∀ c ∈ cmds, c.SectionsOk) → (∀ c ∈ cmds, c.DylibOk) →
      MapsBuilt mem macho cmds := by
  intro h
  have hfacts := nsects_manySections
  have hlen : (manySections.flatMap Command.bytes).length < 2 ^ 32 := by
    rw [manySections, List.flatMap_singleton, Command.length_bytes]
    simp only [Command.cmdsize, List.length_append, List.length_replicate, length_leBytes]
    decide
  have hok : ∀ c ∈ manySections, c.SectionsOk := fun c hc _ => by
    obtain ⟨hn, hpayload⟩ := hfacts c hc
    rw [hn, hpayload, SectionHeader.sizeofSection]
  have htable := commandTable_imageOf hlen
  have hdylibs : ∀ c ∈ manySections, c.DylibOk := fun c hc _ => by
    rw [(hfacts c hc).2]
    decide
  have hbuilt := (htable.builtOf_segmentNamesMap_iff hok).mp (h _ _ _ htable hok hdylibs).1
  have hcount : (sectionNames manySections).length = 256 := by
    have hn := (hfacts _ (List.mem_singleton_self _)).1
    have hfilter : (manySections.filter fun c => c.cmd == LoadCommandType.segment64) =
        manySections := rfl
    rw [sectionNames, hfilter, manySections, List.flatMap_singleton, Command.sectionNames,
      List.length_map, List.length_range, hn]
  omega

end MachO
end JevMachO

import JevMachO.Common
import JevMachO.Lib.Views
import JevMachO.Lib.Words

/-! Load commands behind a Mach-O header. Each stores its own size, by which the iterator steps,
and the walk ends where the pointer equals the header's end pointer. -/
namespace JevMachO
open Lib

namespace LoadCommandType

def symtab : UInt32 := 0x2

def unixThread : UInt32 := 0x5

def dysymtab : UInt32 := 0xb

def loadDylib : UInt32 := 0xc

def idDylib : UInt32 := 0xd

def loadWeakDylib : UInt32 := 0x80000018

def segment64 : UInt32 := 0x19

def reexportDylib : UInt32 := 0x8000001f

def functionStarts : UInt32 := 0x26

end LoadCommandType

/-- `std::memchr(p, '\0', n) != nullptr`: looks no further than the byte it finds. -/
def memchrNul (mem : Bytes) (p n : ℕ) : Exec Bool :=
  if (0 : UInt8) ∈ (mem.drop p).take n then .ok true
  else if p + n ≤ mem.length then .ok false
  else .error .outOfBounds

def readMaybeNullTermCString (mem : Bytes) (ptr : Option ℕ) (bufSz : ℕ) : Exec Bytes :=
  match ptr with
  | none => .ok []
  | some p => do
    if ← memchrNul mem p bufSz then cstr mem p
    else load mem p bufSz

namespace LoadCommand

def sizeofLoadCommand : ℕ := 8

def cmd (mem : Bytes) (lc : ℕ) : Exec UInt32 := loadU32 mem lc

def cmdsize (mem : Bytes) (lc : ℕ) : Exec UInt32 := loadU32 mem (lc + 4)

/-- `this + 1`. -/
def subcmd (lc : ℕ) : ℕ := lc + sizeofLoadCommand

/-- `LoadCommand::Iterator`, a pointer, up to the pointer `cend`. -/
def cursor (mem : Bytes) (cend : ℕ) : Cursor Fault ℕ ℕ where
  atEnd ptr := .ok (ptr == cend)
  deref ptr := .ok ptr
  next ptr := do return ptr + (← cmdsize mem ptr).toNat
  stuck := .endless

end LoadCommand

namespace SegmentCommand

/-- The name of the segment command whose fields start at `seg`; `segname` is its first field. -/
def name (mem : Bytes) (seg : ℕ) : Exec Bytes := readMaybeNullTermCString mem (some seg) 16

end SegmentCommand

namespace MachO

def sizeofMachO : ℕ := 32

def magic64 : UInt32 := 0xfeedfacf

def isMagicGood (mem : Bytes) (macho : ℕ) : Exec Bool := do return (← loadU32 mem macho) == magic64

def lcCbegin (macho : ℕ) : ℕ := macho + sizeofMachO

/-- `sizeofcmds`. -/
def lcSizeof (mem : Bytes) (macho : ℕ) : Exec UInt32 := loadU32 mem (macho + 20)

def lcCend (mem : Bytes) (macho : ℕ) : Exec ℕ := do
  return macho + sizeofMachO + (← lcSizeof mem macho).toNat

def loadCommands (mem : Bytes) (macho : ℕ) : Exec (Range Fault ℕ ℕ) := do
  return ⟨lcCbegin macho, LoadCommand.cursor mem (← lcCend mem macho)⟩

def hasType (mem : Bytes) (type : UInt32) (lc : ℕ) : Exec Bool := do
  return (← LoadCommand.cmd mem lc) == type

def segmentLoadCommands (mem : Bytes) (macho : ℕ) : Exec (Range Fault ℕ ℕ) := do
  (← loadCommands mem macho).filter (hasType mem LoadCommandType.segment64) mem.length

def segments (mem : Bytes) (macho : ℕ) : Exec (Range Fault ℕ ℕ) := do
  return (← segmentLoadCommands mem macho).transform fun segLC => .ok (LoadCommand.subcmd segLC)

def segmentWithName (mem : Bytes) (macho : ℕ) (name : Bytes) : Exec (Option ℕ) := do
  (← segments mem macho).findIfOrNull
    (fun segCmd => do return (← SegmentCommand.name mem segCmd) == name) mem.length

/-- The first load command of a type, past its header. -/
def subcmdOfType (mem : Bytes) (macho : ℕ) (type : UInt32) : Exec (Option ℕ) := do
  match ← (← loadCommands mem macho).findIfOrNull (hasType mem type) mem.length with
  | none => return none
  | some lc => return some (LoadCommand.subcmd lc)

def symtab (mem : Bytes) (macho : ℕ) : Exec (Option ℕ) :=
  subcmdOfType mem macho LoadCommandType.symtab

def dysymtab (mem : Bytes) (macho : ℕ) : Exec (Option ℕ) :=
  subcmdOfType mem macho LoadCommandType.dysymtab

def functionStartsCommand (mem : Bytes) (macho : ℕ) : Exec (Option ℕ) :=
  subcmdOfType mem macho LoadCommandType.functionStarts

def unixThread (mem : Bytes) (macho : ℕ) : Exec (Option ℕ) :=
  subcmdOfType mem macho LoadCommandType.unixThread

end MachO

/-! ### Laid out commands -/

/-- The number of a load command and what is behind its header. -/
structure Command where
  cmd : UInt32
  payload : Bytes
  deriving DecidableEq, Repr

namespace Command

def cmdsize (c : Command) : ℕ := LoadCommand.sizeofLoadCommand + c.payload.length

def bytes (c : Command) : Bytes := leBytes 4 c.cmd.toNat ++ leBytes 4 c.cmdsize ++ c.payload

theorem cmdsize_pos (c : Command) : 0 < c.cmdsize :=
  Nat.lt_of_lt_of_le (by decide) (Nat.le_add_right _ _)

theorem length_bytes (c : Command) : c.bytes.length = c.cmdsize := by
  simp only [bytes, List.length_append, length_leBytes, cmdsize, LoadCommand.sizeofLoadCommand]

/-- The segment name field, up to its first NUL if it has one. -/
def segname (c : Command) : Bytes := untilNul (c.payload.take 16)

/-- A segment has all the fields of one. -/
def SegmentOk (c : Command) : Prop := c.cmd = LoadCommandType.segment64 → 64 ≤ c.payload.length

instance (c : Command) : Decidable c.SegmentOk :=
  inferInstanceAs (Decidable (_ → _))

variable {mem : Bytes} {p : ℕ} {c : Command}

theorem cmd_eq (h : At mem p c.bytes) : LoadCommand.cmd mem p = .ok c.cmd := by
  simp only [bytes, at_append] at h
  rw [LoadCommand.cmd, loadU32_of_at h.1.1, UInt32.ofNat_toNat]

theorem cmdsize_eq (h : At mem p c.bytes) :
    LoadCommand.cmdsize mem p = .ok (UInt32.ofNat c.cmdsize) := by
  simp only [bytes, at_append, length_leBytes] at h
  exact loadU32_of_at h.1.2

theorem at_payload (h : At mem p c.bytes) : At mem (LoadCommand.subcmd p) c.payload := by
  simp only [bytes, at_append, List.length_append, length_leBytes] at h
  exact h.2

end Command

/-- A buffer that holds `n` bytes reads as these up to the first NUL, or all of them. -/
theorem readMaybeNullTermCString_eq {mem bs : Bytes} {p n : ℕ} (h : At mem p bs) (hn : 0 < n)
    (hlen : n ≤ bs.length) :
    readMaybeNullTermCString mem (some p) n = .ok (untilNul (bs.take n)) := by
  have hbuf : At mem p (bs.take n) := (List.take_prefix n bs).trans h
  have hbufLen : (bs.take n).length = n := List.length_take_of_le hlen
  have hne : bs.take n ≠ [] := List.ne_nil_of_length_pos (by omega)
  have htake : (mem.drop p).take n = bs.take n := by
    have htd := hbuf.take_drop
    rwa [hbufLen] at htd
  have hin := hbuf.length_le hne
  rw [hbufLen] at hin
  unfold readMaybeNullTermCString memchrNul
  dsimp only
  rw [htake]
  by_cases h0 : (0 : UInt8) ∈ bs.take n
  · simp only [h0, if_true, ok_bind]
    exact cstr_of_at hbuf h0
  · simp only [h0, if_false, hin, if_true, ok_bind, Bool.false_eq_true]
    rw [load_of_at hbuf hbufLen.symm hne, untilNul, List.takeWhile_eq_self_iff.mpr]
    intro b hb
    exact decide_eq_true fun hb0 => h0 (hb0 ▸ hb)

namespace MachO

/-- The commands behind a header at `macho`, each with its offset. -/
def commandsAt (macho : ℕ) (cmds : List Command) : List (ℕ × Command) :=
  locate Command.cmdsize (lcCbegin macho) cmds

/-- The first command of a type. -/
def firstOfType (macho : ℕ) (cmds : List Command) (type : UInt32) : Option ℕ :=
  ((commandsAt macho cmds).find? fun c => c.2.cmd == type).map fun c => LoadCommand.subcmd c.1

/-- The header at `macho` counts the bytes of the commands, and these are behind it. -/
structure CommandTable (mem : Bytes) (macho : ℕ) (cmds : List Command) : Prop where
  sizeofcmds : At mem (macho + 20) (leBytes 4 (cmds.flatMap Command.bytes).length)
  commands : At mem (lcCbegin macho) (cmds.flatMap Command.bytes)
  length_lt : (cmds.flatMap Command.bytes).length < 2 ^ 32

theorem mem_of_mem_commandsAt {macho : ℕ} {cmds : List Command} {c : ℕ × Command}
    (hc : c ∈ commandsAt macho cmds) : c.2 ∈ cmds := by
  rw [← map_snd_locate Command.cmdsize (lcCbegin macho) cmds]
  exact List.mem_map_of_mem hc

/-- A walk over records that each store their size stops at each of them, up to the end of the
last one. -/
theorem visits_locate {α : Type} {len : α → ℕ} {mem : Bytes} {o : ℕ} {xs : List α}
    (hsz : ∀ x ∈ locate len o xs, 0 < len x.2 ∧
      LoadCommand.cmdsize mem x.1 = .ok (UInt32.ofNat (len x.2)))
    (hlt : (xs.map len).sum < 2 ^ 32) :
    (LoadCommand.cursor mem (o + (xs.map len).sum)).Visits o ((locate len o xs).map Prod.fst) := by
  induction xs generalizing o with
  | nil => exact .nil (by simp [LoadCommand.cursor])
  | cons x xs ih =>
    rw [locate_cons, List.forall_mem_cons] at hsz
    rw [List.map_cons, List.sum_cons] at hlt ⊢
    obtain ⟨hpos, hcmdsize⟩ := hsz.1
    dsimp only at hpos hcmdsize
    have hrest := ih hsz.2 (by omega)
    rw [Nat.add_assoc] at hrest
    refine .cons ?_ rfl ?_ hrest
    · simp only [LoadCommand.cursor]
      congr 1
      exact beq_false_of_ne (by omega)
    · simp only [LoadCommand.cursor, hcmdsize, ok_bind, pure_eq_ok]
      rw [u32_toNat_ofNat (by omega)]

namespace CommandTable
variable {mem : Bytes} {macho : ℕ} {cmds : List Command}

theorem at_bytes (h : CommandTable mem macho cmds) :
    ∀ c ∈ commandsAt macho cmds, At mem c.1 c.2.bytes :=
  locate_at Command.cmdsize Command.length_bytes h.commands

theorem loadCommands_eq (h : CommandTable mem macho cmds) :
    ∃ r, loadCommands mem macho = .ok r ∧ r.Sees ((commandsAt macho cmds).map Prod.fst) := by
  have hlen := length_flatMap_enc Command.cmdsize Command.length_bytes cmds
  have hlt := h.length_lt
  have hv : (LoadCommand.cursor mem (lcCbegin macho + (cmds.map Command.cmdsize).sum)).Visits
      (lcCbegin macho) ((commandsAt macho cmds).map Prod.fst) :=
    visits_locate (fun c hc => ⟨c.2.cmdsize_pos, Command.cmdsize_eq (h.at_bytes c hc)⟩) (by omega)
  rw [← hlen] at hv
  refine ⟨⟨lcCbegin macho, _⟩, ?_, hv⟩
  rw [loadCommands, lcCend, lcSizeof, loadU32_of_at h.sizeofcmds]
  simp only [ok_bind, pure_eq_ok]
  rw [u32_toNat_ofNat hlt]
  rfl

/-- No more commands than bytes. -/
theorem length_le (h : CommandTable mem macho cmds) :
    (commandsAt macho cmds).length ≤ mem.length := by
  have hlen := length_flatMap_enc Command.cmdsize Command.length_bytes cmds
  have hcount := length_le_sum Command.cmdsize Command.cmdsize_pos cmds
  have hin := List.IsPrefix.length_le h.commands
  rw [List.length_drop] at hin
  rw [commandsAt, length_locate]
  omega

theorem hasType_eq (h : CommandTable mem macho cmds) (type : UInt32) :
    ∀ c ∈ commandsAt macho cmds, hasType mem type c.1 = .ok (c.2.cmd == type) := by
  intro c hc
  rw [hasType, Command.cmd_eq (h.at_bytes c hc)]
  rfl

theorem subcmdOfType_eq (h : CommandTable mem macho cmds) (type : UInt32) :
    subcmdOfType mem macho type = .ok (firstOfType macho cmds type) := by
  obtain ⟨r, hr, hs⟩ := h.loadCommands_eq
  unfold subcmdOfType firstOfType
  rw [hr, ok_bind, hs.findIfOrNull (h.hasType_eq type) h.length_le, ok_bind]
  cases (commandsAt macho cmds).find? fun c => c.2.cmd == type with
  | none => rfl
  | some c => rfl

theorem segments_eq (h : CommandTable mem macho cmds) :
    ∃ r, segments mem macho = .ok r ∧
      r.Sees (((commandsAt macho cmds).filter fun c =>
        c.2.cmd == LoadCommandType.segment64).map fun c => LoadCommand.subcmd c.1) := by
  obtain ⟨r, hr, hs⟩ := h.loadCommands_eq
  obtain ⟨r', hr', hs'⟩ := hs.filter (h.hasType_eq LoadCommandType.segment64) h.length_le
  refine ⟨_, ?_, hs'.transform (f := fun segLC => .ok (LoadCommand.subcmd segLC)) fun _ _ => rfl⟩
  rw [segments, segmentLoadCommands, hr, ok_bind, hr', ok_bind, pure_eq_ok]

theorem segmentWithName_eq (h : CommandTable mem macho cmds) (hok : ∀ c ∈ cmds, c.SegmentOk)
    (name : Bytes) : segmentWithName mem macho name =
      .ok (((commandsAt macho cmds).find? fun c =>
        c.2.cmd == LoadCommandType.segment64 && c.2.segname == name).map
          fun c => LoadCommand.subcmd c.1) := by
  obtain ⟨r, hr, hs⟩ := h.segments_eq
  unfold segmentWithName
  rw [hr, ok_bind, hs.findIfOrNull (q := fun c => c.2.segname == name) ?_ ?_, List.find?_filter]
  · simp only [Bool.decide_and, Bool.decide_eq_true]
  · intro c hc
    obtain ⟨hc, htype⟩ := List.mem_filter.mp hc
    have hlen := hok _ (mem_of_mem_commandsAt hc) (eq_of_beq htype)
    rw [SegmentCommand.name, readMaybeNullTermCString_eq (Command.at_payload (h.at_bytes c hc))
      (by decide) (by omega)]
    rfl
  · exact (List.length_filter_le _ _).trans h.length_le

end CommandTable

/-! ### What the accessors return -/

/-- The commands a walk over `loadCommands()` stops at. -/
def loadCommandsVisited (mem : Bytes) (macho : ℕ) : Exec (List ℕ) := do
  (← loadCommands mem macho).elements mem.length

/-- The segments a walk over `segments()` stops at. -/
def segmentsVisited (mem : Bytes) (macho : ℕ) : Exec (List ℕ) := do
  (← segments mem macho).elements mem.length

/-- The load command at `lc` is the given one. -/
def Reports (mem : Bytes) (lc : ℕ) (c : Command) : Prop :=
  LoadCommand.cmd mem lc = .ok c.cmd ∧
    LoadCommand.cmdsize mem lc = .ok (UInt32.ofNat c.cmdsize) ∧
    At mem (LoadCommand.subcmd lc) c.payload

/-- The header at `macho` has exactly the commands `cmds`: in a walk, by their segments, and in
lookups by name and type. -/
structure HasCommands (mem : Bytes) (macho : ℕ) (cmds : List Command) : Prop where
  visited : loadCommandsVisited mem macho = .ok ((commandsAt macho cmds).map Prod.fst)
  reports : ∀ c ∈ commandsAt macho cmds, Reports mem c.1 c.2
  segments : segmentsVisited mem macho =
    .ok (((commandsAt macho cmds).filter fun c => c.2.cmd == LoadCommandType.segment64).map
      fun c => LoadCommand.subcmd c.1)
  segmentWithName : ∀ name, segmentWithName mem macho name =
    .ok (((commandsAt macho cmds).find? fun c =>
      c.2.cmd == LoadCommandType.segment64 && c.2.segname == name).map
        fun c => LoadCommand.subcmd c.1)
  symtab : symtab mem macho = .ok (firstOfType macho cmds LoadCommandType.symtab)
  dysymtab : dysymtab mem macho = .ok (firstOfType macho cmds LoadCommandType.dysymtab)
  functionStartsCommand : functionStartsCommand mem macho =
    .ok (firstOfType macho cmds LoadCommandType.functionStarts)
  unixThread : unixThread mem macho = .ok (firstOfType macho cmds LoadCommandType.unixThread)

theorem hasCommands {mem : Bytes} {macho : ℕ} {cmds : List Command}
    (h : CommandTable mem macho cmds) (hok : ∀ c ∈ cmds, c.SegmentOk) :
    HasCommands mem macho cmds where
  visited := by
    obtain ⟨r, hr, hs⟩ := h.loadCommands_eq
    rw [loadCommandsVisited, hr, ok_bind]
    exact hs.elements (by simpa using h.length_le)
  reports c hc :=
    have hb := h.at_bytes c hc
    ⟨Command.cmd_eq hb, Command.cmdsize_eq hb, Command.at_payload hb⟩
  segments := by
    obtain ⟨r, hr, hs⟩ := h.segments_eq
    rw [segmentsVisited, hr, ok_bind]
    apply hs.elements
    rw [List.length_map]
    exact (List.length_filter_le _ _).trans h.length_le
  segmentWithName := h.segmentWithName_eq hok
  symtab := h.subcmdOfType_eq _
  dysymtab := h.subcmdOfType_eq _
  functionStartsCommand := h.subcmdOfType_eq _
  unixThread := h.subcmdOfType_eq _

/-- A header, as far as the walk looks at it. -/
def headerBytes (sizeofcmds : ℕ) : Bytes :=
  leBytes 4 magic64.toNat ++ List.replicate 16 0 ++ leBytes 4 sizeofcmds ++ List.replicate 8 0

theorem length_in_headerBytes (n : ℕ) : ((headerBytes n).drop 20).take 4 = leBytes 4 n := by
  rw [headerBytes, List.append_assoc, List.drop_left' (by simp), List.take_left' (by simp)]

/-- A header with commands behind it is one with these commands. -/
theorem commandTable_headerBytes {cmds : List Command}
    (hlt : (cmds.flatMap Command.bytes).length < 2 ^ 32) (rest : Bytes) :
    CommandTable (headerBytes (cmds.flatMap Command.bytes).length ++
      cmds.flatMap Command.bytes ++ rest) 0 cmds := by
  have hall := at_zero (headerBytes (cmds.flatMap Command.bytes).length ++
    cmds.flatMap Command.bytes) rest
  rw [at_append] at hall
  obtain ⟨hheader, hcmds⟩ := hall
  have hlen : (headerBytes (cmds.flatMap Command.bytes).length).length = lcCbegin 0 := by
    simp [headerBytes, lcCbegin, sizeofMachO]
  rw [hlen, Nat.zero_add] at hcmds
  have hsize := hheader.sub 20 4
  rw [length_in_headerBytes] at hsize
  exact ⟨hsize, hcmds, hlt⟩

/-- A symbol table before a segment whose name fills its field. -/
def symtabThenSegment : List Command :=
  [⟨LoadCommandType.symtab, List.replicate 16 0⟩,
    ⟨LoadCommandType.segment64, List.replicate 16 0x41 ++ List.replicate 48 0⟩]

theorem hasCommands_symtabThenSegment :
    HasCommands (headerBytes 96 ++ symtabThenSegment.flatMap Command.bytes) 0
      symtabThenSegment := by
  refine hasCommands ⟨?_, ?_, ?_⟩ ?_
  all_goals decide

end MachO
end JevMachO

import JevMachO.MachO.SymbolTable
import Mathlib.Data.List.Forall2

/-! The lines that `dump_macho` prints for a Mach-O in a build without `USE_FMT`, and what it prints
for one whose commands, symbols, strings and indirect symbols are laid out: what is in them. -/
namespace JevMachO
open Lib

def LoadCommandType.filesetEntry : UInt32 := 0x80000035

namespace DySymtabCommand

def iundefsym (mem : Bytes) (dysymtab : ℕ) : Exec UInt32 := loadU32 mem (dysymtab + 16)

def nundefsym (mem : Bytes) (dysymtab : ℕ) : Exec UInt32 := loadU32 mem (dysymtab + 20)

end DySymtabCommand

namespace FilesetEntryCommand

def vmaddr (mem : Bytes) (fse : ℕ) : Exec UInt64 := loadU64 mem fse

def fileoff (mem : Bytes) (fse : ℕ) : Exec UInt64 := loadU64 mem (fse + 8)

/-- `name()`, a pointer. -/
def name (mem : Bytes) (fse : ℕ) : Exec ℕ := do
  return LoadSubCommand.loadCommand fse + (← loadU32 mem (fse + 16)).toNat

end FilesetEntryCommand

/-- The lines of one dump in the order of its loops, without their numbers: the address and type
of each load command, the name and library of each undefined symbol (or the null pointer), the
name of each indirect one, and the addresses and name of each fileset entry. -/
structure MachODump where
  loadCommands : List (ℕ × UInt32)
  undefSyms : List (Bytes × Option Bytes)
  indirectSyms : List Bytes
  filesetEntries : List (UInt64 × UInt64 × Bytes)
  deriving DecidableEq, Repr

namespace MachO

/-- The undefined symbols, by their addresses. An end in front of the beginning makes a span that
reaches out of the memory. -/
def undefSyms (mem : Bytes) (macho : ℕ) : Exec (List ℕ) := do
  match ← symtab mem macho, ← dysymtab mem macho with
  | some symtab, some dysymtab =>
    let nlists := macho + (← loadU32 mem symtab).toNat
    let iundefsym ← DySymtabCommand.iundefsym mem dysymtab
    let nundefsym ← DySymtabCommand.nundefsym mem dysymtab
    if (iundefsym + nundefsym).toNat < iundefsym.toNat then throw .outOfBounds
    return (List.range ((iundefsym + nundefsym).toNat - iundefsym.toNat)).map fun i =>
      nlists + NList.sizeofNList * (iundefsym.toNat + i)
  | _, _ => return []

def filesetEntryCommands (mem : Bytes) (macho : ℕ) : Exec (Range Fault ℕ ℕ) := do
  let lcs ← (← loadCommands mem macho).filter (hasType mem LoadCommandType.filesetEntry) mem.length
  return lcs.transform fun fseLC => .ok (LoadCommand.subcmd fseLC)

/-- A loop that prints a line for each element. -/
def printEach {σ α β : Type} (c : Cursor Fault σ α) (line : α → Exec β) (n : ℕ) (s : σ) :
    Exec (List β) :=
  c.accumulate (fun lines a => do return lines ++ [← line a]) n s []

/-- A `const char *` as `%s` prints it. -/
def printed (mem : Bytes) : Option ℕ → Exec (Option Bytes)
  | none => .ok none
  | some ptr => do return some (← cstr mem ptr)

/-- The two loops over symbols. -/
def dumpSyms (mem : Bytes) (macho symtab : ℕ) :
    Exec (List (Bytes × Option Bytes) × List Bytes) := do
  let dylibNames ← dylibNamesMap mem macho
  let undefs ← (← undefSyms mem macho).mapM fun ptr => do
    let nl ← NList.read mem ptr
    let name ← nl.name mem macho symtab
    return (name, ← printed mem (← nl.dylibName dylibNames))
  let (size, syms) ← indirectSyms mem macho symtab
  return (undefs, ← printEach syms (fun nl => nl.name mem macho symtab) size 0)

/-- The part of the dump that needs a symbol table. -/
def dumpSymtab (mem : Bytes) (macho : ℕ) : Exec (List (Bytes × Option Bytes) × List Bytes) := do
  match ← symtab mem macho with
  | none => return ([], [])
  | some symtab => dumpSyms mem macho symtab

/-- `dump_macho` without `USE_FMT`, which would also format the whole Mach-O at first. It prints
nothing more when the magic is bad. -/
def dumpMacho (mem : Bytes) (macho : ℕ) : Exec (Option MachODump) := do
  if !(← isMagicGood mem macho) then return none
  let lcs ← loadCommands mem macho
  let loadCommands ← printEach lcs.cursor
    (fun lc => do return (lc, ← LoadCommand.cmd mem lc)) mem.length lcs.first
  let syms ← dumpSymtab mem macho
  let fses ← filesetEntryCommands mem macho
  let filesetEntries ← printEach fses.cursor
    (fun fse => do
      let vmaddr ← FilesetEntryCommand.vmaddr mem fse
      let fileoff ← FilesetEntryCommand.fileoff mem fse
      return (vmaddr, fileoff, ← cstr mem (← FilesetEntryCommand.name mem fse)))
    mem.length fses.first
  return some ⟨loadCommands, syms.1, syms.2, filesetEntries⟩

end MachO

/-! ### What is in a Mach-O -/

/-- The entry of a symbol in the table. -/
def NList.bytes (nl : NList) : Bytes :=
  leBytes 4 nl.strx.toNat ++ [nl.type] ++ [nl.sect] ++ leBytes 2 nl.desc.toNat ++
    leBytes 8 nl.value.toNat

/-- The number of the symbol that an entry of the indirect symbols is about. -/
def NList.indirectIdx (idxRaw : UInt32) : ℕ :=
  (if idxRaw &&& indirectSymbolLocal ≠ 0 then
    idxRaw &&& ~~~(indirectSymbolLocal ||| indirectSymbolAbs) else idxRaw).toNat

/-- The library ordinal of an undefined symbol. -/
def NList.ordinal (nl : NList) : ℕ := ((nl.desc >>> 8) &&& 0xff).toUInt8.toNat

namespace Command

/-- The library's name. -/
def dylibName (c : Command) : Bytes := untilNul (c.bytes.drop c.nameOffset)

def filesetNameOffset (c : Command) : ℕ := ofLE ((c.payload.drop 16).take 4)

/-- The entry's address, its offset in the file, and its name. -/
def filesetEntry (c : Command) : UInt64 × UInt64 × Bytes :=
  (UInt64.ofNat (ofLE (c.payload.take 8)), UInt64.ofNat (ofLE ((c.payload.drop 8).take 8)),
    untilNul (c.bytes.drop c.filesetNameOffset))

/-- The names of imported libraries and of fileset entries end inside their commands. -/
structure NamesOk (c : Command) : Prop where
  dylib : isImportedDylib c.cmd = true → (0 : UInt8) ∈ c.bytes.drop c.nameOffset
  fileset : c.cmd = LoadCommandType.filesetEntry →
    24 ≤ c.payload.length ∧ (0 : UInt8) ∈ c.bytes.drop c.filesetNameOffset

end Command

/-- The commands, the symbols with their names, which of them are undefined, and the indirect
symbols. -/
structure MachOContents where
  cmds : List Command
  syms : List (NList × Bytes)
  iundefsym : ℕ
  nundefsym : ℕ
  indirect : List UInt32

namespace MachOContents

def undef (m : MachOContents) : List (NList × Bytes) := (m.syms.drop m.iundefsym).take m.nundefsym

def indirectSyms (m : MachOContents) : List (NList × Bytes) :=
  m.indirect.filterMap fun idx => m.syms[NList.indirectIdx idx]?

/-- The names of the imported libraries. -/
def dylibs (m : MachOContents) : List Bytes :=
  (m.cmds.filter fun c => isImportedDylib c.cmd).map Command.dylibName

/-- The lines for these contents behind a header at `macho`. -/
def dump (m : MachOContents) (macho : ℕ) : MachODump where
  loadCommands := (MachO.commandsAt macho m.cmds).map fun c => (c.1, c.2.cmd)
  undefSyms := m.undef.map fun s => (s.2, m.dylibs[s.1.ordinal - 1]?)
  indirectSyms := m.indirectSyms.map Prod.snd
  filesetEntries := (m.cmds.filter fun c => c.cmd == LoadCommandType.filesetEntry).map
    Command.filesetEntry

end MachOContents

/-- A symbol table with these symbols, each of which has its name in the string table. -/
structure SymtabLaid (mem : Bytes) (macho symtab : ℕ) (syms : List (NList × Bytes)) : Prop where
  nlists : ∃ symoff nsyms : UInt32, loadU32 mem symtab = .ok symoff ∧
    loadU32 mem (symtab + 4) = .ok nsyms ∧ nsyms.toNat = syms.length ∧
    At mem (macho + symoff.toNat) (syms.flatMap fun s => s.1.bytes)
  strings : ∃ (stroff : UInt32) (strs : List Bytes), loadU32 mem (symtab + 8) = .ok stroff ∧
    At mem (macho + stroff.toNat) (strtab strs) ∧ (∀ s ∈ strs, (0 : UInt8) ∉ s) ∧
    ∀ s ∈ syms, (s.1.strx.toNat, s.2) ∈ strtabAt 0 strs

/-- The numbers of a dynamic symbol table, and its indirect symbols. -/
structure DysymtabLaid (mem : Bytes) (macho dysymtab : ℕ) (m : MachOContents) : Prop where
  iundefsym : DySymtabCommand.iundefsym mem dysymtab = .ok (UInt32.ofNat m.iundefsym)
  nundefsym : DySymtabCommand.nundefsym mem dysymtab = .ok (UInt32.ofNat m.nundefsym)
  indirect : ∃ indirectsymoff nindirectsyms : UInt32,
    loadU32 mem (dysymtab + 48) = .ok indirectsymoff ∧
    loadU32 mem (dysymtab + 52) = .ok nindirectsyms ∧
    nindirectsyms.toNat = m.indirect.length ∧
    At mem (macho + indirectsymoff.toNat) (m.indirect.flatMap fun idx => leBytes 4 idx.toNat)

/-- The header at `macho` and what it leads to are a Mach-O with these contents. -/
structure MachOContents.Laid (m : MachOContents) (mem : Bytes) (macho : ℕ) : Prop where
  magic : At mem macho (leBytes 4 MachO.magic64.toNat)
  commands : MachO.CommandTable mem macho m.cmds
  dylibsOk : ∀ c ∈ m.cmds, c.DylibOk
  namesOk : ∀ c ∈ m.cmds, c.NamesOk
  dylibs_le : m.dylibs.length ≤ 255
  symtab : ∀ symtab, MachO.firstOfType macho m.cmds LoadCommandType.symtab = some symtab →
    SymtabLaid mem macho symtab m.syms
  dysymtab : ∀ dysymtab, MachO.firstOfType macho m.cmds LoadCommandType.dysymtab = some dysymtab →
    DysymtabLaid mem macho dysymtab m
  without : MachO.firstOfType macho m.cmds LoadCommandType.symtab = none ∨
    MachO.firstOfType macho m.cmds LoadCommandType.dysymtab = none →
      m.nundefsym = 0 ∧ m.indirect = []
  undef_le : m.iundefsym + m.nundefsym ≤ m.syms.length
  undef : ∀ s ∈ m.undef,
    s.1.type &&& NList.nType = NList.nUndf ∧ s.1.sect = NList.noSect ∧ s.1.ordinal ≠ 0
  indirect_lt : ∀ idx ∈ m.indirect, NList.indirectIdx idx < m.syms.length

/-! ### Symbols -/

theorem NList.length_bytes (nl : NList) : nl.bytes.length = NList.sizeofNList := by
  simp [NList.bytes, NList.sizeofNList]

theorem NList.read_eq {mem : Bytes} {p : ℕ} {nl : NList} (h : At mem p nl.bytes) :
    NList.read mem p = .ok nl := by
  simp only [NList.bytes, at_append, List.length_append, length_leBytes, List.length_singleton]
    at h
  obtain ⟨⟨⟨⟨hstrx, htype⟩, hsect⟩, hdesc⟩, hvalue⟩ := h
  have htype' := load_of_at htype (n := 1) rfl (List.cons_ne_nil _ _)
  have hsect' := load_of_at hsect (n := 1) rfl (List.cons_ne_nil _ _)
  have hdesc' := load_of_at hdesc (n := 2) (by simp) (by simp [leBytes])
  have hstrx' := loadU32_of_at hstrx
  have hvalue' := loadU64_of_at hvalue
  have hbyte : ∀ b : UInt8, UInt8.ofNat (ofLE [b]) = b := fun b => by simp [ofLE]
  have hword : nl.desc.toNat % 256 ^ 2 = nl.desc.toNat := Nat.mod_eq_of_lt nl.desc.toNat_lt
  simp only [NList.read, hstrx', htype', hsect', hdesc', hvalue', ok_bind, pure_eq_ok,
    ofLE_leBytes, hbyte, hword, UInt32.ofNat_toNat, UInt64.ofNat_toNat, UInt16.ofNat_toNat]

section symtab
variable {mem : Bytes} {macho symtab : ℕ} {syms : List (NList × Bytes)} {s : NList × Bytes}

/-- The symbol at an index, by its address. -/
theorem SymtabLaid.read_eq (h : SymtabLaid mem macho symtab syms) {symoff : UInt32}
    (hsymoff : loadU32 mem symtab = .ok symoff) {i : ℕ} (hs : syms[i]? = some s) :
    NList.read mem (macho + symoff.toNat + NList.sizeofNList * i) = .ok s.1 := by
  obtain ⟨symoff', nsyms, hsymoff', -, -, hat⟩ := h.nlists
  obtain rfl := Except.ok.inj (hsymoff.symm.trans hsymoff')
  have henc : ∀ s : NList × Bytes, s.1.bytes.length = NList.sizeofNList :=
    fun s => NList.length_bytes s.1
  have hentry := at_flatMap_getElem? henc hat hs
  exact NList.read_eq hentry

theorem SymtabLaid.nlist_eq (h : SymtabLaid mem macho symtab syms) {i : ℕ}
    (hs : syms[i]? = some s) : SymtabCommand.nlist mem macho symtab i = .ok s.1 := by
  obtain ⟨symoff, nsyms, hsymoff, hnsyms, hlen, -⟩ := h.nlists
  have hlt : ¬nsyms.toNat ≤ i := by
    rw [hlen]
    exact not_le.mpr (List.getElem?_eq_some_iff.mp hs).1
  rw [SymtabCommand.nlist, hnsyms, ok_bind, if_neg hlt]
  simp only [hsymoff, ok_bind]
  exact h.read_eq hsymoff hs

theorem SymtabLaid.name_eq (h : SymtabLaid mem macho symtab syms) (hs : s ∈ syms) :
    s.1.name mem macho symtab = .ok s.2 := by
  obtain ⟨stroff, strs, hstroff, hat, h0, hstrx⟩ := h.strings
  have hmem : (macho + stroff.toNat + s.1.strx.toNat, s.2) ∈
      strtabAt (macho + stroff.toNat) strs := by
    rw [← Nat.add_zero (macho + stroff.toNat), strtabAt_add]
    exact List.mem_map_of_mem (hstrx s hs)
  rw [NList.name, SymtabCommand.strtabData, hstroff]
  exact cstr_strtabAt hat h0 _ hmem

end symtab

/-! ### The loops -/

theorem printEach_eq {σ α β γ : Type} {c : Cursor Fault σ α} {φ : γ → α} {xs : List γ} {s : σ}
    {f : α → Exec β} {g : γ → β} (h : c.Visits s (xs.map φ))
    (hline : ∀ x ∈ xs, f (φ x) = .ok (g x)) {n : ℕ} (hn : xs.length ≤ n) :
    MachO.printEach c f n s = .ok (xs.map g) := by
  unfold MachO.printEach
  rw [h.accumulate _ n (by simpa using hn), List.foldlM_map, foldlM_append_eq_ok hline []]
  rfl

namespace Command
variable {mem : Bytes} {p : ℕ} {c : Command}

/-- A name that ends inside its command. -/
theorem cstr_eq (h : At mem p c.bytes) {o : ℕ} (h0 : (0 : UInt8) ∈ c.bytes.drop o) :
    cstr mem (p + o) = .ok (untilNul (c.bytes.drop o)) := by
  have hat := h.sub o (c.bytes.drop o).length
  rw [List.take_length] at hat
  exact cstr_of_at hat h0

theorem filesetEntry_eq (h : At mem p c.bytes) (hok : c.NamesOk)
    (hcmd : c.cmd = LoadCommandType.filesetEntry) :
    (do
      let vmaddr ← FilesetEntryCommand.vmaddr mem (LoadCommand.subcmd p)
      let fileoff ← FilesetEntryCommand.fileoff mem (LoadCommand.subcmd p)
      let name ← FilesetEntryCommand.name mem (LoadCommand.subcmd p)
      return (vmaddr, fileoff, ← cstr mem name)) = (.ok c.filesetEntry : Exec _) := by
  obtain ⟨hlen, h0⟩ := hok.fileset hcmd
  have hpay := at_payload h
  have hfield : ∀ o n, o + n ≤ 24 → 0 < n →
      load mem (LoadCommand.subcmd p + o) n = .ok ((c.payload.drop o).take n) := by
    intro o n hle hn
    have hl : ((c.payload.drop o).take n).length = n := by
      rw [List.length_take, List.length_drop]
      omega
    exact load_of_at (hpay.sub o n) hl.symm (List.ne_nil_of_length_pos (by omega))
  have hvmaddr := hfield 0 8 (by decide) (by decide)
  have hfileoff := hfield 8 8 (by decide) (by decide)
  have hname := hfield 16 4 (by decide) (by decide)
  have hlt : c.filesetNameOffset < 2 ^ 32 := by
    have hbound := ofLE_lt ((c.payload.drop 16).take 4)
    have hle := Nat.pow_le_pow_right (show 0 < 256 by decide)
      (List.length_take_le 4 (c.payload.drop 16))
    exact hbound.trans_le hle
  have hptr : FilesetEntryCommand.name mem (LoadCommand.subcmd p) =
      .ok (p + c.filesetNameOffset) := by
    rw [FilesetEntryCommand.name, loadU32, hname]
    simp only [ok_bind, pure_eq_ok, LoadSubCommand.loadCommand, LoadCommand.subcmd,
      Nat.add_sub_cancel]
    rw [← filesetNameOffset, u32_toNat_ofNat hlt]
  rw [Nat.add_zero] at hvmaddr
  simp only [FilesetEntryCommand.vmaddr, FilesetEntryCommand.fileoff, loadU64, hvmaddr, hfileoff,
    hptr, cstr_eq h h0, ok_bind, pure_eq_ok, filesetEntry, List.drop_zero]

end Command

/-! ### The dump -/

namespace MachOContents.Laid
variable {m : MachOContents} {mem : Bytes} {macho : ℕ}

/-- The undefined symbols' addresses are those of a part of the table. -/
theorem undefSyms_eq (h : m.Laid mem macho) {symtab dysymtab : ℕ} {symoff : UInt32}
    (hsymtab : MachO.firstOfType macho m.cmds LoadCommandType.symtab = some symtab)
    (hdysymtab : MachO.firstOfType macho m.cmds LoadCommandType.dysymtab = some dysymtab)
    (hsymoff : loadU32 mem symtab = .ok symoff) :
    MachO.undefSyms mem macho = .ok ((List.range m.nundefsym).map fun i =>
      macho + symoff.toNat + NList.sizeofNList * (m.iundefsym + i)) := by
  have hdy := h.dysymtab dysymtab hdysymtab
  obtain ⟨_, nsyms, -, -, hlen, -⟩ := (h.symtab symtab hsymtab).nlists
  have hle := h.undef_le
  have hlt := nsyms.toNat_lt
  have hfirst : (UInt32.ofNat m.iundefsym).toNat = m.iundefsym := u32_toNat_ofNat (by omega)
  have hlast : (UInt32.ofNat m.iundefsym + UInt32.ofNat m.nundefsym).toNat =
      m.iundefsym + m.nundefsym := by
    rw [UInt32.toNat_add, hfirst, u32_toNat_ofNat (by omega)]
    exact Nat.mod_eq_of_lt (by omega)
  rw [MachO.undefSyms, MachO.symtab, MachO.dysymtab, h.commands.subcmdOfType_eq,
    h.commands.subcmdOfType_eq, hsymtab, hdysymtab]
  simp only [ok_bind, pure_eq_ok, hsymoff, hdy.iundefsym, hdy.nundefsym, hlast, hfirst]
  rw [if_neg (by omega), Nat.add_sub_cancel_left]

/-- The name of an undefined symbol's library. -/
theorem printed_dylibName (h : m.Laid mem macho) {map : NamesMap (Option ℕ)}
    (hmap : map.toList = (MachO.dylibNames macho m.cmds isImportedDylib).map some ++
      List.replicate (255 - ((MachO.dylibNames macho m.cmds isImportedDylib).map some).length) none)
    {s : NList × Bytes} (hs : s ∈ m.undef) :
    (s.1.dylibName map >>= MachO.printed mem) = .ok m.dylibs[s.1.ordinal - 1]? := by
  obtain ⟨htype, hsect, hord⟩ := h.undef s hs
  have hidx : (((s.1.desc >>> 8) &&& 0xff).toUInt8.toUInt64 - 1).toNat = s.1.ordinal - 1 := by
    have hlt := ((s.1.desc >>> 8) &&& 0xff).toUInt8.toNat_lt
    rw [UInt64.toNat_sub, UInt8.toNat_toUInt64, UInt64.toNat_one]
    unfold NList.ordinal at hord ⊢
    omega
  have hlt : (((s.1.desc >>> 8) &&& 0xff).toUInt8.toUInt64 - 1).toNat < 255 := by
    have hlt := ((s.1.desc >>> 8) &&& 0xff).toUInt8.toNat_lt
    rw [hidx]
    unfold NList.ordinal at hord ⊢
    omega
  have hordinal : s.1.dylibOrdinal = .ok ((s.1.desc >>> 8) &&& 0xff).toUInt8 := by
    simp [NList.dylibOrdinal, htype, hsect]
  rw [NList.dylibName, hordinal, ok_bind, MachO.entry_eq hmap hlt, hidx, ok_bind,
    MachOContents.dylibs, MachO.filter_eq_map_commandsAt macho, MachO.dylibNames]
  simp only [List.getElem?_map]
  cases hc : ((MachO.commandsAt macho m.cmds).filter
      fun c => isImportedDylib c.2.cmd)[s.1.ordinal - 1]? with
  | none => rfl
  | some c =>
    obtain ⟨hmem, hkind⟩ := List.mem_filter.mp (List.mem_of_getElem? hc)
    have hok := h.namesOk c.2 (MachO.mem_of_mem_commandsAt hmem)
    have hname := Command.cstr_eq (h.commands.at_bytes c hmem) (hok.dylib hkind)
    simp [MachO.printed, hname, Command.dylibName]

/-- The walk over the indirect symbols. -/
theorem visits_indirectSyms {symtab : ℕ} (hsyms : SymtabLaid mem macho symtab m.syms)
    (h : ∀ idx ∈ m.indirect, NList.indirectIdx idx < m.syms.length) {first : ℕ}
    (hat : At mem first (m.indirect.flatMap fun idx => leBytes 4 idx.toNat))
    {c : Cursor Fault ℕ NList} (hend : ∀ i, c.atEnd i = .ok (i == m.indirect.length))
    (hderef : ∀ i idx, loadU32 mem (first + 4 * i) = .ok idx →
      c.deref i = SymtabCommand.nlist mem macho symtab (NList.indirectIdx idx))
    (hnext : ∀ i, c.next i = .ok (i + 1)) :
    c.Visits 0 (m.indirectSyms.map Prod.fst) := by
  have hfrom : ∀ pre rest, m.indirect = pre ++ rest →
      c.Visits pre.length ((rest.filterMap fun idx =>
        m.syms[NList.indirectIdx idx]?).map Prod.fst) := by
    intro pre rest heq
    induction rest generalizing pre with
    | nil =>
      refine .nil ?_
      rw [hend, heq, List.append_nil, beq_self_eq_true]
    | cons idx rest ih =>
      have hget : m.indirect[pre.length]? = some idx := by
        rw [heq, List.getElem?_append_right (Nat.le_refl _), Nat.sub_self, List.getElem?_cons_zero]
      have hlen : pre.length ≠ m.indirect.length := by
        rw [heq, List.length_append, List.length_cons]
        omega
      have hword := at_flatMap_getElem? (fun idx : UInt32 => length_leBytes 4 idx.toNat) hat hget
      have hload := loadU32_of_at hword
      rw [UInt32.ofNat_toNat] at hload
      obtain ⟨s, hs⟩ : ∃ s, m.syms[NList.indirectIdx idx]? = some s :=
        ⟨_, List.getElem?_eq_getElem (h idx (List.mem_of_getElem? hget))⟩
      have hrest := ih (pre ++ [idx]) (by rw [heq, List.append_assoc]; rfl)
      rw [List.length_append, List.length_singleton] at hrest
      simp only [List.filterMap_cons, hs, List.map_cons]
      refine .cons ?_ ?_ (hnext _) hrest
      · rw [hend, beq_false_of_ne hlen]
      · rw [hderef _ idx hload, hsyms.nlist_eq hs]
  exact hfrom [] m.indirect rfl

theorem printEach_indirectSyms {symtab : ℕ} (hsyms : SymtabLaid mem macho symtab m.syms)
    (h : ∀ idx ∈ m.indirect, NList.indirectIdx idx < m.syms.length) {first : ℕ}
    (hat : At mem first (m.indirect.flatMap fun idx => leBytes 4 idx.toNat))
    {c : Cursor Fault ℕ NList} (hend : ∀ i, c.atEnd i = .ok (i == m.indirect.length))
    (hderef : ∀ i idx, loadU32 mem (first + 4 * i) = .ok idx →
      c.deref i = SymtabCommand.nlist mem macho symtab (NList.indirectIdx idx))
    (hnext : ∀ i, c.next i = .ok (i + 1)) :
    MachO.printEach c (fun nl => nl.name mem macho symtab) m.indirect.length 0 =
      .ok (m.dump macho).indirectSyms := by
  refine printEach_eq (visits_indirectSyms hsyms h hat hend hderef hnext) (fun s hs => ?_)
    (List.length_filterMap_le _ _)
  obtain ⟨idx, -, hidx⟩ := List.mem_filterMap.mp hs
  exact hsyms.name_eq (List.mem_of_getElem? hidx)

theorem dumpSyms_eq (h : m.Laid mem macho) {symtab : ℕ}
    (hsymtab : MachO.firstOfType macho m.cmds LoadCommandType.symtab = some symtab) :
    MachO.dumpSyms mem macho symtab =
      .ok ((m.dump macho).undefSyms, (m.dump macho).indirectSyms) := by
  have hsyms := h.symtab symtab hsymtab
  have hcount : (MachO.dylibNames macho m.cmds isImportedDylib).length ≤ 255 := by
    have hle := h.dylibs_le
    rw [dylibs, MachO.filter_eq_map_commandsAt macho, List.length_map, List.length_map] at hle
    rwa [MachO.dylibNames, List.length_map]
  obtain ⟨map, hbuilt, hmap⟩ := (h.commands.builtOf_dylibNamesMap_iff h.dylibsOk).mpr hcount
  rw [MachO.dumpSyms, hbuilt, ok_bind]
  cases hdysymtab : MachO.firstOfType macho m.cmds LoadCommandType.dysymtab with
  | none =>
    obtain ⟨hundef, hindirect⟩ := h.without (.inr hdysymtab)
    rw [MachO.undefSyms, MachO.indirectSyms, MachO.symtab, MachO.dysymtab,
      h.commands.subcmdOfType_eq, h.commands.subcmdOfType_eq, hsymtab, hdysymtab]
    simp only [ok_bind, pure_eq_ok, dump, MachOContents.undef, indirectSyms, hundef, hindirect,
      List.take_zero, List.filterMap_nil, List.map_nil, List.mapM_nil]
    rfl
  | some dysymtab =>
    obtain ⟨symoff, nsyms, hsymoff, -, -, -⟩ := hsyms.nlists
    obtain ⟨off, n, hoff, hn, hlen, hat⟩ := (h.dysymtab dysymtab hdysymtab).indirect
    have hundef : ((List.range m.nundefsym).map fun i =>
        macho + symoff.toNat + NList.sizeofNList * (m.iundefsym + i)).mapM (fun ptr => do
          let nl ← NList.read mem ptr
          let name ← nl.name mem macho symtab
          return (name, ← MachO.printed mem (← nl.dylibName map))) =
        (.ok (m.dump macho).undefSyms : Exec _) := by
      refine mapM_eq_ok ?_
      have hle := h.undef_le
      have hundefLen : m.undef.length = m.nundefsym := by
        rw [MachOContents.undef, List.length_take, List.length_drop]
        omega
      rw [List.forall₂_map_left_iff, List.forall₂_iff_get]
      refine ⟨by rw [List.length_range, hundefLen], fun i hi hi' => ?_⟩
      have hs : m.syms[m.iundefsym + i]? = some (m.undef.get ⟨i, hi'⟩) := by
        have hget : m.undef[i]? = m.syms[m.iundefsym + i]? := by
          rw [MachOContents.undef, List.getElem?_take_of_lt (by rwa [← hundefLen]),
            List.getElem?_drop]
        rw [← hget]
        exact List.getElem?_eq_getElem hi'
      have hmem : m.undef.get ⟨i, hi'⟩ ∈ m.undef := List.get_mem _ _
      have hdylib := h.printed_dylibName hmap hmem
      rw [List.get_eq_getElem, List.getElem_range, hsyms.read_eq hsymoff hs, ok_bind,
        hsyms.name_eq (List.mem_of_getElem? hs), ok_bind, ← bind_assoc, hdylib]
      rfl
    rw [h.undefSyms_eq hsymtab hdysymtab hsymoff, ok_bind, hundef, ok_bind, MachO.indirectSyms,
      MachO.dysymtab, h.commands.subcmdOfType_eq, hdysymtab]
    simp only [ok_bind, pure_eq_ok, hoff, hn, hlen]
    rw [printEach_indirectSyms hsyms h.indirect_lt hat (fun _ => rfl)
      (fun i idx hidx => by simp only [hidx, ok_bind]; rfl) fun _ => rfl]
    rfl

theorem dumpSymtab_eq (h : m.Laid mem macho) : MachO.dumpSymtab mem macho =
    .ok ((m.dump macho).undefSyms, (m.dump macho).indirectSyms) := by
  rw [MachO.dumpSymtab, MachO.symtab, h.commands.subcmdOfType_eq, ok_bind]
  cases hsymtab : MachO.firstOfType macho m.cmds LoadCommandType.symtab with
  | none =>
    obtain ⟨hundef, hindirect⟩ := h.without (.inl hsymtab)
    simp only [dump, MachOContents.undef, indirectSyms, hundef, hindirect, List.take_zero,
      List.filterMap_nil, List.map_nil, pure_eq_ok]
  | some symtab => exact h.dumpSyms_eq hsymtab

end MachOContents.Laid

/-- A library, a fileset entry, and two symbols of which the second is undefined and comes from the
library. -/
def smallContents : MachOContents where
  cmds := [MachO.libraryCommand LoadCommandType.loadDylib (ascii ['l', 'i', 'b']),
    ⟨LoadCommandType.filesetEntry,
      leBytes 8 0x4000 ++ leBytes 8 64 ++ leBytes 4 32 ++ leBytes 4 0 ++ [0x6b, 0]⟩,
    ⟨LoadCommandType.symtab, leBytes 4 210 ++ leBytes 4 2 ++ leBytes 4 242 ++ leBytes 4 5⟩,
    ⟨LoadCommandType.dysymtab, leBytes 4 0 ++ leBytes 4 1 ++ leBytes 4 1 ++ leBytes 4 0 ++
      leBytes 4 1 ++ leBytes 4 1 ++ List.replicate 24 0 ++ leBytes 4 247 ++ leBytes 4 1 ++
        List.replicate 16 0⟩]
  syms := [(⟨0, 0x0e, 1, 0, 0x4000⟩, ascii ['a']), (⟨2, 1, 0, 0x0100, 0⟩, ascii ['_', 'b'])]
  iundefsym := 1
  nundefsym := 1
  indirect := [1]

def smallImage : Bytes :=
  MachO.imageOf smallContents.cmds ++ smallContents.syms.flatMap (fun s => s.1.bytes) ++
    strtab (smallContents.syms.map Prod.snd) ++
      smallContents.indirect.flatMap fun idx => leBytes 4 idx.toNat

theorem smallContents_laid : smallContents.Laid smallImage 0 where
  magic := by decide +kernel
  commands := ⟨by decide +kernel, by decide +kernel, by decide +kernel⟩
  dylibsOk := by decide +kernel
  namesOk c hc := ⟨by revert c; decide +kernel, by revert c; decide +kernel⟩
  dylibs_le := by decide +kernel
  symtab symtab h := by
    obtain rfl : 114 = symtab := Option.some.inj h
    exact ⟨⟨210, 2, by decide +kernel, by decide +kernel, rfl, by decide +kernel⟩,
      242, [ascii ['a'], ascii ['_', 'b']], by decide +kernel, by decide +kernel, by decide,
      by decide⟩
  dysymtab dysymtab h := by
    obtain rfl : 138 = dysymtab := Option.some.inj h
    exact ⟨by decide +kernel, by decide +kernel, 247, 1, by decide +kernel, by decide +kernel, rfl,
      by decide +kernel⟩
  without h := absurd h (by decide +kernel)
  undef_le := by decide +kernel
  undef := by decide +kernel
  indirect_lt idx h := by
    rw [List.mem_singleton.mp h]
    decide +kernel

end JevMachO

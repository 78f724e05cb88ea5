import JevMachO.ARM64Disasm
import JevMachO.MachO.FunctionLookup
import JevMachO.MachO.MinimalPayload
import JevMachO.MachO.NameMaps
import JevMachO.MachO.SegmentRanges

/-! Calls to an imported symbol, and what is written to the first argument's register before each.
The stub of the symbol is found by its number among the indirect symbols; then every word of the
text is looked at, and before each call to the stub the words of its function are searched
backwards. -/
namespace JevMachO
open Lib

/-! ### Symbols by number -/

namespace NList

def sizeofNList : ℕ := 16

def read (mem : Bytes) (nl : ℕ) : Exec NList := do
  return {
    strx := ← loadU32 mem nl
    type := UInt8.ofNat (ofLE (← load mem (nl + 4) 1))
    sect := UInt8.ofNat (ofLE (← load mem (nl + 5) 1))
    desc := UInt16.ofNat (ofLE (← load mem (nl + 6) 2))
    value := ← loadU64 mem (nl + 8) }

def indirectSymbolLocal : UInt32 := 0x80000000

def indirectSymbolAbs : UInt32 := 0x40000000

end NList

namespace SymtabCommand

/-- `nlists(macho)[idx]`. -/
def nlist (mem : Bytes) (macho symtab idx : ℕ) : Exec NList := do
  let nsyms ← loadU32 mem (symtab + 4)
  if nsyms.toNat ≤ idx then throw .outOfBounds
  NList.read mem (macho + (← loadU32 mem symtab).toNat + NList.sizeofNList * idx)

def strtabData (mem : Bytes) (macho symtab : ℕ) : Exec ℕ := do
  return macho + (← loadU32 mem (symtab + 8)).toNat

end SymtabCommand

/-- `name(macho, symtab)`, as a string. -/
def NList.name (mem : Bytes) (macho symtab : ℕ) (nl : NList) : Exec Bytes := do
  cstr mem ((← SymtabCommand.strtabData mem macho symtab) + nl.strx.toNat)

namespace MachO

def textLit : Bytes := ascii ['_', '_', 'T', 'E', 'X', 'T']

def strtabData (mem : Bytes) (macho : ℕ) : Exec (Option ℕ) := do
  match ← symtab mem macho with
  | none => return none
  | some symtab => return some (← SymtabCommand.strtabData mem macho symtab)

def textSeg (mem : Bytes) (macho : ℕ) : Exec (Option ℕ) := segmentWithName mem macho textLit

/-- The indirect symbols; a position is an index. Without a `dysymtab` there are none. -/
def indirectSyms (mem : Bytes) (macho symtab : ℕ) : Exec (ℕ × Cursor Fault ℕ NList) := do
  let (first, size) ← match ← dysymtab mem macho with
    | none => pure (0, 0)
    | some dysymtab => do
      pure (macho + (← loadU32 mem (dysymtab + 48)).toNat, (← loadU32 mem (dysymtab + 52)).toNat)
  return (size,
    { atEnd := fun i => .ok (i == size)
      deref := fun i => do
        let idxRaw ← loadU32 mem (first + 4 * i)
        let idx :=
          if idxRaw &&& NList.indirectSymbolLocal ≠ 0 then
            idxRaw &&& ~~~(NList.indirectSymbolLocal ||| NList.indirectSymbolAbs)
          else idxRaw
        SymtabCommand.nlist mem macho symtab idx.toNat
      next := fun i => .ok (i + 1)
      stuck := .endless })

end MachO

/-- `format_to(out, macho, map)`, for what it asserts and reads. -/
def NList.formatTo (mem : Bytes) (macho : ℕ) (map : NamesMap (Option ℕ)) (nl : NList) :
    Exec Unit := do
  assertThat (← MachO.isMagicGood mem macho)
  let some strtabData ← MachO.strtabData mem macho | throw .nullDeref
  let _ ← cstr mem (strtabData + nl.strx.toNat)
  -- a null string is refused with an exception
  let some dylibName ← nl.dylibName map | throw .assertFailed
  let _ ← cstr mem dylibName

def SegmentCommand.sectionNamed (mem : Bytes) (seg : ℕ) (sectName : Bytes) : Exec (Option ℕ) := do
  (← sections mem seg).findM? fun sect => do
    return (← SectionHeader.sectName mem sect) == sectName

/-- The fields of a linkedit command, from `cmd` on. -/
def LinkeditDataCommand.read (mem : Bytes) (cmd : ℕ) : Exec LinkeditDataCommand := do
  return ⟨← loadU32 mem cmd, ← loadU32 mem (cmd + 4)⟩

/-- `span_cast<const uint32_t>`. -/
def spanCastU32 (bs : Bytes) : Exec (List UInt32) := do
  assertThat (bs.length % 4 == 0)
  return (List.range (bs.length / 4)).map fun i => UInt32.ofNat (ofLE ((bs.drop (4 * i)).take 4))

namespace CallFinder

open ARM64Disasm

/-! ### The stub and the text -/

def bytesPerStub : ℕ := 16

def authStubsLit : Bytes :=
  ascii ['_', '_', 'a', 'u', 't', 'h', '_', 's', 't', 'u', 'b', 's']

def stubsLit : Bytes := ascii ['_', '_', 's', 't', 'u', 'b', 's']

/-- The number of the symbol among the indirect ones. The source searches twice, for the symbol
and for its number. -/
def symbolIndirIdx (mem : Bytes) (macho symtab : ℕ) (segNameMap : NamesMap Bytes)
    (symbolName : Bytes) : Exec (Option ℕ) := do
  let (size, syms) ← MachO.indirectSyms mem macho symtab
  let i ← syms.findIf
    (fun nl => do
      if (← nl.name mem macho symtab) ≠ symbolName then return false
      return (← nl.segmentName segNameMap) == MachO.textLit) size 0
  if ← syms.atEnd i then return none
  return some i

/-- What the loop over the text works on. -/
structure TextScan where
  textInstr : List UInt32
  textSeg : SegmentCommand
  symbolStubAddr : UInt64
  /-- The data of the function starts. -/
  funcStarts : Bytes
  deriving DecidableEq, Repr

/-- The section of the stubs, by either name. -/
def stubSect (mem : Bytes) (seg : ℕ) : Exec (Option ℕ) := do
  match ← SegmentCommand.sectionNamed mem seg authStubsLit with
  | some sect => return some sect
  | none => SegmentCommand.sectionNamed mem seg stubsLit

/-- The text segment's part of what the loop works on, for the stub with this number. -/
def textScanOf (mem : Bytes) (macho seg idx : ℕ) : Exec TextScan := do
  -- the distance a branch reaches
  assertThat ((← SegmentCommand.vmaddrRange mem seg).size < 128 * 1024 * 1024)
  let some sect ← stubSect mem seg | throw .assertFailed
  let stubsBase ← SectionHeader.addr mem sect
  let fileoff ← SegmentCommand.fileoffAt mem seg
  let filesize ← SegmentCommand.filesizeAt mem seg
  let textInstr ← spanCastU32 (← load mem (macho + fileoff.toNat) filesize.toNat)
  let some funcStartsCmd ← MachO.functionStartsCommand mem macho | throw .assertFailed
  return {
    textInstr
    textSeg := ⟨← SegmentCommand.vmaddrAt mem seg, fileoff⟩
    symbolStubAddr := stubsBase + UInt64.ofNat (idx * bytesPerStub)
    funcStarts := ← (← LinkeditDataCommand.read mem funcStartsCmd).data mem macho }

/-- `FMT_PRINT` of the symbol, which is nothing unless `USE_FMT` is set. -/
def printSymbol (useFmt : Bool) (mem : Bytes) (macho symtab : ℕ)
    (dylibNameMap : NamesMap (Option ℕ)) (idx : ℕ) : Exec Unit := do
  if useFmt then
    let symbolNl ← (← MachO.indirectSyms mem macho symtab).2.deref idx
    symbolNl.formatTo mem macho dylibNameMap

/-- Everything up to the loop; nothing when there is no such symbol. -/
def textScan (useFmt : Bool) (mem : Bytes) (macho : ℕ) (symbolName : Bytes) :
    Exec (Option TextScan) := do
  let some symtab ← MachO.symtab mem macho | throw .assertFailed
  let dylibNameMap ← MachO.dylibNamesMap mem macho
  let segNameMap ← MachO.segmentNamesMap mem macho
  let some idx ← symbolIndirIdx mem macho symtab segNameMap symbolName | return none
  printSymbol useFmt mem macho symtab dylibNameMap idx
  let some seg ← MachO.textSeg mem macho | throw .assertFailed
  return some (← textScanOf mem macho seg idx)

/-! ### The loop over the text -/

/-- `disPc: found write of val to r0`; the value is missing where decoding it is undefined. -/
structure FoundWrite where
  disPc : UInt64
  val : Option UInt64
  is64 : Bool
  deriving DecidableEq, Repr

/-- A call to the stub as it is printed, and the write that is printed for it. -/
structure FoundCall where
  pc : UInt64
  write : Option FoundWrite
  deriving DecidableEq, Repr

/-- `subspan`, whose bounds the library leaves to its caller. -/
def subspan {α : Type} (xs : List α) (offset count : ℕ) : Exec (List α) :=
  match slice xs offset count with
  | some ys => .ok ys
  | none => .error .outOfBounds

/-- The loop over the words before a call, from the last one on. The address that is printed is a
variable of the loop that no round changes. -/
def findWrite (disPc : UInt64) : List UInt32 → Exec (Option FoundWrite)
  | [] => return none
  | inst :: rest =>
    if isMovWideImmTo inst 0 then
      match decodeMovWideImm inst with
      | some info => return some ⟨disPc, info.val, info.is64⟩
      | none => throw .nullDeref
    else findWrite disPc rest

/-- What is done for a call at `pc`. -/
def searchWrite (decode : DecodeUleb128) (s : TextScan) (pc : UInt64) :
    Exec (Option FoundWrite) := do
  let foff := pc - s.textSeg.vmaddrFileoffDelta
  let funcFileoff ← FunctionStarts.funcStartForFileOffset decode foff s.funcStarts s.textSeg
  let disassRng ← subspan s.textInstr (funcFileoff / 4).toNat ((foff - funcFileoff) / 4).toNat
  findWrite (pc - 4) disassRng.reverse

/-- What has been printed, and how the loop ended. -/
def scanFrom (decode : DecodeUleb128) (s : TextScan) :
    List UInt32 → UInt64 → List FoundCall × Exec Unit
  | [], _ => ([], .ok ())
  | inst :: rest, pc =>
    if isBLTo inst pc s.symbolStubAddr then
      match searchWrite decode s pc with
      | .error e => ([⟨pc, none⟩], .error e)
      | .ok write =>
        let r := scanFrom decode s rest (pc + 4)
        (⟨pc, write⟩ :: r.1, r.2)
    else scanFrom decode s rest (pc + 4)

/-- What `findCallsTo` prints about calls, also when it does not return, and what it returns. -/
def findCallsTo (useFmt : Bool) (decode : DecodeUleb128) (mem : Bytes) (macho : ℕ)
    (symbolName : Bytes) : List FoundCall × Exec Bool :=
  match textScan useFmt mem macho symbolName with
  | .error e => ([], .error e)
  | .ok none => ([], .ok false)
  | .ok (some s) =>
    let r := scanFrom decode s s.textInstr s.textSeg.vmaddr
    (r.1, r.2.map fun _ => true)

/-! ### Instructions by index -/

/-- The address of an instruction of the text. -/
def TextScan.addr (s : TextScan) (i : ℕ) : UInt64 := s.textSeg.vmaddr + UInt64.ofNat (4 * i)

/-- The instruction is a call to the stub. -/
def IsCall (s : TextScan) (i : ℕ) : Prop :=
  ∃ inst, s.textInstr[i]? = some inst ∧ isBLTo inst (s.addr i) s.symbolStubAddr = true

/-- The instruction is a move-wide-immediate to register 0. -/
def IsMove (s : TextScan) (j : ℕ) : Prop :=
  ∃ inst, s.textInstr[j]? = some inst ∧ isMovWideImmTo inst 0 = true

instance (s : TextScan) (i : ℕ) : Decidable (IsCall s i) :=
  decidable_of_iff
    ((s.textInstr[i]?.any fun inst => isBLTo inst (s.addr i) s.symbolStubAddr) = true)
    (Option.any_eq_true ..)

instance (s : TextScan) (j : ℕ) : Decidable (IsMove s j) :=
  decidable_of_iff ((s.textInstr[j]?.any fun inst => isMovWideImmTo inst 0) = true)
    (Option.any_eq_true ..)

/-- What a move-wide-immediate decodes to. -/
def moveVal (s : TextScan) (j : ℕ) : Option (Option UInt64) :=
  (s.textInstr[j]?.bind decodeMovWideImm).map MovImmInfo.val

/-- An instruction lies between the start of the function that another one is in and that one. -/
def InFunction (deltas : List Varint) (i j : ℕ) : Prop :=
  j < i ∧ ∃ f, IsGreatest {x | x ∈ FunctionStarts.starts 0 deltas ∧ x ≤ 4 * i} f ∧ f ≤ 4 * j

/-- The last move before a call, in its function. -/
structure IsLastMove (s : TextScan) (deltas : List Varint) (i j : ℕ) : Prop where
  inFunction : InFunction deltas i j
  isMove : IsMove s j
  last : ∀ k, j < k → k < i → ¬IsMove s k

/-- The run ends without a fault, and what is printed tells of every call the last move before
it. -/
structure ReportsLastMoves (s : TextScan) (deltas : List Varint)
    (r : List FoundCall × Exec Bool) : Prop where
  ends : r.2 = .ok true
  sound : ∀ f ∈ r.1, ∀ w, f.write = some w → ∃ i j, IsCall s i ∧ f.pc = s.addr i ∧
    IsLastMove s deltas i j ∧ w.disPc = s.addr j ∧ moveVal s j = some w.val
  complete : ∀ i j, IsCall s i → InFunction deltas i j → IsMove s j →
    ∃ f ∈ r.1, f.pc = s.addr i ∧ f.write.isSome = true

/-! ### What is searched -/

/-- The words that are searched before a call: from where the text would have them if the word
at index 0 were at file offset 0. -/
structure Searches (s : TextScan) (deltas : List Varint) (padding i lo hi : ℕ) : Prop where
  stepsBack : FunctionStarts.StepsBack (4 * i) deltas
  range : ∃ b, IsGreatest {x | x ∈ FunctionStarts.searchStarts deltas padding ∧ x ≤ 4 * i} b ∧
    lo = (s.textSeg.fileoff.toNat + b) / 4 ∧ hi = lo + (4 * i - b) / 4
  inside : hi ≤ s.textInstr.length

/-- The last move among the words from `lo` to `hi`. -/
def LastMoveIn (s : TextScan) (lo hi k : ℕ) : Prop :=
  lo ≤ k ∧ k < hi ∧ IsMove s k ∧ ∀ m, k < m → m < hi → ¬IsMove s m

/-- There is nothing to tell and nothing is found, or the instruction right before the call is
what is to be told and what is found has its value. -/
def Tells (s : TextScan) (deltas : List Varint) (i lo hi : ℕ) : Prop :=
  (∀ k, lo ≤ k → k < hi → ¬IsMove s k) ∧ (∀ j, InFunction deltas i j → ¬IsMove s j) ∨
    ∃ k, LastMoveIn s lo hi k ∧ InFunction deltas i (i - 1) ∧ IsMove s (i - 1) ∧
      moveVal s k = moveVal s (i - 1)

/-- For every call the words that are searched are inside the text, and the loop tells of it. -/
def TellsAll (s : TextScan) (deltas : List Varint) (padding : ℕ) : Prop :=
  ∀ i, IsCall s i → ∃ lo hi, Searches s deltas padding i lo hi ∧ Tells s deltas i lo hi

/-! ### The search before a call -/

theorem decodeMovWideImm_of_isMovWideImmTo {inst : UInt32} {reg : UInt8}
    (h : isMovWideImmTo inst reg = true) : ∃ info, decodeMovWideImm inst = some info := by
  have hmov : isMovWideImm inst = true := (Bool.and_eq_true_iff.mp h).1
  unfold decodeMovWideImm
  rw [hmov]
  exact ⟨_, rfl⟩

/-- Searching backwards finds the last move, but says of it the address it was given. -/
theorem findWrite_reverse (disPc : UInt64) (ws : List UInt32) :
    (∀ inst ∈ ws, isMovWideImmTo inst 0 = false) ∧ findWrite disPc ws.reverse = .ok none ∨
    ∃ pre inst suf info, ws = pre ++ inst :: suf ∧ isMovWideImmTo inst 0 = true ∧
      (∀ inst ∈ suf, isMovWideImmTo inst 0 = false) ∧ decodeMovWideImm inst = some info ∧
      findWrite disPc ws.reverse = .ok (some ⟨disPc, info.val, info.is64⟩) := by
  induction ws using List.reverseRecOn with
  | nil => exact .inl ⟨by simp, rfl⟩
  | append_singleton ws inst ih =>
    have hrev : (ws ++ [inst]).reverse = inst :: ws.reverse := by simp
    rw [hrev, findWrite]
    cases hmov : isMovWideImmTo inst 0 with
    | true =>
      obtain ⟨info, hinfo⟩ := decodeMovWideImm_of_isMovWideImmTo hmov
      refine .inr ⟨ws, inst, [], info, rfl, hmov, by simp, hinfo, ?_⟩
      rw [if_pos rfl, hinfo]
      rfl
    | false =>
      rw [if_neg Bool.false_ne_true]
      rcases ih with ⟨hnone, hrun⟩ | ⟨pre, m, suf, info, rfl, hm, hsuf, hinfo, hrun⟩
      · refine .inl ⟨fun i hi => ?_, hrun⟩
        rcases List.mem_append.mp hi with hi | hi
        · exact hnone i hi
        · rw [List.mem_singleton.mp hi]
          exact hmov
      · refine .inr ⟨pre, m, suf ++ [inst], info, by simp, hm, fun i hi => ?_, hinfo, hrun⟩
        rcases List.mem_append.mp hi with hi | hi
        · exact hsuf i hi
        · rw [List.mem_singleton.mp hi]
          exact hmov

section search
variable {decode : DecodeUleb128} {s : TextScan} {deltas : List Varint} {padding i lo hi : ℕ}

theorem foff_eq (s : TextScan) (i : ℕ) :
    s.addr i - s.textSeg.vmaddrFileoffDelta = s.textSeg.fileoff + UInt64.ofNat (4 * i) := by
  unfold TextScan.addr SegmentCommand.vmaddrFileoffDelta
  apply UInt64.toNat_inj.mp
  simp only [UInt64.toNat_sub, UInt64.toNat_add]
  have h₁ := s.textSeg.vmaddr.toNat_lt
  have h₂ := s.textSeg.fileoff.toNat_lt
  have h₃ := (UInt64.ofNat (4 * i)).toNat_lt
  omega

theorem Searches.unique {lo' hi' : ℕ} (h : Searches s deltas padding i lo hi)
    (h' : Searches s deltas padding i lo' hi') : lo' = lo ∧ hi' = hi := by
  obtain ⟨b, hb, rfl, rfl⟩ := h.range
  obtain ⟨b', hb', rfl, rfl⟩ := h'.range
  rw [hb.unique hb']
  exact ⟨rfl, rfl⟩

theorem getElem?_window {α : Type} {xs : List α} {n k : ℕ} (hle : lo ≤ k) (hlt : k < lo + n) :
    ((xs.drop lo).take n)[k - lo]? = xs[k]? := by
  rw [List.getElem?_take_of_lt (by omega), List.getElem?_drop, Nat.add_sub_cancel' hle]

/-- What searching a window of the text gives. -/
theorem findWrite_window (s : TextScan) (disPc : UInt64) {lo n : ℕ}
    (hin : lo + n ≤ s.textInstr.length) :
    (∀ k, lo ≤ k → k < lo + n → ¬IsMove s k) ∧
        findWrite disPc ((s.textInstr.drop lo).take n).reverse = .ok none ∨
      ∃ k w, LastMoveIn s lo (lo + n) k ∧
        findWrite disPc ((s.textInstr.drop lo).take n).reverse = .ok (some w) ∧
        w.disPc = disPc ∧ moveVal s k = some w.val := by
  have hlen : ((s.textInstr.drop lo).take n).length = n := by
    rw [List.length_take, List.length_drop]
    omega
  rcases findWrite_reverse disPc ((s.textInstr.drop lo).take n) with
    ⟨hnone, hrun⟩ | ⟨pre, inst, suf, info, hws, hmov, hsuf, hinfo, hrun⟩
  · refine .inl ⟨?_, hrun⟩
    rintro k hle hlt ⟨inst, hinst, hmov⟩
    rw [← getElem?_window hle hlt] at hinst
    rw [hnone inst (List.mem_of_getElem? hinst)] at hmov
    cases hmov
  · have hpre : pre.length < n := by
      rw [← hlen, hws, List.length_append, List.length_cons]
      omega
    have hinst : s.textInstr[lo + pre.length]? = some inst := by
      rw [← getElem?_window (n := n) (Nat.le_add_right _ _) (by omega), hws,
        Nat.add_sub_cancel_left, List.getElem?_append_right (le_refl _), Nat.sub_self]
      rfl
    refine .inr ⟨lo + pre.length, _, ⟨Nat.le_add_right _ _, by omega, ⟨inst, hinst, hmov⟩, ?_⟩,
      hrun, rfl, ?_⟩
    · rintro m hm hlt ⟨inst', hinst', hmov'⟩
      rw [← getElem?_window (n := n) (by omega) hlt, hws,
        List.getElem?_append_right (by omega)] at hinst'
      obtain ⟨j, hj⟩ := Nat.exists_eq_add_of_lt (by omega : 0 < m - lo - pre.length)
      rw [hj, Nat.zero_add, List.getElem?_cons_succ] at hinst'
      rw [hsuf inst' (List.mem_of_getElem? hinst')] at hmov'
      cases hmov'
    · rw [moveVal, hinst, Option.bind_some, hinfo]
      rfl

/-- Between two addresses as many words as fit into their distance. -/
theorem toNat_sub_div {x y : UInt64} {t m n : ℕ} (hx : x.toNat = t + n) (hy : y.toNat = t + m)
    (hle : m ≤ n) : ((x - y) / 4).toNat = (n - m) / 4 := by
  have hyx : y ≤ x := by
    rw [UInt64.le_iff_toNat_le]
    omega
  rw [UInt64.toNat_div, UInt64.toNat_sub_of_le _ _ hyx, hx, hy, Nat.add_sub_add_left]
  rfl

/-- Of a call, the search finds the last move of its window; without one it fails. -/
theorem searchWrite_cases (hdec : decode.Decodes)
    (hstarts : s.funcStarts = FunctionStarts.payload deltas padding)
    (hsum : s.textSeg.fileoff.toNat + FunctionStarts.total deltas < 2 ^ 64)
    (hfits : s.textSeg.fileoff.toNat + 4 * i < 2 ^ 64) :
    (∃ lo hi, Searches s deltas padding i lo hi ∧
      ((∀ k, lo ≤ k → k < hi → ¬IsMove s k) ∧ searchWrite decode s (s.addr i) = .ok none ∨
        ∃ k w, LastMoveIn s lo hi k ∧ searchWrite decode s (s.addr i) = .ok (some w) ∧
          w.disPc = s.addr i - 4 ∧ moveVal s k = some w.val)) ∨
    (¬∃ lo hi, Searches s deltas padding i lo hi) ∧
      ∃ e, searchWrite decode s (s.addr i) = .error e := by
  have hoff : (s.textSeg.fileoff + UInt64.ofNat (4 * i)).toNat =
      s.textSeg.fileoff.toNat + 4 * i := by
    rw [UInt64.toNat_add, UInt64.toNat_ofNat', Nat.mod_eq_of_lt (by omega : 4 * i < 2 ^ 64),
      Nat.mod_eq_of_lt hfits]
  unfold searchWrite
  rw [foff_eq, hstarts]
  dsimp only
  rcases FunctionStarts.funcStartForFileOffset_cases hdec padding s.textSeg hsum hoff with
    ⟨hback, f, b, hrun, hf, hb⟩ | ⟨hno, e, hrun⟩
  · have hlo : (f / 4).toNat = (s.textSeg.fileoff.toNat + b) / 4 := by
      rw [UInt64.toNat_div, hf]
      rfl
    rw [hrun, ok_bind, hlo, toNat_sub_div hoff hf hb.1.2]
    unfold subspan slice
    by_cases hin : (s.textSeg.fileoff.toNat + b) / 4 + (4 * i - b) / 4 ≤ s.textInstr.length
    · refine .inl ⟨_, _, ⟨hback, ⟨b, hb, rfl, rfl⟩, hin⟩, ?_⟩
      rw [if_pos hin]
      exact findWrite_window s _ hin
    · refine .inr ⟨?_, .outOfBounds, by rw [if_neg hin]; rfl⟩
      rintro ⟨lo, hi, hsearch⟩
      obtain ⟨b', hb', rfl, rfl⟩ := hsearch.range
      rw [hb'.unique hb] at hsearch
      exact hin hsearch.inside
  · refine .inr ⟨?_, e, by rw [hrun]; rfl⟩
    rintro ⟨lo, hi, hsearch⟩
    obtain ⟨b, hb, -, -⟩ := hsearch.range
    rcases hno with hback | hnil
    · exact hback hsearch.stepsBack
    · have hmem := hb.1.1
      rw [hnil] at hmem
      cases hmem

end search

/-! ### The whole text -/

section scan
variable {decode : DecodeUleb128} {s : TextScan} {deltas : List Varint} {padding i j : ℕ}

theorem IsCall.lt (h : IsCall s i) : i < s.textInstr.length := by
  obtain ⟨inst, hinst, -⟩ := h
  exact (List.getElem?_eq_some_iff.mp hinst).1

theorem addr_succ (s : TextScan) (i : ℕ) : s.addr i + 4 = s.addr (i + 1) := by
  unfold TextScan.addr
  rw [Nat.mul_add, UInt64.ofNat_add, ← UInt64.add_assoc]
  rfl

theorem addr_pred (s : TextScan) (h : 0 < i) : s.addr i - 4 = s.addr (i - 1) := by
  obtain ⟨k, rfl⟩ := Nat.exists_eq_add_of_lt h
  rw [Nat.zero_add, ← addr_succ, UInt64.add_sub_cancel, Nat.add_sub_cancel]

/-- Different instructions have different addresses. -/
theorem addr_inj (hi : 4 * i < 2 ^ 64) (hj : 4 * j < 2 ^ 64) (h : s.addr i = s.addr j) :
    i = j := by
  have hval := congrArg UInt64.toNat ((UInt64.add_right_inj _).mp h)
  rw [UInt64.toNat_ofNat', UInt64.toNat_ofNat', Nat.mod_eq_of_lt hi, Nat.mod_eq_of_lt hj] at hval
  omega

theorem FoundCall.eq_mk {f : FoundCall} {pc : UInt64} {write : Option FoundWrite}
    (hpc : f.pc = pc) (hwrite : f.write = write) : f = ⟨pc, write⟩ := by
  rw [← hpc, ← hwrite]

/-- What the loop does for a call when nothing fails. -/
def PrintedFor (decode : DecodeUleb128) (s : TextScan) (i : ℕ) (f : FoundCall) : Prop :=
  IsCall s i ∧ f.pc = s.addr i ∧ searchWrite decode s (s.addr i) = .ok f.write

/-- The loop from an instruction on comes to its end when no search before a call fails, and then
it has printed a line for every call. By induction on the words that are left. -/
theorem scanFrom_run (decode : DecodeUleb128) (pre : List UInt32) {rest : List UInt32}
    (hwords : s.textInstr = pre ++ rest) :
    ((scanFrom decode s rest (s.addr pre.length)).2 = .ok () ↔
      ∀ i, pre.length ≤ i → IsCall s i → ∃ w, searchWrite decode s (s.addr i) = .ok w) ∧
    ((scanFrom decode s rest (s.addr pre.length)).2 = .ok () → ∀ f,
      f ∈ (scanFrom decode s rest (s.addr pre.length)).1 ↔
        ∃ i, pre.length ≤ i ∧ PrintedFor decode s i f) := by
  induction rest generalizing pre with
  | nil =>
    rw [List.append_nil] at hwords
    have hnone : ∀ i, pre.length ≤ i → ¬IsCall s i := fun i hi hcall => by
      have hlt := hcall.lt
      rw [hwords] at hlt
      omega
    refine ⟨iff_of_true rfl fun i hi hcall => absurd hcall (hnone i hi), fun _ f =>
      iff_of_false List.not_mem_nil ?_⟩
    rintro ⟨i, hi, hcall, -⟩
    exact hnone i hi hcall
  | cons inst rest ih =>
    have hinst : s.textInstr[pre.length]? = some inst := by
      rw [hwords, List.getElem?_append_right (le_refl _), Nat.sub_self]
      rfl
    have hlen : (pre ++ [inst]).length = pre.length + 1 := by simp
    have hrest := ih (pre ++ [inst]) (by rw [hwords, List.append_assoc]; rfl)
    rw [hlen] at hrest
    obtain ⟨hends, hprinted⟩ := hrest
    have hcall : IsCall s pre.length ↔ isBLTo inst (s.addr pre.length) s.symbolStubAddr = true :=
      ⟨fun ⟨inst', hinst', hbl⟩ => Option.some.inj (hinst.symm.trans hinst') ▸ hbl,
        fun hbl => ⟨inst, hinst, hbl⟩⟩
    rw [scanFrom, addr_succ]
    by_cases hbl : isBLTo inst (s.addr pre.length) s.symbolStubAddr = true
    · rw [if_pos hbl]
      cases hrun : searchWrite decode s (s.addr pre.length) with
      | error e =>
        refine ⟨iff_of_false (fun h => by cases h) fun hall => ?_, fun h => by cases h⟩
        obtain ⟨w, hw⟩ := hall pre.length (le_refl _) (hcall.mpr hbl)
        rw [hrun] at hw
        cases hw
      | ok write =>
        refine ⟨hends.trans ⟨fun hall i hi hi' => ?_, fun hall i hi => hall i (by omega)⟩,
          fun hok f => ?_⟩
        · rcases Nat.eq_or_lt_of_le hi with rfl | hlt
          · exact ⟨write, hrun⟩
          · exact hall i hlt hi'
        · rw [List.mem_cons, hprinted hok]
          constructor
          · rintro (rfl | ⟨i, hi, hf⟩)
            · exact ⟨pre.length, le_refl _, hcall.mpr hbl, rfl, hrun⟩
            · exact ⟨i, by omega, hf⟩
          · rintro ⟨i, hi, hf⟩
            rcases Nat.eq_or_lt_of_le hi with rfl | hlt
            · exact .inl (FoundCall.eq_mk hf.2.1 (Except.ok.inj (hf.2.2.symm.trans hrun)))
            · exact .inr ⟨i, hlt, hf⟩
    · rw [if_neg hbl]
      have hskip : ∀ i, pre.length ≤ i → IsCall s i → pre.length + 1 ≤ i := fun i hi hi' => by
        rcases Nat.eq_or_lt_of_le hi with rfl | hlt
        · exact absurd (hcall.mp hi') hbl
        · exact hlt
      refine ⟨hends.trans ⟨fun hall i hi hi' => hall i (hskip i hi hi') hi',
        fun hall i hi => hall i (by omega)⟩, fun hok f => (hprinted hok f).trans ?_⟩
      exact ⟨fun ⟨i, hi, hf⟩ => ⟨i, by omega, hf⟩, fun ⟨i, hi, hf⟩ => ⟨i, hskip i hi hf.1, hf⟩⟩

theorem addr_zero (s : TextScan) : s.addr 0 = s.textSeg.vmaddr := UInt64.add_zero _

/-- The text, and function starts that do not wrap around. -/
structure Placed (s : TextScan) (deltas : List Varint) (padding : ℕ) : Prop where
  funcStarts : s.funcStarts = FunctionStarts.payload deltas padding
  total_lt : s.textSeg.fileoff.toNat + FunctionStarts.total deltas < 2 ^ 64
  size_lt : s.textSeg.fileoff.toNat + 4 * s.textInstr.length < 2 ^ 64

theorem Placed.calls_inj (h : Placed s deltas padding) (hi : IsCall s i) (hj : IsCall s j)
    (heq : s.addr i = s.addr j) : i = j := by
  have hsize := h.size_lt
  have hilt := hi.lt
  have hjlt := hj.lt
  exact addr_inj (by omega) (by omega) heq

theorem LastMoveIn.unique {lo hi k m : ℕ} (hk : LastMoveIn s lo hi k)
    (hm : LastMoveIn s lo hi m) : k = m := by
  rcases Nat.lt_trichotomy k m with hlt | heq | hgt
  · exact absurd hm.2.2.1 (hk.2.2.2 m hlt hm.2.1)
  · exact heq
  · exact absurd hk.2.2.1 (hm.2.2.2 k hgt hk.2.1)

variable (hdec : decode.Decodes) (h : Placed s deltas padding)
include hdec h

theorem searchWrite_of_isCall (hcall : IsCall s i) :
    (∃ lo hi, Searches s deltas padding i lo hi ∧
      ((∀ k, lo ≤ k → k < hi → ¬IsMove s k) ∧ searchWrite decode s (s.addr i) = .ok none ∨
        ∃ k w, LastMoveIn s lo hi k ∧ searchWrite decode s (s.addr i) = .ok (some w) ∧
          w.disPc = s.addr i - 4 ∧ moveVal s k = some w.val)) ∨
    (¬∃ lo hi, Searches s deltas padding i lo hi) ∧
      ∃ e, searchWrite decode s (s.addr i) = .error e := by
  have hlt := hcall.lt
  have hsize := h.size_lt
  exact searchWrite_cases hdec h.funcStarts h.total_lt (by omega)

theorem searchWrite_isOk_iff (hcall : IsCall s i) :
    (∃ w, searchWrite decode s (s.addr i) = .ok w) ↔
      ∃ lo hi, Searches s deltas padding i lo hi := by
  rcases searchWrite_of_isCall hdec h hcall with
    ⟨lo, hi, hsearch, ⟨-, hrun⟩ | ⟨k, w, -, hrun, -⟩⟩ | ⟨hno, e, hrun⟩
  · exact iff_of_true ⟨_, hrun⟩ ⟨lo, hi, hsearch⟩
  · exact iff_of_true ⟨_, hrun⟩ ⟨lo, hi, hsearch⟩
  · refine iff_of_false ?_ hno
    rintro ⟨w, hw⟩
    rw [hrun] at hw
    cases hw

/-- The loop comes to its end exactly when the words searched for every call are inside the
text. -/
theorem scanFrom_isOk_iff : (scanFrom decode s s.textInstr s.textSeg.vmaddr).2 = .ok () ↔
    ∀ i, IsCall s i → ∃ lo hi, Searches s deltas padding i lo hi := by
  have hrun := (scanFrom_run decode (s := s) [] (List.nil_append _).symm).1
  rw [List.length_nil, addr_zero] at hrun
  rw [hrun]
  exact ⟨fun hall i hcall => (searchWrite_isOk_iff hdec h hcall).mp (hall i (Nat.zero_le i) hcall),
    fun hall i _ hcall => (searchWrite_isOk_iff hdec h hcall).mpr (hall i hcall)⟩

omit hdec h in
theorem mem_scanFrom (hok : (scanFrom decode s s.textInstr s.textSeg.vmaddr).2 = .ok ())
    {f : FoundCall} : f ∈ (scanFrom decode s s.textInstr s.textSeg.vmaddr).1 ↔
      ∃ i, PrintedFor decode s i f := by
  have hrun := (scanFrom_run decode (s := s) [] (List.nil_append _).symm).2
  rw [List.length_nil, addr_zero] at hrun
  rw [hrun hok]
  exact ⟨fun ⟨i, _, hf⟩ => ⟨i, hf⟩, fun ⟨i, hf⟩ => ⟨i, Nat.zero_le i, hf⟩⟩

/-- What a scan returns once the text is found. -/
def scanned (decode : DecodeUleb128) (s : TextScan) : List FoundCall × Exec Bool :=
  let r := scanFrom decode s s.textInstr s.textSeg.vmaddr
  (r.1, r.2.map fun _ => true)

omit hdec h in
theorem scanned_isOk : (scanned decode s).2 = .ok true ↔
    (scanFrom decode s s.textInstr s.textSeg.vmaddr).2 = .ok () := by
  unfold scanned
  dsimp only
  generalize (scanFrom decode s s.textInstr s.textSeg.vmaddr).2 = r
  cases r with
  | error e => exact iff_of_false (fun h => by cases h) (fun h => by cases h)
  | ok u => exact iff_of_true rfl rfl

/-- When every call is reported rightly, the loop tells of it. -/
theorem tells_of_reports (hreports : ReportsLastMoves s deltas (scanned decode s)) :
    TellsAll s deltas padding := by
  have hsize := h.size_lt
  have hok := scanned_isOk.mp hreports.ends
  have hsearches := (scanFrom_isOk_iff hdec h).mp hok
  intro i hcall
  rcases searchWrite_of_isCall hdec h hcall with
    ⟨lo, hi, hsearch, ⟨hnone, hrun⟩ | ⟨k, w, hk, hrun, hpc, hval⟩⟩ | ⟨hno, -⟩
  · refine ⟨lo, hi, hsearch, .inl ⟨hnone, fun j hj hmove => ?_⟩⟩
    obtain ⟨f, hf, hfpc, hsome⟩ := hreports.complete i j hcall hj hmove
    obtain ⟨i', hcall', hpc', hrun'⟩ := (mem_scanFrom hok).mp hf
    obtain rfl := h.calls_inj hcall' hcall (hpc'.symm.trans hfpc)
    rw [Except.ok.inj (hrun'.symm.trans hrun)] at hsome
    cases hsome
  · have hf : (⟨s.addr i, some w⟩ : FoundCall) ∈ (scanned decode s).1 :=
      (mem_scanFrom hok).mpr ⟨i, hcall, rfl, hrun⟩
    obtain ⟨i', j, hcall', hfpc, hlast, hdis, hjval⟩ := hreports.sound _ hf w rfl
    obtain rfl := h.calls_inj hcall hcall' hfpc
    have hlt := hlast.inFunction.1
    have hilt := hcall.lt
    rw [hpc, addr_pred s (by omega)] at hdis
    obtain rfl : i - 1 = j := addr_inj (by omega) (by omega) hdis
    exact ⟨lo, hi, hsearch, .inr ⟨k, hk, hlast.inFunction, hlast.isMove, hval.trans hjval.symm⟩⟩
  · exact absurd (hsearches i hcall) hno

theorem reports_of_tells (htells : TellsAll s deltas padding) :
    ReportsLastMoves s deltas (scanned decode s) := by
  have hok := (scanFrom_isOk_iff hdec h).mpr fun i hcall => by
    obtain ⟨lo, hi, hsearch, -⟩ := htells i hcall
    exact ⟨lo, hi, hsearch⟩
  refine ⟨scanned_isOk.mpr hok, fun f hf w hw => ?_, fun i j hcall hj hmove => ?_⟩
  · obtain ⟨i, hcall, hfpc, hrun⟩ := (mem_scanFrom hok).mp hf
    obtain ⟨lo, hi, hsearch, htell⟩ := htells i hcall
    rcases searchWrite_of_isCall hdec h hcall with
      ⟨lo', hi', hsearch', ⟨-, hrun'⟩ | ⟨k, w', hk, hrun', hpc, hval⟩⟩ | ⟨hno, -⟩
    · rw [← Except.ok.inj (hrun'.symm.trans hrun)] at hw
      cases hw
    · obtain rfl : w' = w :=
        Option.some.inj ((Except.ok.inj (hrun'.symm.trans hrun)).trans hw)
      obtain ⟨rfl, rfl⟩ := hsearch.unique hsearch'
      rcases htell with ⟨hnone, -⟩ | ⟨m, hm, hin, hmove, hmval⟩
      · exact absurd hk.2.2.1 (hnone k hk.1 hk.2.1)
      · obtain rfl := hk.unique hm
        have hlt := hin.1
        refine ⟨i, i - 1, hcall, hfpc, ⟨hin, hmove, fun k hgt hlt => by omega⟩, ?_,
          hmval.symm.trans hval⟩
        rw [hpc, addr_pred s (by omega)]
    · exact absurd ⟨lo, hi, hsearch⟩ hno
  · obtain ⟨lo, hi, hsearch, htell⟩ := htells i hcall
    rcases htell with ⟨-, hnone⟩ | ⟨m, hm, -⟩
    · exact absurd hmove (hnone j hj)
    · rcases searchWrite_of_isCall hdec h hcall with
        ⟨lo', hi', hsearch', ⟨hnone, -⟩ | ⟨k, w, hk, hrun, -⟩⟩ | ⟨hno, -⟩
      · obtain ⟨rfl, rfl⟩ := hsearch.unique hsearch'
        exact absurd hm.2.2.1 (hnone m hm.1 hm.2.1)
      · exact ⟨⟨s.addr i, some w⟩, (mem_scanFrom hok).mpr ⟨i, hcall, rfl, hrun⟩, rfl, rfl⟩
      · exact absurd ⟨lo, hi, hsearch⟩ hno

end scan

/-! ### The call finder -/

/-- The text is inside memory. -/
theorem textScanOf_fits {mem : Bytes} {macho seg idx : ℕ} {s : TextScan}
    (h : textScanOf mem macho seg idx = .ok s) :
    s.textSeg.fileoff.toNat + 4 * s.textInstr.length ≤ mem.length := by
  obtain ⟨range, -, h⟩ := bind_eq_ok.mp h
  obtain ⟨u, -, h⟩ := bind_eq_ok.mp h
  obtain ⟨sect, -, h⟩ := bind_eq_ok.mp h
  cases sect with
  | none => cases h
  | some sect =>
    obtain ⟨stubsBase, -, h⟩ := bind_eq_ok.mp h
    obtain ⟨fileoff, -, h⟩ := bind_eq_ok.mp h
    obtain ⟨filesize, -, h⟩ := bind_eq_ok.mp h
    obtain ⟨textRaw, hraw, h⟩ := bind_eq_ok.mp h
    obtain ⟨textInstr, hinstr, h⟩ := bind_eq_ok.mp h
    obtain ⟨funcStartsCmd, -, h⟩ := bind_eq_ok.mp h
    cases funcStartsCmd with
    | none => cases h
    | some funcStartsCmd =>
      obtain ⟨vmaddr, -, h⟩ := bind_eq_ok.mp h
      obtain ⟨linkedit, -, h⟩ := bind_eq_ok.mp h
      obtain ⟨funcStarts, -, h⟩ := bind_eq_ok.mp h
      obtain rfl := Except.ok.inj h
      obtain ⟨u', -, hinstr⟩ := bind_eq_ok.mp hinstr
      obtain rfl := Except.ok.inj hinstr
      obtain ⟨hin, hlen, -⟩ := load_eq_ok hraw
      simp only [List.length_map, List.length_range]
      omega

theorem textScan_fits {useFmt : Bool} {mem symbolName : Bytes} {macho : ℕ} {s : TextScan}
    (h : textScan useFmt mem macho symbolName = .ok (some s)) :
    s.textSeg.fileoff.toNat + 4 * s.textInstr.length ≤ mem.length := by
  obtain ⟨symtab, -, h⟩ := bind_eq_ok.mp h
  cases symtab with
  | none => cases h
  | some symtab =>
    obtain ⟨dylibs, -, h⟩ := bind_eq_ok.mp h
    obtain ⟨segNameMap, -, h⟩ := bind_eq_ok.mp h
    obtain ⟨idx, -, h⟩ := bind_eq_ok.mp h
    cases idx with
    | none => cases h
    | some idx =>
      obtain ⟨u, -, h⟩ := bind_eq_ok.mp h
      obtain ⟨seg, -, h⟩ := bind_eq_ok.mp h
      cases seg with
      | none => cases h
      | some seg =>
        obtain ⟨s', hs', h⟩ := bind_eq_ok.mp h
        obtain rfl := Option.some.inj (Except.ok.inj h)
        exact textScanOf_fits hs'

/-- A symbol `f` whose stub is at 0x2000, and one function at 344, where the commands end. -/
def sampleCommands (textSize : ℕ) : List Command :=
  [MachO.segmentWithSections MachO.textLit 0x1000 0x2000 0 (344 + textSize)
      [MachO.sectionHeader stubsLit MachO.textLit 0x2000],
    ⟨LoadCommandType.symtab,
      leBytes 4 (344 + textSize) ++ leBytes 4 1 ++ leBytes 4 (360 + textSize) ++ leBytes 4 4⟩,
    ⟨LoadCommandType.dysymtab, List.replicate 48 0 ++ leBytes 4 (364 + textSize) ++ leBytes 4 1 ++
      List.replicate 16 0⟩,
    ⟨LoadCommandType.functionStarts, leBytes 4 (368 + textSize) ++ leBytes 4 3⟩,
    MachO.libraryCommand LoadCommandType.loadDylib [0x4c]]

/-- The distance of the function from the start of the text. -/
def sampleDelta : Varint where
  init := [0xd8]
  last := 0x02
  continues := List.forall_mem_singleton.mpr (by decide)
  ends := rfl
  length_lt := by decide
  value_lt := by decide

/-- The commands, the text, the symbol of the first library, its name, its number and the function
starts. -/
def sampleImage (text : List UInt32) : Bytes :=
  MachO.imageOf (sampleCommands (4 * text.length)) ++
    text.flatMap (fun inst => leBytes 4 inst.toNat) ++
    (leBytes 4 0 ++ [1, 0, 0, 1] ++ leBytes 8 0) ++ [0x66, 0, 0, 0] ++ leBytes 4 0 ++
    FunctionStarts.payload [sampleDelta] 1

def sampleScan (text : List UInt32) : TextScan where
  textInstr := (List.range (86 + text.length)).map fun i =>
    UInt32.ofNat (ofLE (((sampleImage text).drop (4 * i)).take 4))
  textSeg := ⟨0x1000, 0⟩
  symbolStubAddr := 0x2000
  funcStarts := FunctionStarts.payload [sampleDelta] 1

/-- The call is right behind the move. -/
def moveThenCall : List UInt32 := [movz true 0 1 0, blWord 0x115c 0x2000]

/-- At the call the function's start is the greatest, and is found to be. -/
theorem isGreatest_sampleDelta :
    IsGreatest {x | x ∈ FunctionStarts.starts 0 [sampleDelta] ∧ x ≤ 4 * 87} 344 ∧
      IsGreatest {x | x ∈ FunctionStarts.searchStarts [sampleDelta] 1 ∧ x ≤ 4 * 87} 344 := by
  have hstarts : FunctionStarts.starts 0 [sampleDelta] = [344] := by decide
  have hsearch : FunctionStarts.searchStarts [sampleDelta] 1 = [0, 344] := by decide
  rw [hstarts, hsearch]
  refine ⟨⟨⟨by decide, by decide⟩, fun x hx => ?_⟩, ⟨by decide, by decide⟩, fun x hx => ?_⟩
  · exact (List.mem_singleton.mp hx.1).le
  · have hmem := hx.1
    simp only [List.mem_cons, List.not_mem_nil, or_false] at hmem
    omega

theorem searches_moveThenCall :
    Searches (sampleScan moveThenCall) [sampleDelta] 1 87 86 87 where
  stepsBack pre v cur suf heq := by
    have hlen := congrArg List.length heq
    simp only [List.length_append, List.length_cons, List.length_nil] at hlen
    omega
  range := ⟨344, isGreatest_sampleDelta.2, rfl, rfl⟩
  inside := by decide

theorem tellsAll_moveThenCall : TellsAll (sampleScan moveThenCall) [sampleDelta] 1 := by
  have honly : ∀ i < 88, IsCall (sampleScan moveThenCall) i → i = 87 := by decide +kernel
  have hmove : IsMove (sampleScan moveThenCall) 86 := by decide +kernel
  intro i hcall
  obtain rfl := honly i hcall.lt hcall
  refine ⟨86, 87, searches_moveThenCall, .inr ⟨86, ?_, ?_, hmove, rfl⟩⟩
  · exact ⟨le_refl 86, by decide, hmove, fun m hgt hlt => by omega⟩
  · exact ⟨by decide, 344, isGreatest_sampleDelta.1, by decide⟩

/-- With another instruction between the move and the call, that one's address is printed. -/
def moveNopCall : List UInt32 := [movz true 0 1 0, 0xd503201f, blWord 0x1160 0x2000]

end CallFinder
end JevMachO

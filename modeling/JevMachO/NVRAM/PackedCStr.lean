import JevMachO.Common

/-! The variables of an NVRAM partition: C strings back to back, closed by an empty one. The end
is looked for when the iterator steps, not where it begins. -/
namespace JevMachO
open Lib

/-- `std::strlen`. -/
def strlen (mem : Bytes) (p : ℕ) : Exec ℕ := do
  return (← cstr mem p).length

/-- `PackedCStrIteratorBase`: a `const char *`, null at the end of an `EmptyStringTerminated`
list. -/
abbrev PackedCStrIterator := Option ℕ

namespace PackedCStrIterator

/-- `operator++`. -/
def next (emptyStringTerminated : Bool) (mem : Bytes) (it : PackedCStrIterator) :
    Exec PackedCStrIterator := do
  match it with
  | none => .error .nullDeref
  | some p =>
    let p := p + (← strlen mem p) + 1
    if emptyStringTerminated then
      if (← strlen mem p) = 0 then return none
    return some p

/-- The walk up to an end iterator. `operator*` gives the pointer itself. -/
def cursor (emptyStringTerminated : Bool) (mem : Bytes) (last : PackedCStrIterator) :
    Cursor Fault PackedCStrIterator (Option ℕ) where
  atEnd it := .ok (it == last)
  deref it := .ok it
  next := next emptyStringTerminated mem
  stuck := .endless

end PackedCStrIterator

namespace CHRPNVRAMHeader

/-- `sizeof(CHRPNVRAMHeader)`: signature, checksum, length in blocks, and a 12-byte name. -/
def sizeofHeader : ℕ := 16

def sizeBlocks (mem : Bytes) (hdr : ℕ) : Exec ℕ := do
  return ofLE (← load mem (hdr + 2) 2)

def sizeBytes (mem : Bytes) (hdr : ℕ) : Exec ℕ := do
  return (← sizeBlocks mem hdr) * 0x10

def data (hdr : ℕ) : ℕ := hdr + sizeofHeader

end CHRPNVRAMHeader

namespace NVRAM

def eqChr : UInt8 := 0x3d

/-- The text before the `=`, empty when there is none. -/
def varName (mem : Bytes) (varEqValStr : Option ℕ) : Exec Bytes := do
  match varEqValStr with
  | none => return []
  | some p =>
    let s ← cstr mem p
    if eqChr ∈ s then return s.takeWhile (· ≠ eqChr) else return []

/-- Where the text behind the `=` begins. -/
def varValue (mem : Bytes) (varEqValStr : Option ℕ) : Exec (Option ℕ) := do
  match varEqValStr with
  | none => return none
  | some p =>
    let s ← cstr mem p
    if eqChr ∈ s then return some (p + (s.takeWhile (· ≠ eqChr)).length + 1) else return none

end NVRAM

/-- The Apple header and the two partitions behind it. -/
structure NVRAMProxyData where
  appleHdr : ℕ
  commonPart : ℕ
  systemPart : ℕ
  deriving DecidableEq, Repr

namespace NVRAM

/-- `sizeof(AppleNVRAMHeader)`. -/
def sizeofAppleHeader : ℕ := 32

def extractProxyData (mem : Bytes) (nvramProxyDataBuf : ℕ) : Exec NVRAMProxyData := do
  let commonPart := nvramProxyDataBuf + sizeofAppleHeader
  return ⟨nvramProxyDataBuf, commonPart, commonPart + (← CHRPNVRAMHeader.sizeBytes mem commonPart)⟩

end NVRAM

namespace NVRAMPartition

def varsCbegin (part : ℕ) : PackedCStrIterator := some (CHRPNVRAMHeader.data part)

def varsCend : PackedCStrIterator := none

/-- The range of variables. -/
def vars (mem : Bytes) : Cursor Fault PackedCStrIterator (Option ℕ) :=
  PackedCStrIterator.cursor true mem varsCend

/-- The first variable with the name; the end iterator, dereferenced, is null. -/
def varNamed (mem : Bytes) (part : ℕ) (name : Bytes) : Exec (Option ℕ) := do
  let it ← (vars mem).findIf (fun varEqValStr => do
    return (← NVRAM.varName mem varEqValStr) == name) (mem.length + 1) (varsCbegin part)
  (vars mem).deref it

/-- The strings a walk over `vars()` yields. -/
def varStrings (mem : Bytes) (part : ℕ) : Exec (List Bytes) :=
  (vars mem).accumulate (fun strs var => do
    match var with
    | none => .error .nullDeref
    | some p => return strs ++ [← cstr mem p]) (mem.length + 1) (varsCbegin part) []

end NVRAMPartition

/-! ### Packed strings -/

/-- Every string with its NUL, and the empty string that closes the list. -/
def packed (strs : List Bytes) : Bytes := strs.flatMap (· ++ [0]) ++ [0]

/-- Strings a packed list can hold. -/
def Packable (s : Bytes) : Prop := s ≠ [] ∧ (0 : UInt8) ∉ s

instance (s : Bytes) : Decidable (Packable s) := inferInstanceAs (Decidable (_ ∧ _))

/-- The strings of a list packed at `o`, each with its offset. -/
def packedAt (o : ℕ) (strs : List Bytes) : List (ℕ × Bytes) :=
  locate (fun s => s.length + 1) o strs

theorem packed_cons (s : Bytes) (strs : List Bytes) :
    packed (s :: strs) = (s ++ [0]) ++ packed strs := by
  simp [packed]

theorem cstr_packed_cons {mem : Bytes} {o : ℕ} {s : Bytes} {strs : List Bytes}
    (h : At mem o (packed (s :: strs))) (hs : (0 : UInt8) ∉ s) : cstr mem o = .ok s := by
  rw [packed_cons, at_append] at h
  rw [cstr_of_at h.1 (by simp), untilNul, takeWhile_ne_append hs]

theorem cstr_packed_nil {mem : Bytes} {o : ℕ} (h : At mem o (packed [])) : cstr mem o = .ok [] :=
  cstr_of_at h (List.mem_singleton_self 0)

/-- A step from one string to the next, or to the end behind the last. -/
theorem next_packed {mem : Bytes} {o : ℕ} {s : Bytes} {strs : List Bytes}
    (h : At mem o (packed (s :: strs))) (hok : ∀ t ∈ s :: strs, Packable t) :
    PackedCStrIterator.next true mem (some o) =
      .ok (if strs = [] then none else some (o + (s.length + 1))) := by
  have hs := cstr_packed_cons h (hok s (by simp)).2
  rw [packed_cons, at_append, List.length_append, List.length_singleton] at h
  simp only [PackedCStrIterator.next, strlen, hs, ok_bind, pure_eq_ok, Nat.add_assoc, if_true]
  cases strs with
  | nil => simp [cstr_packed_nil h.2]
  | cons t strs =>
    obtain ⟨hne, h0⟩ := hok t (by simp)
    simp [cstr_packed_cons h.2 h0, hne]

/-- From the first of some strings on, the walk sees every one and ends. -/
theorem visits_packed {mem : Bytes} {o : ℕ} {strs : List Bytes} (h : At mem o (packed strs))
    (hok : ∀ s ∈ strs, Packable s) (hne : strs ≠ []) :
    (NVRAMPartition.vars mem).Visits (some o) ((packedAt o strs).map fun q => some q.1) := by
  induction strs generalizing o with
  | nil => exact absurd rfl hne
  | cons s strs ih =>
    have hnext := next_packed h hok
    rw [packed_cons, at_append, List.length_append, List.length_singleton] at h
    refine .cons rfl rfl hnext ?_
    by_cases hrest : strs = []
    · subst hrest
      exact .nil rfl
    · rw [if_neg hrest]
      exact ih h.2 (fun t ht => hok t (List.mem_cons_of_mem s ht)) hrest

private theorem foldlM_cstr {mem : Bytes} {xs : List (ℕ × Bytes)}
    (h : ∀ q ∈ xs, cstr mem q.1 = .ok q.2) (acc : List Bytes) :
    xs.foldlM (fun strs q => do return strs ++ [← cstr mem q.1]) acc =
      (.ok (acc ++ xs.map Prod.snd) : Exec _) := by
  induction xs generalizing acc with
  | nil => simp
  | cons x xs ih =>
    rw [List.foldlM_cons, h x (by simp), ok_bind, pure_eq_ok, ok_bind,
      ih fun q hq => h q (List.mem_cons_of_mem x hq)]
    simp

/-- Every string is read back where it was packed. -/
theorem cstr_packedAt {mem : Bytes} {o : ℕ} {strs : List Bytes} (h : At mem o (packed strs))
    (hok : ∀ s ∈ strs, Packable s) : ∀ q ∈ packedAt o strs, cstr mem q.1 = .ok q.2 := by
  induction strs generalizing o with
  | nil => simp [packedAt]
  | cons s strs ih =>
    have hs := cstr_packed_cons h (hok s (by simp)).2
    rw [packed_cons, at_append, List.length_append, List.length_singleton] at h
    intro q hq
    rw [packedAt, locate_cons, List.mem_cons] at hq
    rcases hq with rfl | hq
    · exact hs
    · exact ih h.2 (fun t ht => hok t (List.mem_cons_of_mem s ht)) q hq

theorem length_le_packed (strs : List Bytes) : strs.length < (packed strs).length := by
  induction strs with
  | nil => simp [packed]
  | cons s strs ih =>
    rw [packed_cons, List.length_append, List.length_append, List.length_cons]
    simp only [List.length_singleton]
    omega

theorem length_strs_lt {mem : Bytes} {o : ℕ} {strs : List Bytes} (h : At mem o (packed strs)) :
    strs.length < mem.length := by
  have hl := h.length_le (by simp [packed])
  have := length_le_packed strs
  omega

namespace NVRAMPartition
variable {mem : Bytes} {part : ℕ} {strs : List Bytes}

theorem varStrings_eq (h : At mem (CHRPNVRAMHeader.data part) (packed strs))
    (hok : ∀ s ∈ strs, Packable s) (hne : strs ≠ []) : varStrings mem part = .ok strs := by
  have hlt := length_strs_lt h
  have hv := visits_packed h hok hne
  unfold varStrings varsCbegin
  rw [hv.accumulate _ _ (by simp [packedAt]; omega), List.foldlM_map,
    foldlM_cstr (cstr_packedAt h hok), packedAt, map_snd_locate, List.nil_append]

/-- The text before the `=` of a variable. -/
def nameOf (s : Bytes) : Bytes :=
  if NVRAM.eqChr ∈ s then s.takeWhile (· ≠ NVRAM.eqChr) else []

/-- `var_named` finds the first variable with the name. -/
theorem varNamed_eq (h : At mem (CHRPNVRAMHeader.data part) (packed strs))
    (hok : ∀ s ∈ strs, Packable s) (hne : strs ≠ []) (name : Bytes) :
    varNamed mem part name =
      .ok (((packedAt (CHRPNVRAMHeader.data part) strs).find? fun q => nameOf q.2 == name).map
        Prod.fst) := by
  have hlt := length_strs_lt h
  obtain ⟨it, hit, hv⟩ := (visits_packed h hok hne).findIf
    (fun varEqValStr => do return (← NVRAM.varName mem varEqValStr) == name)
    (fun q => nameOf q.2 == name) (by
      intro q hq
      simp only [NVRAM.varName, cstr_packedAt h hok q hq, ok_bind, pure_eq_ok, nameOf]
      split <;> rfl) (mem.length + 1) (by simp [packedAt]; omega)
  unfold varNamed varsCbegin
  rw [hit, ok_bind, List.find?_eq_head?_dropWhile_not]
  generalize (packedAt _ strs).dropWhile _ = rest at hv
  cases rest with
  | nil =>
    cases hv with
    | nil he => simpa [vars, PackedCStrIterator.cursor, varsCend] using he
  | cons q rest =>
    cases hv with
    | cons _ hd _ _ => exact hd

/-- Where the strings are all there is, the walk over an empty list runs off the end. -/
theorem varStrings_empty (hend : mem.length = CHRPNVRAMHeader.data part + 1)
    (h : At mem (CHRPNVRAMHeader.data part) (packed [])) :
    varStrings mem part = .error .outOfBounds := by
  have hs := cstr_packed_nil h
  have hpast : cstr mem (CHRPNVRAMHeader.data part + 1) = .error .outOfBounds := by
    unfold cstr
    rw [List.drop_of_length_le (by omega)]
    simp
  unfold varStrings Cursor.accumulate
  simp [vars, PackedCStrIterator.cursor, PackedCStrIterator.next, varsCbegin, varsCend, strlen, hs,
    hpast]

/-- The walk yields exactly the strings, and it does so on the bytes up to the closing NUL alone:
an access behind them would be out of bounds. -/
def YieldsVars (mem : Bytes) (part : ℕ) (strs : List Bytes) : Prop :=
  varStrings mem part = .ok strs ∧
    varStrings (mem.take (CHRPNVRAMHeader.data part + (packed strs).length)) part = .ok strs

instance (mem : Bytes) (part : ℕ) (strs : List Bytes) : Decidable (YieldsVars mem part strs) :=
  inferInstanceAs (Decidable (_ ∧ _))

theorem yieldsVars_iff (h : At mem (CHRPNVRAMHeader.data part) (packed strs))
    (hok : ∀ s ∈ strs, Packable s) : YieldsVars mem part strs ↔ strs ≠ [] := by
  have hl := h.length_le (by simp [packed])
  have hcut : At (mem.take (CHRPNVRAMHeader.data part + (packed strs).length))
      (CHRPNVRAMHeader.data part) (packed strs) :=
    h.of_getElem? fun i hi => by rw [List.getElem?_take_of_lt (by omega)]
  constructor
  · rintro ⟨-, hy⟩ rfl
    have hlen : (mem.take (CHRPNVRAMHeader.data part + (packed []).length)).length =
        CHRPNVRAMHeader.data part + 1 := by
      rw [List.length_take, Nat.min_eq_left hl]
      rfl
    rw [varStrings_empty hlen hcut] at hy
    cases hy
  · exact fun hne => ⟨varStrings_eq h hok hne, varStrings_eq hcut hok hne⟩

/-- A partition header without content, as far as `vars()` looks. -/
def blankHeader : Bytes := List.replicate CHRPNVRAMHeader.sizeofHeader 0

theorem yieldsVars_twoVars :
    YieldsVars (blankHeader ++ packed [ascii ['a', '=', '1'], ascii ['b', '=']]) 0
      [ascii ['a', '=', '1'], ascii ['b', '=']] :=
  (yieldsVars_iff (by decide) (by decide)).mpr (by decide)

theorem not_yieldsVars_noVars :
    At (blankHeader ++ packed []) (CHRPNVRAMHeader.data 0) (packed []) ∧
      varStrings (blankHeader ++ packed []) 0 = .error .outOfBounds ∧
      ¬YieldsVars (blankHeader ++ packed []) 0 [] := by
  decide

end NVRAMPartition
end JevMachO

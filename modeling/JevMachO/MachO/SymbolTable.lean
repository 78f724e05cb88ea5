import JevMachO.CallFinder
import JevMachO.NVRAM.PackedCStr

/-! The string table of a symbol table. Its strings follow each other without anything behind the
last one, so that the walk has to arrive at the end the size of the table gives. -/
namespace JevMachO
open Lib

namespace SymtabCommand

def strtabSizeof (mem : Bytes) (symtab : ℕ) : Exec ℕ := do
  return (← loadU32 mem (symtab + 12)).toNat

def strtabCbegin (mem : Bytes) (macho symtab : ℕ) : Exec PackedCStrIterator := do
  return some (← strtabData mem macho symtab)

def strtabCend (mem : Bytes) (macho symtab : ℕ) : Exec PackedCStrIterator := do
  return some ((← strtabData mem macho symtab) + (← strtabSizeof mem symtab))

def strtabEntries (mem : Bytes) (macho symtab : ℕ) :
    Exec (Range Fault PackedCStrIterator (Option ℕ)) := do
  let first ← strtabCbegin mem macho symtab
  let last ← strtabCend mem macho symtab
  return ⟨first, PackedCStrIterator.cursor false mem last⟩

end SymtabCommand

/-- `name(strtab_data)`, a pointer. -/
def NList.namePtr (strtabData : ℕ) (nl : NList) : ℕ := strtabData + nl.strx.toNat

theorem NList.name_eq (mem : Bytes) (macho symtab : ℕ) (nl : NList) :
    nl.name mem macho symtab =
      SymtabCommand.strtabData mem macho symtab >>= fun strtabData =>
        cstr mem (nl.namePtr strtabData) := rfl

/-! ### Strings back to back -/

/-- The bytes of a table. -/
def strtab (strs : List Bytes) : Bytes := strs.flatMap (· ++ [0])

/-- The strings of a table at `o`, each with its offset. -/
def strtabAt (o : ℕ) (strs : List Bytes) : List (ℕ × Bytes) :=
  locate (fun s => s.length + 1) o strs

variable {mem : Bytes} {o : ℕ} {strs : List Bytes}

theorem length_strtabAt (o : ℕ) (strs : List Bytes) : (strtabAt o strs).length = strs.length :=
  length_locate _ o strs

/-- A table starts where it is put. -/
theorem strtabAt_add (d o : ℕ) (strs : List Bytes) :
    strtabAt (d + o) strs = (strtabAt o strs).map fun q => (d + q.1, q.2) := by
  induction strs generalizing o with
  | nil => rfl
  | cons s strs ih =>
    change (d + o, s) :: strtabAt (d + o + (s.length + 1)) strs = _
    rw [Nat.add_assoc, ih]
    rfl

/-- Every string is read back from its offset. -/
theorem cstr_strtabAt (h : At mem o (strtab strs)) (h0 : ∀ s ∈ strs, (0 : UInt8) ∉ s) :
    ∀ q ∈ strtabAt o strs, cstr mem q.1 = .ok q.2 := by
  intro q hq
  have henc : ∀ s : Bytes, (s ++ [0]).length = s.length + 1 := fun s => List.length_append
  have hat := locate_at (fun s : Bytes => s.length + 1) henc h q hq
  have hmem : q.2 ∈ strs := by
    rw [← map_snd_locate (fun s : Bytes => s.length + 1) o strs]
    exact List.mem_map_of_mem hq
  rw [cstr_of_at hat (by simp), untilNul_concat_nul, untilNul_of_not_mem (h0 q.2 hmem)]

theorem walks_strtabAt (h : At mem o (strtab strs)) (h0 : ∀ s ∈ strs, (0 : UInt8) ∉ s) :
    (PackedCStrIterator.cursor false mem (some (o + (strtab strs).length))).Walks (some o)
      ((strtabAt o strs).map fun q => some q.1) (some (o + (strtab strs).length)) := by
  induction strs generalizing o with
  | nil => exact .nil
  | cons s strs ih =>
    have hs := cstr_strtabAt h h0 (o, s) List.mem_cons_self
    have htab : strtab (s :: strs) = (s ++ [0]) ++ strtab strs := rfl
    rw [htab, at_append, List.length_append, List.length_singleton] at h
    have hrest := ih h.2 fun t ht => h0 t (List.mem_cons_of_mem s ht)
    have hlen : o + (strtab (s :: strs)).length =
        o + (s.length + 1) + (strtab strs).length := by
      rw [htab, List.length_append, List.length_append, List.length_singleton]
      exact (Nat.add_assoc _ _ _).symm
    rw [hlen]
    refine .cons ?_ rfl ?_ hrest
    · simp only [PackedCStrIterator.cursor]
      rw [beq_eq_false_iff_ne.mpr fun heq => ?_]
      have := Option.some.inj heq
      omega
    · simp only [PackedCStrIterator.cursor, PackedCStrIterator.next, strlen, hs, ok_bind,
        pure_eq_ok, Bool.false_eq_true, if_false, Nat.add_assoc]

/-! ### The table of a command -/

namespace SymtabCommand
variable {macho symtab : ℕ} {stroff strsize : UInt32}

/-- The walk over a table sees exactly its strings and ends where the table does, and a symbol
with a string's offset has that string as its name. -/
theorem strtabEntries_visits (hstroff : loadU32 mem (symtab + 8) = .ok stroff)
    (hstrsize : loadU32 mem (symtab + 12) = .ok strsize)
    (hat : At mem (macho + stroff.toNat) (strtab strs)) (h0 : ∀ s ∈ strs, (0 : UInt8) ∉ s)
    (hsize : strsize.toNat = (strtab strs).length) :
    ∃ rng last, strtabEntries mem macho symtab = .ok rng ∧
      strtabCend mem macho symtab = .ok last ∧
      rng.cursor.Walks rng.first
        ((strtabAt (macho + stroff.toNat) strs).map fun q => some q.1) last ∧
      (∀ n ≥ strs.length, rng.cursor.elements n rng.first =
        .ok ((strtabAt (macho + stroff.toNat) strs).map fun q => some q.1)) ∧
      (∀ q ∈ strtabAt (macho + stroff.toNat) strs, cstr mem q.1 = .ok q.2) ∧
      ∀ q ∈ strtabAt 0 strs, ∀ nl : NList, nl.strx.toNat = q.1 →
        cstr mem (nl.namePtr (macho + stroff.toNat)) = .ok q.2 := by
  have hdata : strtabData mem macho symtab = .ok (macho + stroff.toNat) := by
    simp only [strtabData, hstroff, ok_bind, pure_eq_ok]
  have hcbegin : strtabCbegin mem macho symtab = .ok (some (macho + stroff.toNat)) := by
    simp only [strtabCbegin, hdata, ok_bind, pure_eq_ok]
  have hcend : strtabCend mem macho symtab =
      .ok (some (macho + stroff.toNat + (strtab strs).length)) := by
    simp only [strtabCend, hdata, strtabSizeof, hstrsize, hsize, ok_bind, pure_eq_ok]
  have hentries : strtabEntries mem macho symtab = .ok ⟨some (macho + stroff.toNat),
      PackedCStrIterator.cursor false mem
        (some (macho + stroff.toNat + (strtab strs).length))⟩ := by
    simp only [strtabEntries, hcbegin, hcend, ok_bind, pure_eq_ok]
  have hwalks := walks_strtabAt hat h0
  have hread := cstr_strtabAt hat h0
  refine ⟨_, _, hentries, hcend, hwalks, fun n hn => ?_, hread, fun q hq nl hnl => ?_⟩
  · refine (hwalks.visits ?_).elements n ?_
    · exact congrArg Except.ok (beq_self_eq_true _)
    · rw [List.length_map, length_strtabAt]
      exact hn
  · rw [NList.namePtr, hnl]
    have hmem : (macho + stroff.toNat + q.1, q.2) ∈ strtabAt (macho + stroff.toNat) strs := by
      rw [← Nat.add_zero (macho + stroff.toNat), strtabAt_add]
      exact List.mem_map_of_mem hq
    exact hread _ hmem

/-- A command in front of a table with an empty string between two others. -/
def threeStrings : Bytes :=
  leBytes 4 0 ++ leBytes 4 0 ++ leBytes 4 16 ++ leBytes 4 7 ++
    strtab [ascii ['_', 'a'], [], ascii ['b', 'c']]

theorem strtabEntries_visits_three :
    ∃ rng last, strtabEntries threeStrings 0 0 = .ok rng ∧
      strtabCend threeStrings 0 0 = .ok last ∧
      rng.cursor.Walks rng.first [some 16, some 19, some 20] last ∧
      (∀ n ≥ 3, rng.cursor.elements n rng.first = .ok [some 16, some 19, some 20]) ∧
      (∀ q ∈ strtabAt 16 [ascii ['_', 'a'], [], ascii ['b', 'c']],
        cstr threeStrings q.1 = .ok q.2) ∧
      ∀ q ∈ strtabAt 0 [ascii ['_', 'a'], [], ascii ['b', 'c']], ∀ nl : NList,
        nl.strx.toNat = q.1 → cstr threeStrings (nl.namePtr 16) = .ok q.2 :=
  strtabEntries_visits (show loadU32 threeStrings (0 + 8) = .ok 16 by decide)
    (show loadU32 threeStrings (0 + 12) = .ok 7 by decide)
    (show At threeStrings (0 + 16) (strtab [ascii ['_', 'a'], [], ascii ['b', 'c']]) by decide)
    (by decide) (by decide)

end SymtabCommand
end JevMachO

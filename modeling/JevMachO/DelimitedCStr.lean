import JevMachO.Common

/-! The parts of a C string between delimiters. The iterator looks up its part when it is made,
so that none can be made from a null pointer, although the end is a null pointer. -/
namespace JevMachO
open Lib

/-- `std::strchr` for a character other than NUL. -/
def strchr (mem : Bytes) (p : ℕ) (c : UInt8) : Exec (Option ℕ) :=
  let s := (mem.drop p).takeWhile fun b => b ≠ c ∧ b ≠ 0
  match mem[p + s.length]? with
  | none => .error .outOfBounds
  | some b => .ok (if b = c then some (p + s.length) else none)

structure DelimitedCStrIterator where
  ptr : Option ℕ
  view : Bytes
  deriving DecidableEq, Repr

namespace DelimitedCStrIterator

/-- The default constructor. -/
def sentinel : DelimitedCStrIterator := ⟨none, []⟩

/-- The iterator at a pointer, with the view that `set_view` gives it. -/
def ofCStr (mem : Bytes) (delimiter : UInt8) (delimitedCStr : Option ℕ) :
    Exec DelimitedCStrIterator := do
  match delimitedCStr with
  | none => .error .nullDeref
  | some p =>
    match ← strchr mem p delimiter with
    | none => return ⟨some p, ← cstr mem p⟩
    | some nextDel => return ⟨some p, ← load mem p (nextDel - p)⟩

/-- `operator++`. -/
def next (mem : Bytes) (delimiter : UInt8) (it : DelimitedCStrIterator) :
    Exec DelimitedCStrIterator := do
  match it.ptr with
  | none => .error .nullDeref
  | some p =>
    match ← strchr mem p delimiter with
    | none => return sentinel
    | some nextDel => ofCStr mem delimiter (some (nextDel + 1))

/-- The range up to the default iterator. -/
def cursor (mem : Bytes) (delimiter : UInt8) : Cursor Fault DelimitedCStrIterator Bytes where
  atEnd it := .ok (it.ptr == sentinel.ptr)
  deref it := .ok it.view
  next := next mem delimiter
  stuck := .endless

end DelimitedCStrIterator

/-- `rangeForDelimitedCStr`, as its first iterator. -/
def rangeForDelimitedCStr (mem : Bytes) (delimiter : UInt8) (delimitedCStr : Option ℕ) :
    Exec DelimitedCStrIterator := DelimitedCStrIterator.ofCStr mem delimiter delimitedCStr

def rangeContainsStr {σ : Type} (rng : Cursor Fault σ Bytes) (n : ℕ) (first : σ)
    (strToFind : Bytes) : Exec Bool := rng.anyOf (fun str => .ok (str == strToFind)) n first

/-! ### The parts of a string -/

variable {mem : Bytes} {p : ℕ} {d : UInt8} {s : Bytes}

theorem strchr_eq {x : UInt8} (hat : At mem p (s ++ [x])) (hs : d ∉ s) (h0 : (0 : UInt8) ∉ s)
    (hx : x = d ∨ x = 0) :
    strchr mem p d = .ok (if x = d then some (p + s.length) else none) := by
  obtain ⟨rest, hrest⟩ := hat
  rw [List.append_assoc, List.singleton_append] at hrest
  have hpos : ∀ b ∈ s, decide (b ≠ d ∧ b ≠ 0) = true := by
    intro b hb
    rw [decide_eq_true_iff]
    constructor
    · rintro rfl
      exact hs hb
    · rintro rfl
      exact h0 hb
  have hneg : (x :: rest).takeWhile (fun b => b ≠ d ∧ b ≠ 0) = [] :=
    List.takeWhile_cons_of_neg (by rcases hx with rfl | rfl <;> simp)
  have htake : (mem.drop p).takeWhile (fun b => b ≠ d ∧ b ≠ 0) = s := by
    rw [← hrest, List.takeWhile_append_of_pos hpos, hneg, List.append_nil]
  have hget : mem[p + s.length]? = some x := by
    rw [← List.getElem?_drop, ← hrest, List.getElem?_append_right (Nat.le_refl _), Nat.sub_self]
    rfl
  simp only [strchr, htake, hget]

theorem length_splitOn (d : UInt8) (s : Bytes) : (s.splitOn d).length = s.count d + 1 := by
  induction s with
  | nil => rfl
  | cons b s ih =>
    rw [List.splitOn_cons_eq_if_modifyHead, List.count_cons]
    split_ifs
    · rw [List.length_cons, ih]
    · rw [List.length_modifyHead, ih, Nat.add_zero]

theorem length_splitOn_le (d : UInt8) (s : Bytes) : (s.splitOn d).length ≤ s.length + 1 := by
  rw [length_splitOn]
  exact Nat.succ_le_succ List.count_le_length

theorem not_mem_of_mem_splitOn (d : UInt8) (s : Bytes) : ∀ tok ∈ s.splitOn d, d ∉ tok := by
  induction s with
  | nil => simp
  | cons b s ih =>
    rw [List.splitOn_cons_eq_if_modifyHead]
    split_ifs with hb
    · rw [List.forall_mem_cons]
      exact ⟨List.not_mem_nil, ih⟩
    · cases hparts : s.splitOn d with
      | nil => exact fun tok htok => by cases htok
      | cons tok toks =>
        rw [hparts, List.forall_mem_cons] at ih
        rw [List.modifyHead_cons, List.forall_mem_cons, List.mem_cons, not_or]
        exact ⟨⟨fun hdb => hb (beq_iff_eq.mpr hdb.symm), ih.1⟩, ih.2⟩

theorem exists_visits_splitOn (hd : d ≠ 0) (hat : At mem p (s ++ [0])) (h0 : (0 : UInt8) ∉ s) :
    ∃ it, DelimitedCStrIterator.ofCStr mem d (some p) = .ok it ∧
      (DelimitedCStrIterator.cursor mem d).Visits it (s.splitOn d) := by
  induction hn : s.length using Nat.strong_induction_on generalizing s p with
  | _ n ih =>
    subst hn
    by_cases hmem : d ∈ s
    · obtain ⟨tok, rest, rfl, htok⟩ := List.eq_append_cons_of_mem hmem
      rw [List.mem_append, List.mem_cons, not_or, not_or] at h0
      rw [List.append_cons tok, List.append_assoc, at_append] at hat
      have hchr : strchr mem p d = .ok (some (p + tok.length)) := by
        rw [strchr_eq hat.1 htok h0.1 (.inl rfl), if_pos rfl]
      have hload : load mem p (p + tok.length - p) = .ok tok := by
        have hle := hat.1.length_le (by simp)
        rw [List.length_append] at hle
        rw [Nat.add_sub_cancel_left, load_of_le (by omega), (at_append.mp hat.1).1.take_drop]
      obtain ⟨it, hit, hv⟩ := ih rest.length (by simp; omega) (p := p + (tok ++ [d]).length)
        hat.2 h0.2.2 rfl
      rw [List.length_append, List.length_singleton, ← Nat.add_assoc] at hit
      refine ⟨⟨some p, tok⟩, ?_, ?_⟩
      · simp only [DelimitedCStrIterator.ofCStr, hchr, ok_bind, hload, pure_eq_ok]
      · rw [List.splitOn_append_cons_self_of_not_mem htok]
        refine .cons rfl rfl ?_ hv
        simp only [DelimitedCStrIterator.cursor, DelimitedCStrIterator.next, hchr, ok_bind, hit]
    · have hchr : strchr mem p d = .ok none := by
        rw [strchr_eq hat hmem h0 (.inr rfl), if_neg hd.symm]
      have hcstr : cstr mem p = .ok s := by
        rw [cstr_of_at hat (by simp), untilNul_concat_nul, untilNul_of_not_mem h0]
      have hnext : DelimitedCStrIterator.next mem d ⟨some p, s⟩ = .ok .sentinel := by
        simp only [DelimitedCStrIterator.next, hchr, ok_bind, pure_eq_ok]
      refine ⟨⟨some p, s⟩, ?_, ?_⟩
      · simp only [DelimitedCStrIterator.ofCStr, hchr, ok_bind, hcstr, pure_eq_ok]
      · rw [List.splitOn_eq_singleton hmem]
        exact .cons rfl rfl hnext (.nil rfl)

/-- The tokens of any C string: as many as there are delimiters and one more, also when it starts or
ends with a delimiter, and none of a delimiter is left in them. -/
theorem elements_rangeForDelimitedCStr (hd : d ≠ 0) (hat : At mem p (s ++ [0]))
    (h0 : (0 : UInt8) ∉ s) :
    ∃ it toks, rangeForDelimitedCStr mem d (some p) = .ok it ∧
      (∀ n ≥ toks.length, (DelimitedCStrIterator.cursor mem d).elements n it = .ok toks) ∧
      toks.length = s.count d + 1 ∧ (∀ tok ∈ toks, d ∉ tok) ∧ [d].intercalate toks = s := by
  obtain ⟨it, hit, hv⟩ := exists_visits_splitOn hd hat h0
  exact ⟨it, s.splitOn d, hit, fun n hn => hv.elements n hn, length_splitOn d s,
    not_mem_of_mem_splitOn d s, List.intercalate_splitOn d⟩

def commas : Bytes := ascii [',', 'a', ',', ',', 'b', ',']

theorem elements_rangeForDelimitedCStr_commas :
    ∃ it toks, rangeForDelimitedCStr (1 :: commas ++ [0]) 0x2c (some 1) = .ok it ∧
      (∀ n ≥ toks.length,
        (DelimitedCStrIterator.cursor (1 :: commas ++ [0]) 0x2c).elements n it = .ok toks) ∧
      toks.length = commas.count 0x2c + 1 ∧ (∀ tok ∈ toks, 0x2c ∉ tok) ∧
      [0x2c].intercalate toks = commas :=
  elements_rangeForDelimitedCStr (by decide) ⟨[], rfl⟩ (by decide)

end JevMachO

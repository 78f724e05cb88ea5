import JevMachO.NVRAM.PackedCStr

/-! Looking up variables. A name is compared with the text before the first `=` of each string,
and strings without `=` have the empty name. -/
namespace JevMachO
open Lib

namespace NVRAMPartition

/-- A partition with some variables behind its header. -/
structure HoldsVars (mem : Bytes) (part : ℕ) (strs : List Bytes) : Prop where
  at_packed : At mem (CHRPNVRAMHeader.data part) (packed strs)
  packable : ∀ s ∈ strs, Packable s
  ne_nil : strs ≠ []

structure VarName (k : Bytes) : Prop where
  ne_nil : k ≠ []
  no_eq : NVRAM.eqChr ∉ k

variable {mem : Bytes} {part : ℕ} {strs pre post : List Bytes} {k s v : Bytes}

theorem nameOf_eq_iff (hk : VarName k) : nameOf s = k ↔ ∃ v, s = k ++ NVRAM.eqChr :: v := by
  constructor
  · intro h
    unfold nameOf at h
    split_ifs at h with hs
    · obtain ⟨as, v, rfl, has⟩ := List.eq_append_cons_of_mem hs
      rw [takeWhile_ne_append has] at h
      exact ⟨v, by rw [h]⟩
    · exact absurd h.symm hk.ne_nil
  · rintro ⟨v, rfl⟩
    rw [nameOf, if_pos (by simp), takeWhile_ne_append hk.no_eq]

/-- Where the strings of a packed list in front of some string end. -/
def offsetBehind (part : ℕ) (pre : List Bytes) : ℕ :=
  CHRPNVRAMHeader.data part + (pre.map fun s => s.length + 1).sum

theorem find?_packedAt_eq_none (o : ℕ) (h : ∀ s ∈ strs, nameOf s ≠ k) :
    (packedAt o strs).find? (fun q => nameOf q.2 == k) = none := by
  rw [List.find?_eq_none]
  intro q hq
  have hmem : q.2 ∈ strs := by
    rw [← map_snd_locate (fun s => s.length + 1) o strs]
    exact List.mem_map_of_mem hq
  simpa using h q.2 hmem

theorem HoldsVars.varNamed_of_none (h : HoldsVars mem part strs)
    (hnone : ∀ s ∈ strs, nameOf s ≠ k) : varNamed mem part k = .ok none := by
  rw [varNamed_eq h.at_packed h.packable h.ne_nil, find?_packedAt_eq_none _ hnone]
  rfl

theorem HoldsVars.varNamed_of_first (h : HoldsVars mem part (pre ++ s :: post))
    (hs : nameOf s = k) (hpre : ∀ t ∈ pre, nameOf t ≠ k) :
    varNamed mem part k = .ok (some (offsetBehind part pre)) ∧
      cstr mem (offsetBehind part pre) = .ok s := by
  have hsplit : packedAt (CHRPNVRAMHeader.data part) (pre ++ s :: post) =
      packedAt (CHRPNVRAMHeader.data part) pre ++
        (offsetBehind part pre, s) :: packedAt (offsetBehind part pre + (s.length + 1)) post := by
    rw [packedAt, locate_append, locate_cons]
    rfl
  constructor
  · rw [varNamed_eq h.at_packed h.packable h.ne_nil, hsplit, List.find?_append,
      find?_packedAt_eq_none _ hpre, Option.none_or, List.find?_cons_of_pos (by simpa using hs)]
    rfl
  · have hmem : (offsetBehind part pre, s) ∈
        packedAt (CHRPNVRAMHeader.data part) (pre ++ s :: post) := by
      rw [hsplit]
      exact List.mem_append_right _ List.mem_cons_self
    exact cstr_packedAt h.at_packed h.packable _ hmem

theorem first_or_none (k : Bytes) (strs : List Bytes) :
    (∀ s ∈ strs, nameOf s ≠ k) ∨
      ∃ pre s post, strs = pre ++ s :: post ∧ nameOf s = k ∧ ∀ t ∈ pre, nameOf t ≠ k := by
  cases hf : strs.find? (fun s => nameOf s == k) with
  | none => exact .inl (by simpa [List.find?_eq_none] using hf)
  | some s =>
    obtain ⟨hs, pre, post, heq, hpre⟩ := List.find?_eq_some_iff_append.mp hf
    exact .inr ⟨pre, s, post, heq, by simpa using hs, by simpa using hpre⟩

theorem varValue_eq {p : ℕ} (hk : NVRAM.eqChr ∉ k)
    (h : cstr mem p = .ok (k ++ NVRAM.eqChr :: v)) :
    NVRAM.varValue mem (some p) = .ok (some (p + k.length + 1)) ∧
      cstr mem (p + k.length + 1) = .ok v := by
  constructor
  · have hmem : NVRAM.eqChr ∈ k ++ NVRAM.eqChr :: v := by simp
    simp only [NVRAM.varValue, h, ok_bind, if_pos hmem, takeWhile_ne_append hk, pure_eq_ok]
  · obtain ⟨h0, hat⟩ := cstr_eq_ok h
    rw [List.mem_append, List.mem_cons, not_or, not_or] at h0
    rw [List.append_cons k, List.append_assoc, at_append, List.length_append,
      List.length_singleton, ← Nat.add_assoc] at hat
    rw [cstr_of_at hat.2 (by simp), untilNul_concat_nul, untilNul_of_not_mem h0.2.2]

/-- The first string of the form `k=v` is found, and `v` is its value; nothing is found exactly
when no string has `k` before its first `=`. -/
structure FindsVar (mem : Bytes) (part : ℕ) (strs : List Bytes) (k : Bytes) : Prop where
  first : ∀ pre v post, strs = pre ++ (k ++ NVRAM.eqChr :: v) :: post →
    (∀ s ∈ pre, ∀ w, s ≠ k ++ NVRAM.eqChr :: w) →
    varNamed mem part k = .ok (some (offsetBehind part pre)) ∧
      cstr mem (offsetBehind part pre) = .ok (k ++ NVRAM.eqChr :: v) ∧
      ∃ q, NVRAM.varValue mem (some (offsetBehind part pre)) = .ok (some q) ∧ cstr mem q = .ok v
  null_iff : varNamed mem part k = .ok none ↔
    ∀ s ∈ strs, NVRAM.eqChr ∈ s → s.takeWhile (· ≠ NVRAM.eqChr) ≠ k
  has_eq : ∀ p, varNamed mem part k = .ok (some p) →
    ∃ s ∈ strs, cstr mem p = .ok s ∧ NVRAM.eqChr ∈ s

theorem findsVar (h : HoldsVars mem part strs) (hk : VarName k) : FindsVar mem part strs k where
  first pre v post heq hpre := by
    subst heq
    have hpre' : ∀ t ∈ pre, nameOf t ≠ k := fun t ht hname => by
      obtain ⟨w, hw⟩ := (nameOf_eq_iff hk).mp hname
      exact hpre t ht w hw
    obtain ⟨hvar, hs⟩ := h.varNamed_of_first ((nameOf_eq_iff hk).mpr ⟨v, rfl⟩) hpre'
    obtain ⟨hval, hv⟩ := varValue_eq hk.no_eq hs
    exact ⟨hvar, hs, _, hval, hv⟩
  null_iff := by
    have hname : ∀ s, nameOf s ≠ k ↔
        (NVRAM.eqChr ∈ s → s.takeWhile (· ≠ NVRAM.eqChr) ≠ k) := by
      intro s
      unfold nameOf
      by_cases hs : NVRAM.eqChr ∈ s
      · rw [if_pos hs]
        exact ⟨fun hne _ => hne, fun hne => hne hs⟩
      · rw [if_neg hs]
        exact ⟨fun _ hmem => absurd hmem hs, fun _ => hk.ne_nil.symm⟩
    simp only [← hname]
    refine ⟨fun hnull => ?_, h.varNamed_of_none⟩
    rcases first_or_none k strs with hnone | ⟨pre, s, post, rfl, hs, hpre⟩
    · exact hnone
    · rw [(h.varNamed_of_first hs hpre).1] at hnull
      cases hnull
  has_eq p hp := by
    rcases first_or_none k strs with hnone | ⟨pre, s, post, rfl, hs, hpre⟩
    · rw [h.varNamed_of_none hnone] at hp
      cases hp
    · obtain ⟨hvar, hcstr⟩ := h.varNamed_of_first hs hpre
      obtain rfl := Option.some.inj (Except.ok.inj (hvar.symm.trans hp))
      obtain ⟨w, rfl⟩ := (nameOf_eq_iff hk).mp hs
      exact ⟨_, by simp, hcstr, by simp⟩

/-- Two variables, the second of them twice, and a string without `=` between them. -/
def someVars : List Bytes :=
  [ascii ['a', 'b', '=', '1'], ascii ['b'], ascii ['a', '=', '=', '2'], ascii ['a', '=']]

theorem findsVar_someVars :
    varNamed (blankHeader ++ packed someVars) 0 (ascii ['a']) = .ok (some 23) ∧
      FindsVar (blankHeader ++ packed someVars) 0 someVars (ascii ['a']) :=
  ⟨by decide, findsVar ⟨by decide, by decide, by decide⟩ ⟨by decide, by decide⟩⟩

end NVRAMPartition
end JevMachO

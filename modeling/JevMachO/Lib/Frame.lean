import JevMachO.Lib.Bytes
import Mathlib.Order.CompletePartialOrder
import Mathlib.Order.Interval.Set.Disjoint

/-! What a change of an image leaves alone, and forward copies between overlapping places. -/
namespace Lib

variable {β : Type*}

/-- The images have the same length and differ at most at the offsets in `S`. -/
def ChangedIn (S : Set ℕ) (mem mem' : List β) : Prop :=
  mem'.length = mem.length ∧ ∀ i, i ∉ S → mem'[i]? = mem[i]?

namespace ChangedIn

variable {S T : Set ℕ} {mem mem' mem'' : List β} {o n : ℕ} {bs : List β}

theorem refl (S : Set ℕ) (mem : List β) : ChangedIn S mem mem := ⟨rfl, fun _ _ => rfl⟩

theorem mono (h : ChangedIn S mem mem') (hST : S ⊆ T) : ChangedIn T mem mem' :=
  ⟨h.1, fun i hi => h.2 i fun hS => hi (hST hS)⟩

theorem trans (h : ChangedIn S mem mem') (h' : ChangedIn S mem' mem'') : ChangedIn S mem mem'' :=
  ⟨h'.1.trans h.1, fun i hi => (h'.2 i hi).trans (h.2 i hi)⟩

theorem symm (h : ChangedIn S mem mem') : ChangedIn S mem' mem :=
  ⟨h.1.symm, fun i hi => (h.2 i hi).symm⟩

theorem of_patch (h : patch mem o bs = some mem') :
    ChangedIn (Set.Ico o (o + bs.length)) mem mem' := by
  refine ⟨length_patch h, fun i hi => getElem?_patch_outside h ?_⟩
  rw [Set.mem_Ico] at hi
  omega

/-- What is read elsewhere is read unchanged. -/
theorem slice_eq (h : ChangedIn S mem mem') (hd : Disjoint (Set.Ico o (o + n)) S) :
    slice mem' o n = slice mem o n := by
  unfold slice
  rw [h.1]
  congr 2
  refine List.ext_getElem? fun i => ?_
  rw [List.getElem?_take, List.getElem?_take]
  split_ifs with hi
  · rw [List.getElem?_drop, List.getElem?_drop]
    exact h.2 _ (Set.disjoint_left.mp hd ⟨by omega, by omega⟩)
  · rfl

theorem at_of_at (h : ChangedIn S mem mem') (hd : Disjoint (Set.Ico o (o + bs.length)) S)
    (hat : At mem o bs) : At mem' o bs :=
  hat.of_getElem? fun i hi => h.2 _ (Set.disjoint_left.mp hd ⟨by omega, by omega⟩)

end ChangedIn

/-- A store that changes nothing stores what is there. -/
theorem patch_eq_self_iff {mem mem' : List β} {o : ℕ} {bs : List β}
    (h : patch mem o bs = some mem') : mem' = mem ↔ slice mem o bs.length = some bs := by
  have hin : o + bs.length ≤ mem.length := by
    unfold patch at h
    split_ifs at h with hin
    exact hin
  constructor
  · rintro rfl
    unfold slice
    rw [if_pos hin, (at_patch h).take_drop]
  · intro hs
    unfold slice at hs
    rw [if_pos hin] at hs
    have hbs := Option.some.inj hs
    refine List.ext_getElem? fun i => ?_
    rw [getElem?_patch h]
    split_ifs with hi
    · rw [← hbs, List.getElem?_take_of_lt (by omega), List.getElem?_drop]
      congr 1
      omega
    · rfl

/-! ### Forward copies -/

/-- `k` blocks of `w` elements each, copied in ascending order. -/
def copyBlocks (w : ℕ) : ℕ → List β → (src dst : ℕ) → Option (List β)
  | 0, mem, _, _ => some mem
  | k + 1, mem, src, dst => do
    let block ← slice mem src w
    let mem ← patch mem dst block
    copyBlocks w k mem (src + w) (dst + w)

/-- Copied downwards, every element arrives as it was: what the copy has overwritten so far is
behind what it still has to read. -/
theorem copyBlocks_eq {w k : ℕ} {mem : List β} {src dst : ℕ} (hle : dst ≤ src)
    (hin : src + k * w ≤ mem.length) :
    ∃ mem', copyBlocks w k mem src dst = some mem' ∧
      ChangedIn (Set.Ico dst (dst + k * w)) mem mem' ∧
      ∀ i < k * w, mem'[dst + i]? = mem[src + i]? := by
  induction k generalizing mem src dst with
  | zero =>
    refine ⟨mem, rfl, .refl _ mem, fun i hi => ?_⟩
    rw [Nat.zero_mul] at hi
    exact absurd hi (Nat.not_lt_zero i)
  | succ k ih =>
    rw [Nat.succ_mul] at hin ⊢
    have hslice : slice mem src w = some ((mem.drop src).take w) := if_pos (by omega)
    have hlen : ((mem.drop src).take w).length = w := by
      rw [List.length_take, List.length_drop]
      omega
    have hroom : dst + ((mem.drop src).take w).length ≤ mem.length := by omega
    obtain ⟨mem₁, h₁⟩ := patch_isSome hroom
    have hblock := getElem?_patch h₁
    have hfirst := ChangedIn.of_patch h₁
    rw [hlen] at hblock hfirst
    have hle' : dst + w ≤ src + w := by omega
    have hin' : src + w + k * w ≤ mem₁.length := by
      rw [hfirst.1]
      omega
    obtain ⟨mem', hmem', hrest, hcopied⟩ := ih hle' hin'
    refine ⟨mem', ?_, ?_, fun i hi => ?_⟩
    · rw [copyBlocks, hslice, Option.bind_eq_bind, Option.bind_some, h₁]
      exact hmem'
    · refine (hfirst.mono ?_).trans (hrest.mono ?_)
      · exact Set.Ico_subset_Ico_right (by omega)
      · exact Set.Ico_subset_Ico (by omega) (by omega)
    · by_cases hiw : i < w
      · rw [hrest.2 _ (by rw [Set.mem_Ico]; omega), hblock, if_pos (by omega),
          Nat.add_sub_cancel_left, List.getElem?_take_of_lt hiw, List.getElem?_drop]
      · obtain ⟨j, rfl⟩ := Nat.exists_eq_add_of_le (not_lt.mp hiw)
        rw [← Nat.add_assoc, hcopied j (by omega), hfirst.2 _ (by rw [Set.mem_Ico]; omega),
          Nat.add_assoc]

/-- What is read from moved elements is what was read where they were. -/
theorem slice_moved {mem mem' : List β} {src dst k : ℕ} (hlen : mem'.length = mem.length)
    (hmoved : ∀ i < k, mem'[dst + i]? = mem[src + i]?) {off n : ℕ} (hoff : off + n ≤ k)
    (hle : dst ≤ src) (hin : src + k ≤ mem.length) :
    slice mem' (dst + off) n = slice mem (src + off) n := by
  unfold slice
  rw [if_pos (by omega), if_pos (by omega)]
  congr 1
  refine List.ext_getElem? fun i => ?_
  rw [List.getElem?_take, List.getElem?_take]
  split_ifs with hi
  · rw [List.getElem?_drop, List.getElem?_drop, Nat.add_assoc, Nat.add_assoc]
    exact hmoved _ (by omega)
  · rfl

end Lib

import JevMachO.DeviceTree.Patch

/-! Runs of patches. As long as every store of eight bytes to four leaves zeros where zeros
were, the image changes only in the data of the properties patched. -/
namespace JevMachO
namespace DTree
open Lib

variable {split : SplitView} {mem mem' mem₀ : Bytes} {p : ℕ × DTree} {x y : ℕ × Property}
  {seen specs : List Bytes} {spec : Bytes} {v : ℕ}

/-! ### The data a run leaves -/

theorem length_finalData (specs : List Bytes) (x : ℕ × Property) :
    (finalData split p specs x).length = x.2.data.length := by
  unfold finalData
  split <;> simp

theorem finalData_append_of_none (h : accepted split p spec = none) (x : ℕ × Property) :
    finalData split p (seen ++ [spec]) x = finalData split p seen x := by
  simp [finalData, h]

theorem finalData_append_self (h : accepted split p spec = some (x, v)) :
    finalData split p (seen ++ [spec]) x = leBytes x.2.data.length v := by
  simp [finalData, h]

theorem finalData_append_of_ne (h : accepted split p spec = some (x, v)) (hxy : x.1 ≠ y.1) :
    finalData split p (seen ++ [spec]) y = finalData split p seen y := by
  simp [finalData, h, hxy]

/-! ### Stores that stay in place -/

/-- The four bytes after four bytes of data are in the image and zero. -/
def TailClear (mem : Bytes) (x : ℕ × Property) : Prop :=
  At mem (DTProp.data x.1 + 4) (List.replicate 4 0)

instance (mem : Bytes) (x : ℕ × Property) : Decidable (TailClear mem x) :=
  inferInstanceAs (Decidable (At _ _ _))

/-- The tail of a property of four bytes is in no property's data. -/
theorem notInData_tail (hx : x ∈ allProperties p) (hy : y ∈ allProperties p)
    (h4 : x.2.data.length = 4) {i : ℕ} (hlo : DTProp.data x.1 + 4 ≤ i)
    (hhi : i < DTProp.data x.1 + 8) : ¬InData y i := by
  intro hd
  have hys := data_lt_size y.2
  have hxs := size_pos x.2
  have hx4 : x.2.size = 40 := by simp only [Property.size, DTProp.sizeofProp, h4]
  simp only [InData, DTProp.data, DTProp.sizeofProp] at hd hlo hhi hys
  rcases properties_apart hx hy with rfl | h <;> omega

/-- Eight bytes stored at data of four or eight end before the data of any other property. -/
theorem store_apart (hx : x ∈ allProperties p) (hy : y ∈ allProperties p) (hne : x ≠ y)
    (h48 : x.2.data.length = 4 ∨ x.2.data.length = 8) :
    DTProp.data x.1 + 8 ≤ DTProp.data y.1 ∨
      DTProp.data y.1 + y.2.data.length ≤ DTProp.data x.1 := by
  have hys := data_lt_size y.2
  have hx40 : 40 ≤ x.2.size := by
    simp only [Property.size, DTProp.sizeofProp]
    omega
  simp only [DTProp.data, DTProp.sizeofProp] at hys ⊢
  rcases properties_apart hx hy with h | h
  · exact absurd h hne
  · omega

/-- What holds after a run whose stores stayed in place. -/
structure Progress (split : SplitView) (mem₀ : Bytes) (p : ℕ × DTree) (seen : List Bytes)
    (mem : Bytes) : Prop where
  length : mem.length = mem₀.length
  frame : ∀ i, (∀ spec ∈ seen, ∀ a, accepted split p spec = some a → ¬InData a.1 i) →
    mem[i]? = mem₀[i]?
  final : ∀ x ∈ allProperties p, At mem (DTProp.data x.1) (finalData split p seen x)

theorem Image.at_data (h : Image mem p) (hx : x ∈ allProperties p) :
    At mem (DTProp.data x.1) x.2.data := by
  obtain ⟨q, hq, hxq⟩ := mem_allProperties.mp hx
  exact Property.at_data ((h.sub hq).property_at hxq)

theorem Image.progress (h : Image mem p) : Progress split mem p [] mem :=
  ⟨rfl, fun _ _ => rfl, fun _ hx => h.at_data hx⟩

theorem Image.dataFits (h : Image mem p) : DataFits mem p := by
  intro x hx
  obtain ⟨q, hq, hxq⟩ := mem_allProperties.mp hx
  have hb := bounds_of_mem_propertiesAt hxq
  have hs := data_lt_size x.2
  have hq' := (h.sub hq).size_le
  have := headerSize_le_size q.2
  simp only [DTProp.data]
  omega

namespace Progress

theorem dataFits (h : Progress split mem₀ p seen mem) (hfit : DataFits mem₀ p) :
    DataFits mem p := fun x hx => h.length ▸ hfit x hx

/-- Names survive, since no patch is for a `name` property. -/
theorem laid (h : Progress split mem₀ p seen mem) (h₀ : Laid mem₀ p)
    (hname : ∀ spec ∈ seen, ∀ a, accepted split p spec = some a → a.1.2.name ≠ nameLit) :
    Laid mem p := by
  refine h₀.congr fun i hi => h.frame i fun spec hspec a ha => ?_
  exact hi a.1 (accepted_cases ha).2.1 (hname spec hspec a ha)

theorem skip (h : Progress split mem₀ p seen mem) (hn : accepted split p spec = none) :
    Progress split mem₀ p (seen ++ [spec]) mem where
  length := h.length
  frame i hi := h.frame i fun s hs => hi s (by simp [hs])
  final x hx := by
    rw [finalData_append_of_none hn]
    exact h.final x hx

/-- A store for an accepted patch, over zeros where it is too wide. -/
theorem store (h : Progress split mem₀ p seen mem) (ha : accepted split p spec = some (x, v))
    (hclear : x.2.data.length = 4 → TailClear mem₀ x)
    (hp : patch mem (DTProp.data x.1) (leBytes 8 v) = some mem') :
    Progress split mem₀ p (seen ++ [spec]) mem' where
  length := (length_patch hp).trans h.length
  frame i hi := by
    have hix : ¬InData x i := hi spec (by simp) (x, v) ha
    have hseen : mem[i]? = mem₀[i]? := h.frame i fun s hs => hi s (by simp [hs])
    by_cases hin : DTProp.data x.1 ≤ i ∧ i < DTProp.data x.1 + 8
    · -- only the tail of four-byte data is written without being data
      rcases (accepted_cases ha).2.2 with ⟨h4, hv⟩ | h8
      · have htail : DTProp.data x.1 + 4 ≤ i := by
          simp only [InData, h4] at hix
          omega
        obtain ⟨k, rfl⟩ := Nat.exists_eq_add_of_le htail
        have hk : k < 4 := by omega
        have hzero := (hclear h4).getElem? (i := k) (by simpa using hk)
        have hat := at_patch hp
        rw [leBytes_add 4 4, at_append, length_leBytes, Nat.div_eq_of_lt (by omega),
          leBytes_zero] at hat
        rw [hat.2.getElem? (by simpa using hk), hzero]
      · simp only [InData, h8] at hix
        omega
    · rw [getElem?_patch_outside hp (by rw [length_leBytes]; omega), hseen]
  final y hy := by
    obtain ⟨-, hx, h48⟩ := accepted_cases ha
    by_cases hxy : x = y
    · subst hxy
      rw [finalData_append_self ha]
      have hat := at_patch hp
      rcases h48 with ⟨h4, -⟩ | h8
      · rw [leBytes_add 4 4, at_append] at hat
        rw [h4]
        exact hat.1
      · rw [h8]
        exact hat
    · have hap := store_apart hx hy hxy (h48.imp And.left id)
      have hne : x.1 ≠ y.1 := by
        intro he
        have := size_pos x.2
        have := size_pos y.2
        rcases properties_apart hx hy with h | h
        · exact hxy h
        · omega
      rw [finalData_append_of_ne ha hne]
      refine (h.final y hy).of_getElem? fun i hi => ?_
      rw [length_finalData] at hi
      refine getElem?_patch_outside hp ?_
      rw [length_leBytes]
      simp only [DTProp.data, DTProp.sizeofProp] at hap ⊢
      omega

end Progress

end DTree
end JevMachO

import JevMachO.DeviceTree.Walk

/-! Where the records of a flattened tree lie. Headers of different nodes, properties of one
node, and the name, size word and data of a property are disjoint, so an image keeps its
frame, or its names, when only property data changes. -/
namespace JevMachO
namespace DTree
open Lib

variable {p q r : ℕ × DTree} {x y : ℕ × Property} {mem mem' : Bytes}

/-- All properties of a tree, each with the offset where it was flattened. -/
def allProperties (p : ℕ × DTree) : List (ℕ × Property) :=
  (nodesAt p.1 p.2).flatMap propertiesAt

def InData (x : ℕ × Property) (i : ℕ) : Prop :=
  DTProp.data x.1 ≤ i ∧ i < DTProp.data x.1 + x.2.data.length

theorem mem_allProperties : x ∈ allProperties p ↔ ∃ q ∈ nodesAt p.1 p.2, x ∈ propertiesAt q := by
  simp only [allProperties, List.mem_flatMap]

theorem data_lt_size (x : Property) : DTProp.sizeofProp + x.data.length ≤ x.size := by
  simp only [Property.size]
  omega

theorem bounds_of_mem_propertiesAt (hx : x ∈ propertiesAt p) :
    p.1 + 8 ≤ x.1 ∧ x.1 + x.2.size ≤ p.1 + p.2.headerSize := by
  have hb := locate_bounds Property.size hx
  simp only [headerSize, DTNode.sizeofNode] at hb ⊢
  omega

theorem size_pos (x : Property) : 36 ≤ x.size := by
  simp only [Property.size, DTProp.sizeofProp]
  omega

theorem nodes_apart (hq : q ∈ nodesAt p.1 p.2) (hr : r ∈ nodesAt p.1 p.2) :
    q = r ∨ q.1 + q.2.headerSize ≤ r.1 ∨ r.1 + r.2.headerSize ≤ q.1 := by
  by_cases h : q.1 < r.1 + r.2.headerSize ∧ r.1 < q.1 + q.2.headerSize
  · exact Or.inl (locate_unique headerSize headerSize_pos (mem_nodesAt.mp hq) (mem_nodesAt.mp hr)
      h.1 h.2)
  · omega

theorem properties_apart (hx : x ∈ allProperties p) (hy : y ∈ allProperties p) :
    x = y ∨ x.1 + x.2.size ≤ y.1 ∨ y.1 + y.2.size ≤ x.1 := by
  obtain ⟨q, hq, hxq⟩ := mem_allProperties.mp hx
  obtain ⟨r, hr, hyr⟩ := mem_allProperties.mp hy
  have hbx := bounds_of_mem_propertiesAt hxq
  have hby := bounds_of_mem_propertiesAt hyr
  rcases nodes_apart hq hr with rfl | h
  · by_cases h : x.1 < y.1 + y.2.size ∧ y.1 < x.1 + x.2.size
    · refine Or.inl (locate_unique Property.size ?_ hxq hyr h.1 h.2)
      intro z
      have := size_pos z
      omega
    · omega
  · omega

theorem counts_apart (hq : q ∈ nodesAt p.1 p.2) (hx : x ∈ allProperties p) :
    q.1 + 8 ≤ x.1 ∨ x.1 + x.2.size ≤ q.1 := by
  obtain ⟨r, hr, hxr⟩ := mem_allProperties.mp hx
  have hb := bounds_of_mem_propertiesAt hxr
  have hq8 : 8 ≤ q.2.headerSize := by
    simp only [headerSize, DTNode.sizeofNode]
    omega
  rcases nodes_apart hq hr with rfl | h
  · exact Or.inl hb.1
  · omega

theorem eq_of_property_eq (hq : q ∈ nodesAt p.1 p.2) (hr : r ∈ nodesAt p.1 p.2)
    (hx : x ∈ propertiesAt q) (hy : y ∈ propertiesAt r) (hxy : x.1 = y.1) : q = r := by
  have hbx := bounds_of_mem_propertiesAt hx
  have hby := bounds_of_mem_propertiesAt hy
  have hsx := size_pos x.2
  have hsy := size_pos y.2
  rcases nodes_apart hq hr with h | h
  · exact h
  · omega

/-! ### Images that agree -/

/-- The offset belongs to a count or a size word of the node. -/
def InFrame (q : ℕ × DTree) (i : ℕ) : Prop :=
  q.1 ≤ i ∧ i < q.1 + 8 ∨ ∃ x ∈ propertiesAt q, x.1 + 32 ≤ i ∧ i < x.1 + 36

theorem Framed.congr (h : Framed mem q) (hi : ∀ i, InFrame q i → mem'[i]? = mem[i]?) :
    Framed mem' q where
  nprops := h.nprops.of_getElem? fun i hlt => hi _ (Or.inl (by
    rw [length_leBytes] at hlt
    omega))
  nchildren := h.nchildren.of_getElem? fun i hlt => hi _ (Or.inl (by
    rw [length_leBytes] at hlt
    omega))
  sizeWord x hx := (h.sizeWord x hx).of_getElem? fun i hlt => hi _ (Or.inr ⟨x, hx, by
    rw [length_leBytes] at hlt
    omega⟩)
  headerSize_lt := h.headerSize_lt
  length_children_lt := h.length_children_lt

/-- Two images in which a node is framed agree on its frame. -/
theorem Framed.agree (h : Framed mem q) (h' : Framed mem' q) {i : ℕ} (hi : InFrame q i) :
    mem'[i]? = mem[i]? := by
  have hat : ∀ {o n : ℕ}, At mem o (leBytes 4 n) → At mem' o (leBytes 4 n) → o ≤ i → i < o + 4 →
      mem'[i]? = mem[i]? := by
    intro o n hm hm' hle hlt
    obtain ⟨k, rfl⟩ := Nat.exists_eq_add_of_le hle
    rw [hm.getElem? (by rw [length_leBytes]; omega), hm'.getElem? (by rw [length_leBytes]; omega)]
  rcases hi with hi | ⟨x, hx, hi⟩
  · by_cases h4 : i < q.1 + 4
    · exact hat h.nprops h'.nprops hi.1 h4
    · exact hat h.nchildren h'.nchildren (by omega) (by omega)
  · exact hat (h.sizeWord x hx) (h'.sizeWord x hx) hi.1 (by omega)

theorem notInData_of_inFrame (hq : q ∈ nodesAt p.1 p.2) (hx : x ∈ allProperties p) {i : ℕ}
    (hi : InFrame q i) : ¬InData x i := by
  intro hd
  have hxs := data_lt_size x.2
  simp only [InData, DTProp.data, DTProp.sizeofProp] at hd hxs
  rcases hi with hi | ⟨y, hy, hi⟩
  · have := counts_apart hq hx
    omega
  · have := size_pos y.2
    rcases properties_apart hx (mem_allProperties.mpr ⟨q, hq, hy⟩) with rfl | h <;> omega

/-- A tree stays laid out while only the data of properties other than `name` changes. -/
theorem Laid.congr (h : Laid mem p)
    (hi : ∀ i, (∀ x ∈ allProperties p, x.2.name ≠ nameLit → ¬InData x i) →
      mem'[i]? = mem[i]?) : Laid mem' p := by
  intro q hq
  have hmem : ∀ {y : ℕ × Property}, y ∈ propertiesAt q → y ∈ allProperties p :=
    fun hy => mem_allProperties.mpr ⟨q, hq, hy⟩
  have hq' := h q hq
  refine { hq'.toFramed.congr ?_ with nameBuf := ?_, nodeName := ?_ }
  · exact fun i hf => hi i fun x hx _ => notInData_of_inFrame hq hx hf
  · intro y hy
    refine (hq'.nameBuf y hy).of_getElem? fun i hlt => hi _ fun x hx _ hd => ?_
    have hxs := data_lt_size x.2
    have := size_pos y.2
    rw [y.2.length_nameBuf] at hlt
    simp only [InData, DTProp.data, DTProp.sizeofProp] at hd hxs
    rcases properties_apart hx (hmem hy) with rfl | h <;> omega
  · intro y hy hname
    refine (hq'.nodeName y hy hname).of_getElem? fun i hlt => hi _ fun x hx hne hd => ?_
    have hxs := data_lt_size x.2
    have hys := data_lt_size y.2
    simp only [InData, DTProp.data, DTProp.sizeofProp] at hd hxs hys hlt
    rcases properties_apart hx (hmem hy) with rfl | h
    · exact hne hname
    · omega

end DTree
end JevMachO

import JevMachO.DeviceTree.Walk

/-! Child iteration and node sizes. `children()` stops at the first `nchildren` nodes of the
preorder below a node; these are its children, and `node_sizeof` is the flattened length, for
every node of a tree exactly when no child with children of its own has a later sibling. -/
namespace JevMachO
namespace DTree
open Lib

namespace Laid
variable {mem : Bytes} {p : ℕ × DTree}

theorem scanned (h : Laid mem p) {q : ℕ × DTree} (hq : q ∈ scanned p) : Laid mem q :=
  h.sub (mem_nodesAt_of_scanned hq)

/-- The child iterator adds one header at a time, so it walks the preorder below the node. -/
theorem visits_children (h : Laid mem p) : (DTNode.cursor mem).Visits
    (.ofSize (p.1 + p.2.headerSize) (UInt32.ofNat p.2.children.length))
    ((DTree.scanned p).map Prod.fst) :=
  SizedIterator.visits _ _ (fun _ hq => (h _ (mem_nodesAt_of_below hq)).extent_eq)
    (Rose.length_le_forestPreorder _) h.self.length_children_lt

theorem childrenVisited_eq (h : Laid mem p) :
    DTNode.childrenVisited mem p.1 = .ok ((DTree.scanned p).map Prod.fst) := by
  unfold DTNode.childrenVisited
  rw [h.self.children_eq, ok_bind,
    SizedIterator.sz_ofSize _ _ h.self.length_children_lt]
  exact h.visits_children.elements _ (by
    rw [List.length_map]
    exact (Rose.length_scanned headerSize p).le)

theorem childrenVisited_iff (h : Laid mem p) :
    DTNode.childrenVisited mem p.1 = .ok ((childrenAt p).map Prod.fst) ↔
      p.2.OnlyLastBranches := by
  rw [h.childrenVisited_eq, Except.ok.injEq]
  exact Rose.scanned_eq_childrenAt_iff headerSize headerSize_pos p

/-- A child that branches only at its last children adds its whole flattened length. -/
theorem nodeSizeofWithin_eq (h : Laid mem p) (hb : ∀ s ∈ p.2.preorder, s.OnlyLastBranches)
    (depth : ℕ) (hd : p.2.size ≤ depth) :
    DTNode.nodeSizeofWithin mem depth p.1 = .ok (UInt32.ofNat p.2.size) := by
  induction depth generalizing p with
  | zero =>
    have := (headerSize_pos p.2).trans_le (headerSize_le_size p.2)
    omega
  | succ depth ih =>
    have hsnd : (DTree.scanned p).map Prod.snd = p.2.children :=
      Rose.map_snd_scanned headerSize (hb p.2 (Rose.self_mem_preorder p.2))
    have hsize : p.2.size = p.2.headerSize + (p.2.children.map size).sum :=
      Rose.extent_eq headerSize p.2
    have hchild : ∀ q ∈ DTree.scanned p,
        DTNode.nodeSizeofWithin mem depth q.1 = .ok (UInt32.ofNat q.2.size) := by
      intro q hq
      have hmem : q.2 ∈ p.2.children := hsnd ▸ List.mem_map_of_mem hq
      refine ih (h.scanned hq)
        (fun s hs => hb s (Rose.preorder_subset_of_mem_children hmem s hs)) ?_
      have hle : q.2.size ≤ (p.2.children.map size).sum :=
        List.single_le_sum (by simp) _ (List.mem_map_of_mem hmem)
      have := headerSize_pos p.2
      omega
    have hacc := accumulate_sizes h.visits_children (f := fun accum child => do
      return accum + (← DTNode.nodeSizeofWithin mem depth child)) size
      (fun q hq acc => by simp only [hchild q hq, ok_bind, pure_eq_ok])
      (n := p.2.children.length) (Rose.length_scanned headerSize p).le
    rw [hsnd] at hacc
    unfold DTNode.nodeSizeofWithin
    rw [h.self.propertiesSizeof_eq, ok_bind, DTNode.childrenSizeofWith,
      h.self.childrenCbegin_eq, ok_bind, SizedIterator.sz_ofSize _ _ h.self.length_children_lt,
      hacc, ok_bind, pure_eq_ok, hsize, headerSize, UInt32.ofNat_add, UInt32.ofNat_add]

theorem nodeSizeof_eq (h : Laid mem p) (hfit : p.2.size ≤ mem.length)
    (hb : ∀ s ∈ p.2.preorder, s.OnlyLastBranches) :
    DTNode.nodeSizeof mem p.1 = .ok (UInt32.ofNat p.2.size) :=
  h.nodeSizeofWithin_eq hb _ (hfit.trans (Nat.le_succ _))

end Laid

/-- At every node, `children()` visits the direct children where they were flattened, and
`node_sizeof()` is the flattened length. -/
def ChildrenAndSizesRight (mem : Bytes) (o : ℕ) (t : DTree) : Prop :=
  ∀ p ∈ nodesAt o t,
    DTNode.childrenVisited mem p.1 = .ok ((childrenAt p).map Prod.fst) ∧
      DTNode.nodeSizeof mem p.1 = .ok (UInt32.ofNat p.2.flatten.length)

theorem childrenAndSizesRight_iff {mem : Bytes} {o : ℕ} {t : DTree} (h : Image mem (o, t)) :
    ChildrenAndSizesRight mem o t ↔ ∀ s ∈ t.preorder, s.OnlyLastBranches := by
  constructor
  · intro hall s hs
    rw [← map_snd_locate headerSize o t.preorder, List.mem_map] at hs
    obtain ⟨p, hp, rfl⟩ := hs
    have hp' := mem_nodesAt.mpr hp
    exact (h.laid.sub hp').childrenVisited_iff.mp (hall p hp').1
  · intro hb p hp
    have hmem := mem_preorder_of_nodesAt (p := (o, t)) hp
    refine ⟨(h.laid.sub hp).childrenVisited_iff.mpr (hb _ hmem), ?_⟩
    have hfit := (h.sub hp).size_le
    rw [length_flatten]
    exact (h.laid.sub hp).nodeSizeof_eq (by omega)
      fun s hs => hb s (Rose.preorder_trans hmem hs)

/-- A root with a branching child before a leaf: the smallest shape the iterator gets wrong. -/
def branchingFirst : DTree := .node [] [.node [] [.node [] []], .node [] []]

theorem childrenAndSizesRight_chain :
    ChildrenAndSizesRight (flatten (.node [] [.node [] [], .node [] [.node [] []]])) 0
      (.node [] [.node [] [], .node [] [.node [] []]]) :=
  (childrenAndSizesRight_iff (image_flatten _ (by decide))).mpr (by decide)

theorem not_childrenAndSizesRight_branchingFirst :
    ¬ChildrenAndSizesRight branchingFirst.flatten 0 branchingFirst := by
  intro h
  have := (h (0, branchingFirst) List.mem_cons_self).1
  revert this
  decide

end DTree
end JevMachO

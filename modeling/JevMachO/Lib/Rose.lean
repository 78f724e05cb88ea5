import JevMachO.Lib.Bytes
import Mathlib.Algebra.Order.BigOperators.Group.List

/-! Finite rose trees and their preorder. A tree serialised as a node header followed by the
serialised children is the concatenation of the headers in preorder, so a scan that steps from
one header to the next walks the preorder, not the siblings. `scanned_eq_childrenAt_iff`
says when the two agree on a child list. -/
namespace Lib

inductive Rose (α : Type) where
  | node (label : α) (children : List (Rose α))

namespace Rose
variable {α : Type}

def label : Rose α → α
  | .node a _ => a

def children : Rose α → List (Rose α)
  | .node _ cs => cs

def IsLeaf (t : Rose α) : Prop := t.children = []

instance (t : Rose α) : Decidable t.IsLeaf := inferInstanceAs (Decidable (t.children = []))

@[simp] theorem label_node (a : α) (cs : List (Rose α)) : (node a cs).label = a := rfl

@[simp] theorem children_node (a : α) (cs : List (Rose α)) : (node a cs).children = cs := rfl

mutual
/-- A tree and all trees below it, each before its descendants. -/
def preorder : Rose α → List (Rose α)
  | .node a cs => .node a cs :: forestPreorder cs

def forestPreorder : List (Rose α) → List (Rose α)
  | [] => []
  | c :: cs => preorder c ++ forestPreorder cs
end

mutual
private theorem induct_tree {P : Rose α → Prop}
    (h : ∀ a cs, (∀ c ∈ cs, P c) → P (node a cs)) : ∀ t, P t
  | .node a cs => h a cs (induct_forest h cs)

private theorem induct_forest {P : Rose α → Prop}
    (h : ∀ a cs, (∀ c ∈ cs, P c) → P (node a cs)) : ∀ cs : List (Rose α), ∀ c ∈ cs, P c
  | [] => fun _ hc => absurd hc List.not_mem_nil
  | c :: cs => List.forall_mem_cons.mpr ⟨induct_tree h c, induct_forest h cs⟩
end

/-- Induction over a tree, with the hypothesis for every child. -/
@[elab_as_elim, induction_eliminator]
theorem induct {P : Rose α → Prop} (node : ∀ a cs, (∀ c ∈ cs, P c) → P (node a cs))
    (t : Rose α) : P t := induct_tree node t

theorem preorder_eq (t : Rose α) : t.preorder = t :: forestPreorder t.children := by
  cases t
  simp only [preorder, children_node]

@[simp] theorem forestPreorder_nil : forestPreorder ([] : List (Rose α)) = [] := rfl

@[simp] theorem forestPreorder_cons (c : Rose α) (cs : List (Rose α)) :
    forestPreorder (c :: cs) = preorder c ++ forestPreorder cs := rfl

theorem self_mem_preorder (t : Rose α) : t ∈ t.preorder := by
  rw [preorder_eq]
  exact List.mem_cons_self

theorem length_le_forestPreorder (cs : List (Rose α)) :
    cs.length ≤ (forestPreorder cs).length := by
  induction cs with
  | nil => exact le_rfl
  | cons c cs ih =>
    rw [forestPreorder_cons, List.length_append, preorder_eq, List.length_cons, List.length_cons]
    omega

theorem mem_forestPreorder_of_mem {cs : List (Rose α)} {c : Rose α} (h : c ∈ cs) :
    ∀ t ∈ c.preorder, t ∈ forestPreorder cs := by
  intro t ht
  induction cs with
  | nil => simp at h
  | cons d ds ih =>
    rw [forestPreorder_cons, List.mem_append]
    rcases List.mem_cons.mp h with rfl | h
    · exact Or.inl ht
    · exact Or.inr (ih h)

theorem exists_of_mem_forestPreorder {cs : List (Rose α)} {t : Rose α}
    (h : t ∈ forestPreorder cs) : ∃ c ∈ cs, t ∈ c.preorder := by
  induction cs with
  | nil => simp at h
  | cons c cs ih =>
    rw [forestPreorder_cons, List.mem_append] at h
    rcases h with h | h
    · exact ⟨c, by simp, h⟩
    · obtain ⟨d, hd, ht⟩ := ih h
      exact ⟨d, by simp [hd], ht⟩

theorem preorder_subset_of_mem_children {t c : Rose α} (h : c ∈ t.children) :
    ∀ s ∈ c.preorder, s ∈ t.preorder := by
  intro s hs
  rw [preorder_eq]
  exact List.mem_cons_of_mem _ (mem_forestPreorder_of_mem h s hs)

theorem preorder_trans {t s r : Rose α} (hs : s ∈ t.preorder) (hr : r ∈ s.preorder) :
    r ∈ t.preorder := by
  induction t with
  | node a cs ih =>
    rw [preorder_eq, List.mem_cons] at hs
    rcases hs with rfl | hs
    · exact hr
    · obtain ⟨c, hc, hsc⟩ := exists_of_mem_forestPreorder hs
      exact preorder_subset_of_mem_children hc r (ih c hc hsc)

/-! ### Serialised trees -/

section serialise
variable {β : Type} (hd : Rose α → List β) (len : Rose α → ℕ)

mutual
/-- A header for the node, then the children, one after the other. -/
def flatten : Rose α → List β
  | .node a cs => hd (.node a cs) ++ flattenForest cs

def flattenForest : List (Rose α) → List β
  | [] => []
  | c :: cs => flatten c ++ flattenForest cs
end

mutual
theorem flatten_eq_flatMap : ∀ t : Rose α, flatten hd t = t.preorder.flatMap hd
  | .node a cs => by
    unfold flatten
    rw [preorder, List.flatMap_cons, flattenForest_eq_flatMap cs]

theorem flattenForest_eq_flatMap :
    ∀ cs : List (Rose α), flattenForest hd cs = (forestPreorder cs).flatMap hd
  | [] => rfl
  | c :: cs => by
    unfold flattenForest
    rw [forestPreorder, List.flatMap_append, flatten_eq_flatMap c,
      flattenForest_eq_flatMap cs]
end

/-- Serialised length of a tree whose headers have the lengths `len`. -/
def extent (t : Rose α) : ℕ := (t.preorder.map len).sum

theorem extent_eq (t : Rose α) : t.extent len = len t + (t.children.map (extent len)).sum := by
  have hforest : ∀ cs : List (Rose α),
      ((forestPreorder cs).map len).sum = (cs.map (extent len)).sum := by
    intro cs
    induction cs with
    | nil => rfl
    | cons c cs ih =>
      rw [forestPreorder_cons, List.map_append, List.sum_append, ih, List.map_cons,
        List.sum_cons]
      rfl
  rw [extent, preorder_eq, List.map_cons, List.sum_cons, hforest]

theorem length_flatten {hd : Rose α → List β} (h : ∀ t, (hd t).length = len t) (t : Rose α) :
    (flatten hd t).length = t.extent len := by
  rw [flatten_eq_flatMap, length_flatMap_enc len h]
  rfl

theorem len_le_extent (t : Rose α) : len t ≤ t.extent len := by
  rw [extent_eq]
  omega

theorem extent_le_of_mem_preorder {s t : Rose α} (h : s ∈ t.preorder) :
    s.extent len ≤ t.extent len := by
  induction t with
  | node a cs ih =>
    rw [preorder_eq, List.mem_cons] at h
    rcases h with rfl | h
    · exact le_rfl
    · obtain ⟨c, hc, hs⟩ := exists_of_mem_forestPreorder h
      have hle : c.extent len ≤ (cs.map (extent len)).sum :=
        List.single_le_sum (by simp) _ (List.mem_map_of_mem hc)
      have := ih c hc hs
      rw [extent_eq len (.node a cs), children_node]
      omega

/-- An image that holds a serialised tree holds each of its subtrees where it is located. -/
theorem locate_preorder_at {hd : Rose α → List β} (h : ∀ t, (hd t).length = len t)
    {mem : List β} {o : ℕ} {t : Rose α} (ht : At mem o (flatten hd t)) :
    ∀ q ∈ locate len o t.preorder, At mem q.1 (flatten hd q.2) := by
  induction t generalizing o with
  | node a cs ih =>
    have hforest : ∀ (ds : List (Rose α)) (o' : ℕ), (∀ d ∈ ds, d ∈ cs) →
        At mem o' (flattenForest hd ds) →
        ∀ q ∈ locate len o' (forestPreorder ds), At mem q.1 (flatten hd q.2) := by
      intro ds
      induction ds with
      | nil => simp
      | cons d ds ihd =>
        intro o' hsub hat q hq
        rw [flattenForest, at_append, length_flatten len h] at hat
        rw [forestPreorder_cons, locate_append, List.mem_append] at hq
        rcases hq with hq | hq
        · exact ih d (hsub d (by simp)) hat.1 q hq
        · exact ihd _ (fun e he => hsub e (by simp [he])) hat.2 q hq
    intro q hq
    rw [preorder_eq, locate_cons, List.mem_cons] at hq
    rcases hq with rfl | hq
    · exact ht
    · rw [flatten, at_append, h] at ht
      exact hforest cs _ (fun _ hd => hd) ht.2 q hq

mutual
/-- Every node of a tree serialised at offset `o`, with the offset of its own serialisation. -/
def located (o : ℕ) : Rose α → List (ℕ × Rose α)
  | .node a cs => (o, .node a cs) :: locatedForest (o + len (.node a cs)) cs

def locatedForest (o : ℕ) : List (Rose α) → List (ℕ × Rose α)
  | [] => []
  | c :: cs => located o c ++ locatedForest (o + c.extent len) cs
end

mutual
theorem located_eq_locate : ∀ (o : ℕ) (t : Rose α), located len o t = locate len o t.preorder
  | o, .node a cs => by
    unfold located
    rw [preorder, locate_cons, locatedForest_eq_locate _ cs]

theorem locatedForest_eq_locate :
    ∀ (o : ℕ) (cs : List (Rose α)), locatedForest len o cs = locate len o (forestPreorder cs)
  | _, [] => rfl
  | o, c :: cs => by
    unfold locatedForest
    rw [forestPreorder, locate_append, located_eq_locate o c,
      locatedForest_eq_locate _ cs]
    rfl
end

/-- The direct children of a located node, each with the offset of its serialisation. -/
def childrenAt (p : ℕ × Rose α) : List (ℕ × Rose α) :=
  locate (extent len) (p.1 + len p.2) p.2.children

/-- The nodes a header-to-header scan of as many steps as there are children walks over. -/
def scanned (p : ℕ × Rose α) : List (ℕ × Rose α) :=
  (locate len (p.1 + len p.2) (forestPreorder p.2.children)).take p.2.children.length

theorem locate_forest_subset {cs : List (Rose α)} {c : Rose α} {o o' : ℕ}
    (hc : (o', c) ∈ locate (extent len) o cs) :
    ∀ q ∈ locate len o' c.preorder, q ∈ locate len o (forestPreorder cs) := by
  intro q hq
  induction cs generalizing o with
  | nil => simp at hc
  | cons d ds ih =>
    rw [forestPreorder_cons, locate_append, List.mem_append]
    rw [locate_cons, List.mem_cons] at hc
    rcases hc with hc | hc
    · obtain ⟨rfl, rfl⟩ := Prod.mk.inj hc
      exact Or.inl hq
    · exact Or.inr (ih hc)

theorem exists_child_of_mem_locate {cs : List (Rose α)} {o : ℕ} {q : ℕ × Rose α}
    (hq : q ∈ locate len o (forestPreorder cs)) :
    ∃ p ∈ locate (extent len) o cs, q ∈ locate len p.1 p.2.preorder := by
  induction cs generalizing o with
  | nil => simp at hq
  | cons c cs ih =>
    rw [forestPreorder_cons, locate_append, List.mem_append] at hq
    rcases hq with hq | hq
    · exact ⟨(o, c), by simp, hq⟩
    · obtain ⟨p, hp, hqp⟩ := ih hq
      exact ⟨p, by rw [locate_cons]; exact List.mem_cons_of_mem _ hp, hqp⟩

theorem childrenAt_subset {p q : ℕ × Rose α} (h : q ∈ childrenAt len p) :
    q ∈ locate len (p.1 + len p.2) (forestPreorder p.2.children) := by
  apply locate_forest_subset len (c := q.2) h q
  rw [preorder_eq, locate_cons]
  exact List.mem_cons_self

/-- The nodes of a subtree are located among the nodes of the tree. -/
theorem locate_preorder_trans {p q r : ℕ × Rose α} (hq : q ∈ locate len p.1 p.2.preorder)
    (hr : r ∈ locate len q.1 q.2.preorder) : r ∈ locate len p.1 p.2.preorder := by
  obtain ⟨o, t⟩ := p
  induction t generalizing o with
  | node a cs ih =>
    rw [preorder_eq, locate_cons, List.mem_cons] at hq
    rcases hq with rfl | hq
    · exact hr
    · rw [preorder_eq, locate_cons]
      apply List.mem_cons_of_mem _
      obtain ⟨p, hp, hqp⟩ := exists_child_of_mem_locate len hq
      obtain ⟨o', c⟩ := p
      have hc : c ∈ cs := by
        rw [← map_snd_locate (extent len) (o + len (.node a cs)) cs]
        exact List.mem_map_of_mem hp
      exact locate_forest_subset len hp r (ih c hc o' hqp)

/-- Every child but the last is a leaf. -/
def OnlyLastBranches (t : Rose α) : Prop := ∀ c ∈ t.children.dropLast, c.IsLeaf

instance (t : Rose α) : Decidable t.OnlyLastBranches :=
  inferInstanceAs (Decidable (∀ c ∈ t.children.dropLast, c.IsLeaf))

theorem extent_leaf {t : Rose α} (h : t.IsLeaf) : t.extent len = len t := by
  rw [extent_eq, show t.children = [] from h]
  simp

theorem len_lt_extent (hlen : ∀ t, 0 < len t) {t : Rose α} (h : ¬t.IsLeaf) :
    len t < t.extent len := by
  rw [extent_eq]
  obtain ⟨c, cs, hc⟩ := List.exists_cons_of_ne_nil h
  have := (hlen c).trans_le (len_le_extent len c)
  rw [hc, List.map_cons, List.sum_cons]
  omega

private theorem take_locate_eq_iff (hlen : ∀ t, 0 < len t) (o : ℕ) (cs : List (Rose α)) :
    ((locate len o (forestPreorder cs)).take cs.length).map Prod.fst =
        (locate (extent len) o cs).map Prod.fst ↔
      ∀ c ∈ cs.dropLast, c.IsLeaf := by
  induction cs generalizing o with
  | nil => simp
  | cons c cs ih =>
    rw [forestPreorder_cons, preorder_eq, List.cons_append]
    cases cs with
    | nil => simp
    | cons d ds =>
      by_cases hc : c.IsLeaf
      · have hn : c.children = [] := hc
        rw [hn, forestPreorder_nil, List.nil_append, List.dropLast_cons_cons]
        simp only [locate_cons, List.length_cons, List.take_succ_cons, List.map_cons,
          List.cons.injEq, true_and, List.forall_mem_cons, hc, extent_leaf len hc]
        simpa only [List.length_cons, locate_cons, List.map_cons] using ih (o + len c)
      · -- The scan's second stop is the first child of `c`, not its sibling.
        obtain ⟨e, es, he⟩ := List.exists_cons_of_ne_nil (show c.children ≠ [] from hc)
        have hlt := len_lt_extent len hlen hc
        rw [he, forestPreorder_cons, preorder_eq, List.dropLast_cons_cons]
        simp only [List.cons_append, locate_cons, List.length_cons, List.take_succ_cons,
          List.map_cons, List.cons.injEq, List.forall_mem_cons, hc, false_and, iff_false]
        omega

/-- The scan stops at the direct children exactly when only the last child branches. -/
theorem scanned_eq_childrenAt_iff (hlen : ∀ t, 0 < len t) (p : ℕ × Rose α) :
    (scanned len p).map Prod.fst = (childrenAt len p).map Prod.fst ↔ p.2.OnlyLastBranches :=
  take_locate_eq_iff len hlen _ _

private theorem take_preorder_of_leaves {cs : List (Rose α)}
    (h : ∀ c ∈ cs.dropLast, c.IsLeaf) : (forestPreorder cs).take cs.length = cs := by
  induction cs with
  | nil => rfl
  | cons c cs ih =>
    rw [forestPreorder_cons, preorder_eq, List.cons_append, List.length_cons,
      List.take_succ_cons]
    cases cs with
    | nil => simp
    | cons d ds =>
      rw [List.dropLast_cons_cons, List.forall_mem_cons] at h
      rw [show c.children = [] from h.1, forestPreorder_nil, List.nil_append, ih h.2]

/-- When only the last child branches, the scan walks over the children themselves. -/
theorem map_snd_scanned {p : ℕ × Rose α} (h : p.2.OnlyLastBranches) :
    (scanned len p).map Prod.snd = p.2.children := by
  unfold scanned
  rw [← locate_take, map_snd_locate, take_preorder_of_leaves h]

theorem length_scanned (p : ℕ × Rose α) : (scanned len p).length = p.2.children.length := by
  unfold scanned
  rw [List.length_take, length_locate]
  exact min_eq_left (length_le_forestPreorder _)

/-- What the scan walks over lies below the node. -/
theorem scanned_subset {p q : ℕ × Rose α} (h : q ∈ scanned len p) :
    q ∈ locate len (p.1 + len p.2) (forestPreorder p.2.children) := List.mem_of_mem_take h

end serialise
end Rose
end Lib

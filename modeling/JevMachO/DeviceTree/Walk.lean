import JevMachO.DeviceTree.Properties

/-! What the reader computes on an image of a flattened tree. Counts and size words alone steer
the iterators, so their lemmas ask for a node that is `Framed`; names are read from a node
that is `Labelled`; an image that holds the flattened tree has every node labelled. -/
namespace JevMachO
open Lib

namespace DTree

/-- Every node of a tree flattened at offset `o`, with the offset where it was flattened. -/
def nodesAt (o : ℕ) (t : DTree) : List (ℕ × DTree) := Rose.located headerSize o t

/-- The direct children of a node, each with the offset where it was flattened. -/
def childrenAt (p : ℕ × DTree) : List (ℕ × DTree) := Rose.childrenAt headerSize p

/-- The nodes the child iterator stops at. -/
def scanned (p : ℕ × DTree) : List (ℕ × DTree) := Rose.scanned headerSize p

theorem mem_nodesAt {o : ℕ} {t : DTree} {p : ℕ × DTree} :
    p ∈ nodesAt o t ↔ p ∈ locate headerSize o t.preorder := by
  unfold nodesAt
  rw [Rose.located_eq_locate]

theorem self_mem_nodesAt (p : ℕ × DTree) : p ∈ nodesAt p.1 p.2 := by
  rw [mem_nodesAt, Rose.preorder_eq, locate_cons]
  exact List.mem_cons_self

theorem mem_nodesAt_of_below {p q : ℕ × DTree}
    (hq : q ∈ locate headerSize (p.1 + p.2.headerSize) (Rose.forestPreorder p.2.children)) :
    q ∈ nodesAt p.1 p.2 := by
  rw [mem_nodesAt, Rose.preorder_eq, locate_cons]
  exact List.mem_cons_of_mem _ hq

theorem mem_nodesAt_of_scanned {p q : ℕ × DTree} (hq : q ∈ scanned p) : q ∈ nodesAt p.1 p.2 :=
  mem_nodesAt_of_below (Rose.scanned_subset headerSize hq)

theorem mem_nodesAt_of_childrenAt {p q : ℕ × DTree} (hq : q ∈ childrenAt p) :
    q ∈ nodesAt p.1 p.2 := mem_nodesAt_of_below (Rose.childrenAt_subset headerSize hq)

theorem nodesAt_trans {p q r : ℕ × DTree} (hq : q ∈ nodesAt p.1 p.2)
    (hr : r ∈ nodesAt q.1 q.2) : r ∈ nodesAt p.1 p.2 :=
  mem_nodesAt.mpr (Rose.locate_preorder_trans headerSize (mem_nodesAt.mp hq) (mem_nodesAt.mp hr))

theorem mem_preorder_of_nodesAt {p q : ℕ × DTree} (hq : q ∈ nodesAt p.1 p.2) :
    q.2 ∈ p.2.preorder := by
  rw [← map_snd_locate headerSize p.1 p.2.preorder]
  exact List.mem_map_of_mem (mem_nodesAt.mp hq)

/-! ### One node -/

/-- The counts and size words of a node are in place: what the iterators read. -/
structure Framed (mem : Bytes) (p : ℕ × DTree) : Prop where
  nprops : At mem p.1 (leBytes 4 p.2.label.length)
  nchildren : At mem (p.1 + 4) (leBytes 4 p.2.children.length)
  sizeWord : ∀ x ∈ propertiesAt p, At mem (x.1 + 32) (leBytes 4 x.2.sizeWord)
  headerSize_lt : p.2.headerSize < 2 ^ 31
  length_children_lt : p.2.children.length < 2 ^ 32

namespace Framed
variable {mem : Bytes} {p : ℕ × DTree}

theorem length_label_lt (h : Framed mem p) : p.2.label.length < 2 ^ 32 := by
  have hle := length_le_sum_size p.2.label
  have := h.headerSize_lt
  simp only [headerSize] at this
  omega

/-- The property table of the node. -/
theorem table (h : Framed mem p) : PropertyTable mem p.1 p.2.label :=
  ⟨h.nprops, h.sizeWord, h.length_label_lt⟩

theorem nchildren_eq (h : Framed mem p) :
    DTNode.nchildren mem p.1 = .ok (UInt32.ofNat p.2.children.length) :=
  loadU32_of_at h.nchildren

theorem properties_eq (h : Framed mem p) : DTNode.properties mem p.1 =
    .ok (.ofSize (p.1 + DTNode.sizeofNode) (UInt32.ofNat p.2.label.length)) :=
  h.table.properties_eq

/-- The property iterator stops at every property of the node. -/
theorem visits_properties (h : Framed mem p) : (DTProp.cursor mem).Visits
    (.ofSize (p.1 + DTNode.sizeofNode) (UInt32.ofNat p.2.label.length))
    ((propertiesAt p).map Prod.fst) := h.table.visits

theorem propertiesSizeof_eq (h : Framed mem p) : DTNode.propertiesSizeof mem p.1 =
    .ok (UInt32.ofNat (p.2.label.map Property.size).sum) := h.table.propertiesSizeof_eq

/-- The child iterator steps over one header. -/
theorem extent_eq (h : Framed mem p) :
    (do return DTNode.sizeofNode + (← DTNode.propertiesSizeof mem p.1).toNat : Exec ℕ) =
      .ok p.2.headerSize := by
  have := h.headerSize_lt
  unfold headerSize at this
  rw [h.propertiesSizeof_eq, ok_bind, u32_toNat_ofNat (by omega)]
  rfl

theorem childrenCbegin_eq (h : Framed mem p) : DTNode.childrenCbegin mem p.1 =
    .ok (.ofSize (p.1 + p.2.headerSize) (UInt32.ofNat p.2.children.length)) := by
  have hlt := h.headerSize_lt
  unfold headerSize at hlt
  have hps : (UInt32.ofNat (p.2.label.map Property.size).sum).toNat =
      (p.2.label.map Property.size).sum := u32_toNat_ofNat (by omega)
  simp only [DTNode.childrenCbegin, DTNode.childrenSize, h.nchildren_eq, ok_bind,
    h.propertiesSizeof_eq, hps, pure_eq_ok, headerSize, add_assoc]
  split
  · rfl
  · rename_i h0
    rw [not_ne_iff.mp h0]
    rfl

theorem children_eq (h : Framed mem p) : DTNode.children mem p.1 =
    .ok (.ofSize (p.1 + p.2.headerSize) (UInt32.ofNat p.2.children.length)) := by
  simp only [DTNode.children, DTNode.childrenSize, h.nchildren_eq, h.childrenCbegin_eq, ok_bind,
    pure_eq_ok]
  split
  · rename_i h0
    rw [h0]
    rfl
  · rfl

end Framed

/-- A framed node whose names can be read: every name field and the `name` property's data. -/
structure Labelled (mem : Bytes) (p : ℕ × DTree) : Prop extends Framed mem p where
  nameBuf : ∀ x ∈ propertiesAt p, At mem x.1 x.2.nameBuf
  nodeName : ∀ x ∈ propertiesAt p, x.2.name = nameLit → At mem (DTProp.data x.1) x.2.data

/-- `property_named` returns the first property with the name. -/
theorem Labelled.propertyNamed_eq {mem : Bytes} {p : ℕ × DTree} (h : Labelled mem p)
    (hn : ∀ x ∈ p.2.label, x.NameOk) (name : Bytes) :
    DTNode.propertyNamed mem p.1 name =
      .ok (((propertiesAt p).find? fun q => q.2.name == name).map Prod.fst) :=
  h.table.propertyNamed_eq h.nameBuf hn name

/-! ### A whole tree -/

/-- Every node of the tree is labelled in the image. Data other than node names is free. -/
def Laid (mem : Bytes) (p : ℕ × DTree) : Prop := ∀ q ∈ nodesAt p.1 p.2, Labelled mem q

theorem Laid.sub {mem : Bytes} {p q : ℕ × DTree} (h : Laid mem p) (hq : q ∈ nodesAt p.1 p.2) :
    Laid mem q := fun _ hr => h _ (nodesAt_trans hq hr)

theorem Laid.self {mem : Bytes} {p : ℕ × DTree} (h : Laid mem p) : Labelled mem p :=
  h p (self_mem_nodesAt p)

/-- An image that holds the flattened tree at its offset; the tree is below 2^31 bytes. -/
structure Image (mem : Bytes) (p : ℕ × DTree) : Prop where
  at_flatten : At mem p.1 p.2.flatten
  size_lt : p.2.size < 2 ^ 31

theorem image_flatten (t : DTree) (h : t.size < 2 ^ 31) : Image t.flatten (0, t) :=
  ⟨by simpa using at_zero t.flatten [], h⟩

namespace Image
variable {mem : Bytes} {p : ℕ × DTree}

theorem at_header (h : Image mem p) : At mem p.1 p.2.header := by
  have := h.at_flatten
  rw [flatten, Rose.flatten_eq_flatMap, Rose.preorder_eq, List.flatMap_cons, at_append] at this
  exact this.1

/-- A node inside the tree is itself held by the image. -/
theorem sub (h : Image mem p) {q : ℕ × DTree} (hq : q ∈ nodesAt p.1 p.2) : Image mem q :=
  ⟨Rose.locate_preorder_at headerSize length_header h.at_flatten q (mem_nodesAt.mp hq),
    (Rose.extent_le_of_mem_preorder headerSize (mem_preorder_of_nodesAt hq)).trans_lt h.size_lt⟩

theorem property_at (h : Image mem p) {q : ℕ × Property} (hq : q ∈ propertiesAt p) :
    At mem q.1 q.2.bytes := by
  have := h.at_header
  rw [header, at_append, List.length_append, length_leBytes, length_leBytes] at this
  exact locate_at Property.size Property.length_bytes this.2 q hq

theorem length_children_lt (h : Image mem p) : p.2.children.length < 2 ^ 32 := by
  have hle : p.2.children.length ≤ (p.2.children.map (Rose.extent headerSize)).sum := by
    have := List.card_nsmul_le_sum (p.2.children.map (Rose.extent headerSize)) 1 (by
      intro n hn
      obtain ⟨c, -, rfl⟩ := List.mem_map.mp hn
      exact (headerSize_pos c).trans_le (Rose.len_le_extent headerSize c))
    simpa using this
  have := h.size_lt
  rw [size, Rose.extent_eq] at this
  omega

theorem labelled (h : Image mem p) : Labelled mem p := by
  have hhead := h.at_header
  rw [header, List.append_assoc, at_append, at_append, length_leBytes] at hhead
  exact {
    nprops := hhead.1
    nchildren := hhead.2.1
    sizeWord := fun x hx => Property.at_sizeWord (h.property_at hx)
    headerSize_lt := (headerSize_le_size p.2).trans_lt h.size_lt
    length_children_lt := h.length_children_lt
    nameBuf := fun x hx => Property.at_nameBuf (h.property_at hx)
    nodeName := fun x hx _ => Property.at_data (h.property_at hx) }

theorem laid (h : Image mem p) : Laid mem p := fun _ hq => (h.sub hq).labelled

theorem size_le (h : Image mem p) : p.1 + p.2.size ≤ mem.length := by
  have hl := h.at_flatten.length_le (by
    intro hn
    have := (headerSize_pos p.2).trans_le (headerSize_le_size p.2)
    rw [← length_flatten, hn] at this
    simp at this)
  rwa [length_flatten] at hl

end Image
end DTree
end JevMachO

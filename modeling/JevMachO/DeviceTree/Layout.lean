import JevMachO.DeviceTree.Node
import JevMachO.Lib.Rose

/-! Finite device trees and their flattened form. A property carries the facts its encoding
needs: a 32-byte name field, data whose length fits beside the replacement tag, and the bytes
that pad it to a multiple of four. -/
namespace JevMachO
open Lib

structure Property where
  nameBuf : Bytes
  replacement : Bool
  data : Bytes
  padding : Bytes
  length_nameBuf : nameBuf.length = 32
  length_data : data.length < 2 ^ 31
  length_padding : padding.length = (4 - data.length % 4) % 4
  deriving DecidableEq

namespace Property

def name (x : Property) : Bytes := untilNul x.nameBuf

/-- The name field is NUL-terminated. -/
def NameOk (x : Property) : Prop := (0 : UInt8) ∈ x.nameBuf

instance (x : Property) : Decidable x.NameOk := inferInstanceAs (Decidable (_ ∈ _))

def sizeWord (x : Property) : ℕ := x.data.length + if x.replacement then 2 ^ 31 else 0

def bytes (x : Property) : Bytes := x.nameBuf ++ leBytes 4 x.sizeWord ++ x.data ++ x.padding

/-- Bytes of the property: name, size word and padded data. -/
def size (x : Property) : ℕ := DTProp.sizeofProp + (x.data.length + 3) / 4 * 4

theorem length_bytes (x : Property) : x.bytes.length = x.size := by
  have := x.length_nameBuf
  have := x.length_padding
  simp only [bytes, size, List.length_append, length_leBytes, DTProp.sizeofProp]
  omega

/-- A property whose name field and padding are filled with NULs. -/
def ofData (name data : Bytes) (h : name.length ≤ 32) (hd : data.length < 2 ^ 31) :
    Property where
  nameBuf := name ++ List.replicate (32 - name.length) 0
  replacement := false
  data := data
  padding := List.replicate ((4 - data.length % 4) % 4) 0
  length_nameBuf := by
    rw [List.length_append, List.length_replicate]
    omega
  length_data := hd
  length_padding := List.length_replicate

end Property

theorem length_nameLit_le : nameLit.length ≤ 32 := by decide

abbrev DTree := Rose (List Property)

namespace DTree

/-- The `name` property of a node, if it has one. -/
def nameProp (t : DTree) : Option Property := t.label.find? fun x => x.name == nameLit

/-- The node's name, cut at its NUL. -/
def name (t : DTree) : Option Bytes := t.nameProp.map fun x => untilNul x.data

/-- A node as it is flattened before its children: the counts and the properties. -/
def header (t : DTree) : Bytes :=
  leBytes 4 t.label.length ++ leBytes 4 t.children.length ++ t.label.flatMap Property.bytes

def headerSize (t : DTree) : ℕ := DTNode.sizeofNode + (t.label.map Property.size).sum

/-- The flattened form: `nprops`, `nchildren`, the properties, the children in order. -/
def flatten (t : DTree) : Bytes := Rose.flatten header t

/-- Bytes of the flattened form. -/
def size (t : DTree) : ℕ := t.extent headerSize

/-- The properties of a node at offset `n`, each with its offset. -/
def propertiesAt (p : ℕ × DTree) : List (ℕ × Property) :=
  locate Property.size (p.1 + DTNode.sizeofNode) p.2.label

theorem length_header (t : DTree) : t.header.length = t.headerSize := by
  simp only [header, headerSize, List.length_append, length_leBytes, DTNode.sizeofNode,
    length_flatMap_enc Property.size Property.length_bytes]

theorem headerSize_pos (t : DTree) : 0 < t.headerSize := by
  simp only [headerSize, DTNode.sizeofNode]
  omega

theorem length_flatten (t : DTree) : t.flatten.length = t.size :=
  Rose.length_flatten headerSize length_header t

theorem headerSize_le_size (t : DTree) : t.headerSize ≤ t.size := Rose.len_le_extent headerSize t

/-- The name fields and the node's own name are NUL-terminated. -/
structure NamesOk (t : DTree) : Prop where
  props : ∀ x ∈ t.label, x.NameOk
  node : ∀ x, t.nameProp = some x → (0 : UInt8) ∈ x.data

instance (t : DTree) : Decidable (NamesOk t) :=
  decidable_of_iff ((∀ x ∈ t.label, x.NameOk) ∧ ∀ x ∈ t.nameProp, (0 : UInt8) ∈ x.data)
    ⟨fun h => ⟨h.1, h.2⟩, fun h => ⟨h.props, h.node⟩⟩

/-- Every node of the tree has NUL-terminated names. -/
def WellFormed (t : DTree) : Prop := ∀ s ∈ t.preorder, NamesOk s

instance (t : DTree) : Decidable t.WellFormed :=
  inferInstanceAs (Decidable (∀ s ∈ t.preorder, NamesOk s))

end DTree
end JevMachO

import JevMachO.Common

/-! The device-tree reader: properties and nodes are views at an offset of a byte image.
Sizes are 32-bit and wrap; loops run for as many steps as the iterator's own counter. -/
namespace JevMachO
open Lib

/-- The iterator class both `DTProp` and `DTNode` copy. `ptr = none` with `sz = 0` is the end;
the two copies differ only in how far one element extends. -/
structure SizedIterator where
  ptr : Option ℕ
  sz : UInt32
  deriving DecidableEq, Repr

namespace SizedIterator

def sentinel : SizedIterator := ⟨none, 0⟩

/-- The constructor from a pointer and a count. -/
def ofSize (ptr : ℕ) (sz : UInt32) : SizedIterator := if sz = 0 then sentinel else ⟨some ptr, sz⟩

def deref (it : SizedIterator) : Exec ℕ :=
  match it.ptr with
  | some p => .ok p
  | none => .error .nullDeref

/-- `operator!=`, with its assertion that equal pointers have equal counts. -/
def ne (a b : SizedIterator) : Exec Bool := do
  let diffPtr := a.ptr ≠ b.ptr
  assertThat (diffPtr || a.sz == b.sz)
  return diffPtr

/-- `operator++`, for elements that take `extent` bytes. -/
def next (extent : ℕ → Exec ℕ) (it : SizedIterator) : Exec SizedIterator := do
  let p ← it.deref
  let n ← extent p
  let sz := it.sz - 1
  if sz = 0 then return sentinel
  return ⟨some (p + n), sz⟩

def cursor (extent : ℕ → Exec ℕ) : Cursor Fault SizedIterator ℕ where
  atEnd it := do return !(← it.ne sentinel)
  deref := deref
  next := next extent
  stuck := .endless

end SizedIterator

namespace DTProp

def propSizeReplacementTag : UInt32 := 0x80000000

/-- `sizeof(DTProp)`: a 32-byte name and the size word. -/
def sizeofProp : ℕ := 36

def nameBuf (mem : Bytes) (p : ℕ) : Exec Bytes := load mem p 32

def name (mem : Bytes) (p : ℕ) : Exec Bytes := do
  let buf ← nameBuf mem p
  assertThat (buf.contains 0)
  return untilNul buf

def sz (mem : Bytes) (p : ℕ) : Exec UInt32 := loadU32 mem (p + 32)

def sizeRaw (mem : Bytes) (p : ℕ) : Exec UInt32 := do
  return (← sz mem p) &&& ~~~propSizeReplacementTag

def sizePadded (mem : Bytes) (p : ℕ) : Exec UInt32 := do
  return ((← sizeRaw mem p) + 3) &&& ~~~3

def data (p : ℕ) : ℕ := p + sizeofProp

def isReplacement (mem : Bytes) (p : ℕ) : Exec Bool := do
  return (← sz mem p) &&& propSizeReplacementTag ≠ 0

def cursor (mem : Bytes) : Cursor Fault SizedIterator ℕ :=
  SizedIterator.cursor fun p => do return sizeofProp + (← sizePadded mem p).toNat

end DTProp

/-- The literal `"name"`. -/
def nameLit : Bytes := ascii ['n', 'a', 'm', 'e']

namespace DTNode

/-- `sizeof(DTNode)`: the two counts. -/
def sizeofNode : ℕ := 8

def nprops (mem : Bytes) (n : ℕ) : Exec UInt32 := loadU32 mem n

def nchildren (mem : Bytes) (n : ℕ) : Exec UInt32 := loadU32 mem (n + 4)

def propertiesSize (mem : Bytes) (n : ℕ) : Exec UInt32 := nprops mem n

def propertiesCbegin (mem : Bytes) (n : ℕ) : Exec SizedIterator := do
  return .ofSize (n + sizeofNode) (← propertiesSize mem n)

/-- The range of properties, as its begin iterator; the end is always the sentinel. -/
def properties (mem : Bytes) (n : ℕ) : Exec SizedIterator := do
  if (← propertiesSize mem n) = 0 then return .sentinel
  propertiesCbegin mem n

def propertiesSizeof (mem : Bytes) (n : ℕ) : Exec UInt32 := do
  let first ← propertiesCbegin mem n
  (DTProp.cursor mem).accumulate
    (fun accum prop => do
      return accum + UInt32.ofNat DTProp.sizeofProp + (← DTProp.sizePadded mem prop))
    first.sz.toNat first 0

def propertyNamed (mem : Bytes) (n : ℕ) (name : Bytes) : Exec (Option ℕ) := do
  let first ← properties mem n
  (DTProp.cursor mem).findIfOrNull (fun prop => do return (← DTProp.name mem prop) == name)
    first.sz.toNat first

/-- The child iterator's `operator++` adds `sizeof(DTNode)` and the properties of the node it
stands on, and nothing for that node's own children. -/
def cursor (mem : Bytes) : Cursor Fault SizedIterator ℕ :=
  SizedIterator.cursor fun n => do return sizeofNode + (← propertiesSizeof mem n).toNat

def childrenSize (mem : Bytes) (n : ℕ) : Exec UInt32 := nchildren mem n

def childrenCbegin (mem : Bytes) (n : ℕ) : Exec SizedIterator := do
  let childSz ← childrenSize mem n
  if childSz ≠ 0 then
    return .ofSize (n + sizeofNode + (← propertiesSizeof mem n).toNat) childSz
  else
    return .sentinel

def children (mem : Bytes) (n : ℕ) : Exec SizedIterator := do
  if (← childrenSize mem n) = 0 then return .sentinel
  childrenCbegin mem n

/-- The nodes a walk over `children()` stops at. -/
def childrenVisited (mem : Bytes) (n : ℕ) : Exec (List ℕ) := do
  let first ← children mem n
  (cursor mem).elements first.sz.toNat first

/-- `children_sizeof`, over the `node_sizeof` it calls back into. -/
def childrenSizeofWith (nodeSizeof : ℕ → Exec UInt32) (mem : Bytes) (n : ℕ) : Exec UInt32 := do
  let first ← childrenCbegin mem n
  (cursor mem).accumulate (fun accum child => do return accum + (← nodeSizeof child))
    first.sz.toNat first 0

/-- `node_sizeof` down to a nesting depth. -/
def nodeSizeofWithin (mem : Bytes) : ℕ → ℕ → Exec UInt32
  | 0, _ => .error .endless
  | depth + 1, n => do
    let props ← propertiesSizeof mem n
    let childs ← childrenSizeofWith (nodeSizeofWithin mem depth) mem n
    return UInt32.ofNat sizeofNode + props + childs

/-- `node_sizeof`. A child starts at least eight bytes after its parent, so the nesting cannot
exceed the length of the image. -/
def nodeSizeof (mem : Bytes) (n : ℕ) : Exec UInt32 := nodeSizeofWithin mem (mem.length + 1) n

def childrenSizeof (mem : Bytes) (n : ℕ) : Exec UInt32 :=
  childrenSizeofWith (nodeSizeof mem) mem n

/-- The data of the node's `name` property, or null. -/
def nameOrNullptr (mem : Bytes) (n : ℕ) : Exec (Option ℕ) := do
  let nameProp ← propertyNamed mem n nameLit
  return nameProp.map DTProp.data

def childNamed (mem : Bytes) (n : ℕ) (name : Bytes) : Exec (Option ℕ) := do
  let first ← children mem n
  (cursor mem).findIfOrNull
    (fun child => do
      match ← nameOrNullptr mem child with
      | none => return false
      | some namePtr => return (← cstr mem namePtr) == name)
    first.sz.toNat first

/-- The loop of `lookup_node`. Each component is looked up among the children of `n`, the node
the call was made on, whatever the previous component found. -/
def lookupComponents (mem : Bytes) (n : ℕ) : List Bytes → ℕ → Exec (Option ℕ)
  | [], res => return some res
  | childName :: rest, _ => do
    match ← childNamed mem n childName with
    | none => return none
    | some res => lookupComponents mem n rest res

def lookupNode (split : SplitView) (mem : Bytes) (n : ℕ) (nodePath : Bytes) :
    Exec (Option ℕ) := do
  if nodePath.head? ≠ some slash then return none
  lookupComponents mem n ((stringSplitViewDelimitedBy split nodePath slash).drop 1) n

def lookupProperty (split : SplitView) (mem : Bytes) (n : ℕ) (propertyPath : Bytes) :
    Exec (Option ℕ) := do
  match stringSplitViewDelimitedBy split propertyPath hash with
  | [nodePath, propName] =>
    match ← lookupNode split mem n nodePath with
    | none => return none
    | some nodePtr => propertyNamed mem nodePtr propName
  | _ => return none

end DTNode
end JevMachO

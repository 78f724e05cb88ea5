import JevMachO.DeviceTree.Patch
import JevMachO.Lib.Views
import JevMachO.NVRAM.PackedCStr

/-! Properties that hold a register, and what the boot code does with a tree: it renames such
properties, replaces their registers, reads the CPUs' registers and applies the patches that NVRAM
asks for. -/
namespace JevMachO
open Lib

structure DTRegister where
  base : UInt64
  size : UInt64
  deriving DecidableEq, Repr

namespace DTRegister

def sizeofRegister : ℕ := 16

def bytes (reg : DTRegister) : Bytes := leBytes 8 reg.base.toNat ++ leBytes 8 reg.size.toNat

theorem length_bytes (reg : DTRegister) : reg.bytes.length = sizeofRegister := by
  simp only [bytes, List.length_append, length_leBytes, sizeofRegister]

def read (mem : Bytes) (o : ℕ) : Exec DTRegister := do
  return ⟨← loadU64 mem o, ← loadU64 mem (o + 8)⟩

def write (mem : Bytes) (o : ℕ) (reg : DTRegister) : Exec Bytes := store mem o reg.bytes

/-- `{}`. -/
def zero : DTRegister := ⟨0, 0⟩

end DTRegister

namespace DTProp

/-- `as_reg`, as the address of the reference it returns. -/
def asReg (mem : Bytes) (p : ℕ) : Exec ℕ := do
  assertThat ((← sizeRaw mem p).toNat == DTRegister.sizeofRegister)
  return data p

def sizeofNameBuf : ℕ := 32

/-- `set_name`: the field is cleared and the name copied with its NUL. -/
def setName (mem : Bytes) (p : ℕ) (newName : Bytes) : Exec Bytes := do
  assertThat (newName.length < sizeofNameBuf)
  let mem ← store mem p (List.replicate sizeofNameBuf 0)
  store mem p (newName ++ [0])

def hasSize (size : ℕ) (mem : Bytes) (prop : ℕ) : Exec Bool := do
  return (← sizeRaw mem prop).toNat == size

/-- The predicate of `propertiesNamedWithPrefix`, for what it reads as the prefix. -/
def nameStartsWith (start : ℕ → Exec Bytes) (mem : Bytes) (prop : ℕ) : Exec Bool := do
  let name ← name mem prop
  return (← start prop).isPrefixOf name

end DTProp

/-- What the test of a property reads where a prefix was passed: some string, or a fault. The
predicate has captured the parameter by reference, and it is first called when the function that
the parameter belonged to has returned. A view tests a property at most once. -/
abbrev DeadPrefix := Bytes → ℕ → Exec Bytes

/-- Nothing else has been written where the parameter was. -/
def DeadPrefix.intact : DeadPrefix := fun start _ => .ok start

namespace DTNode

/-- The properties of a node that a filter view over `properties()` lets through. -/
def propertiesWhere (accepts : ℕ → Exec Bool) (mem : Bytes) (n : ℕ) :
    Exec (Range Fault SizedIterator ℕ) := do
  let props ← properties mem n
  (Range.mk props (DTProp.cursor mem)).filter accepts props.sz.toNat

def propertiesSized (mem : Bytes) (n : ℕ) (size : ℕ) : Exec (Range Fault SizedIterator ℕ) :=
  propertiesWhere (DTProp.hasSize size mem) mem n

def propertiesNamedWithPrefix (dead : DeadPrefix) (mem : Bytes) (n : ℕ) (start : Bytes) :
    Exec (Range Fault SizedIterator ℕ) :=
  propertiesWhere (DTProp.nameStartsWith (dead start) mem) mem n

end DTNode

namespace DT

/-- The literal `"cpus"`. -/
def cpusLit : Bytes := ascii ['c', 'p', 'u', 's']

/-- The literal `"chosen"`. -/
def chosenLit : Bytes := ascii ['c', 'h', 'o', 's', 'e', 'n']

def cpuImplRegLit : Bytes :=
  ascii ['c', 'p', 'u', '-', 'i', 'm', 'p', 'l', '-', 'r', 'e', 'g']

def nvramProxyDataLit : Bytes :=
  ascii ['n', 'v', 'r', 'a', 'm', '-', 'p', 'r', 'o', 'x', 'y', '-', 'd', 'a', 't', 'a']

def dtPatchesLit : Bytes := ascii ['d', 't', '-', 'p', 'a', 't', 'c', 'h', 'e', 's']

/-- The capacity of the vector the registers are collected in. -/
def maxCpus : ℕ := 16

def getCPUImplRegAddrs (vector : FixedCapacity UInt64 maxCpus) (mem : Bytes) (rootNode : ℕ) :
    Exec (List UInt64) := do
  match ← DTNode.childNamed mem rootNode cpusLit with
  | none => return []
  | some cpusNode =>
    let first ← DTNode.children mem cpusNode
    (DTNode.cursor mem).accumulate
      (fun regs cpuNode => do
        match ← DTNode.propertyNamed mem cpuNode cpuImplRegLit with
        | none => return regs
        | some prop => vector.append regs [← loadU64 mem (DTProp.data prop)])
      first.sz.toNat first []

/-- `process_patches` with the patches of the common NVRAM partition. -/
def processNVRAMPatches (split : SplitView) (mem : Bytes) (rootNode : ℕ) :
    Exec (Bytes × Bool) := do
  match ← DTNode.childNamed mem rootNode chosenLit with
  | none => return (mem, false)
  | some chosenNode =>
    match ← DTNode.propertyNamed mem chosenNode nvramProxyDataLit with
    | none => return (mem, false)
    | some prop =>
      let proxyData ← NVRAM.extractProxyData mem (DTProp.data prop)
      match ← NVRAMPartition.varNamed mem proxyData.commonPart dtPatchesLit with
      | none => return (mem, true)
      | some patchesVarEqValStr =>
        match ← NVRAM.varValue mem (some patchesVarEqValStr) with
        | none => .error .nullDeref
        | some patchesSpec => processPatches split mem rootNode (← cstr mem patchesSpec)

end DT
end JevMachO

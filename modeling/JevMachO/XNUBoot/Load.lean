import JevMachO.DeviceTree.Registers
import JevMachO.MachO.SegmentRanges

/-! Loading an XNU kernel cache. Memory is one image indexed by physical address. The function
looks for everything it needs, copies SEPFW, the boot arguments and a stub behind the payload,
renames and rewrites the registers of the memory map, and leaves the stub's arguments in
`next_stage`. -/
namespace JevMachO
open Lib

namespace XNUBoot

/-- `struct vector_args`. -/
structure VectorArgs where
  entry : UInt64
  args : Vector UInt64 5
  restoreLogo : Bool
  deriving DecidableEq, Repr

/-- What the function can write: memory, and the global `next_stage`. -/
structure World where
  mem : Bytes
  nextStage : VectorArgs
  deriving DecidableEq, Repr

/-- What is outside the function: the split view, the vector of the CPUs' registers, what the
tests of the regions read as their prefix, where the linker has put `xnu_jump_stub`, and whether
it is a build for m1n1. -/
structure Env where
  split : SplitView
  cpuVector : FixedCapacity UInt64 DT.maxCpus
  deadPrefix : DeadPrefix
  xnuJumpStub : UInt64
  m1n1 : Bool

/-- Why the function returns early. -/
inductive Bail where
  | nullBootArgs
  | noChosen
  | notVerbose
  | noMemoryMap
  | noMachHeader
  | noPayload
  | badMachoMagic
  | fileRangeMin
  | rangesDiffer
  | noUnixThread
  | noSEPFW
  | noBootArgs
  deriving DecidableEq, Repr

/-! ### Names -/

def kernelDash : Bytes := ascii ['K', 'e', 'r', 'n', 'e', 'l', '-']

def machHeaderLit : Bytes :=
  kernelDash ++ ascii ['m', 'a', 'c', 'h', '_', 'h', 'e', 'a', 'd', 'e', 'r']

def payloadLit : Bytes := kernelDash ++ ascii ['P', 'Y', 'L', 'D']

def memoryMapLit : Bytes := ascii ['m', 'e', 'm', 'o', 'r', 'y', '-', 'm', 'a', 'p']

def memoryMapReservedDash : Bytes :=
  ascii ['M', 'e', 'm', 'o', 'r', 'y', 'M', 'a', 'p', 'R', 'e', 's', 'e', 'r', 'v', 'e', 'd', '-']

def sepfwLit : Bytes := ascii ['S', 'E', 'P', 'F', 'W']

def bootArgsLit : Bytes := ascii ['B', 'o', 'o', 't', 'A', 'r', 'g', 's']

def verboseFlag : Bytes := ascii ['-', 'v']

def noDTPatchesFlag : Bytes :=
  ascii ['-', 'n', 'o', '-', 'd', 't', '-', 'p', 'a', 't', 'c', 'h', 'e', 's']

/-- `"%d"`. -/
def decimal (i : ℤ) : Bytes :=
  let digits := (Nat.toDigits 10 i.natAbs).map Char.toUInt8
  if i < 0 then 0x2d :: digits else digits

/-- What `snprintf` into a name field leaves of a text. -/
def snprintfName (text : Bytes) : Bytes := text.take (DTProp.sizeofNameBuf - 1)

/-! ### Records -/

namespace XNUBootArgs

def virtBase (mem : Bytes) (bootArgs : ℕ) : Exec UInt64 := loadU64 mem (bootArgs + 8)

def physBase (mem : Bytes) (bootArgs : ℕ) : Exec UInt64 := loadU64 mem (bootArgs + 16)

def deviceTree (mem : Bytes) (bootArgs : ℕ) : Exec UInt64 := loadU64 mem (bootArgs + 96)

/-- Where the command line begins. -/
def commandLine (bootArgs : ℕ) : ℕ := bootArgs + 108

end XNUBootArgs

/-- The program counter of the thread state whose fields start at `thread`. -/
def UnixThreadCommand.pc (mem : Bytes) (thread : ℕ) : Exec UInt64 := loadU64 mem (thread + 264)

def memcpy (mem : Bytes) (dst src : ℕ) (n : ℕ) : Exec Bytes := do
  store mem dst (← load mem src n)

def rangeContainsStr (strs : List Bytes) (strToFind : Bytes) : Bool := strs.any (· == strToFind)

/-- The loop that prints the registers of the memory map, for what its arguments assert. -/
def printRegions (mem : Bytes) (memoryMap : ℕ) : Exec Unit := do
  let regions ← DTNode.propertiesSized mem memoryMap DTRegister.sizeofRegister
  regions.cursor.accumulate
    (fun _ region => do
      let _ ← DTProp.name mem region
      let _ ← DTProp.asReg mem region
      return ())
    mem.length regions.first ()

/-! ### Checks -/

/-- What the function has found out before it writes. -/
structure Checked where
  dt : ℕ
  commandLine : ℕ
  commandLineSize : ℕ
  memoryMap : ℕ
  machoBase : UInt64
  payloadBase : UInt64
  kcVmaddrRange : AddrRange
  entryPc : UInt64
  sepfwProp : ℕ
  /-- The address `sepfw_reg` refers to. -/
  sepfwReg : ℕ
  deriving DecidableEq, Repr

/-- The register of a property of the memory map, by its address. -/
def regNamed (mem : Bytes) (memoryMap : ℕ) (name : Bytes) (why : Bail) :
    Bailing Bail Fault (ℕ × ℕ) := do
  let prop ← orBail why (DTNode.propertyNamed mem memoryMap name)
  return (prop, ← DTProp.asReg mem prop)

/-- Everything up to the first copy. -/
def checks (env : Env) (mem : Bytes) (bootArgsBase : UInt64) : Bailing Bail Fault Checked := do
  bailUnless (bootArgsBase ≠ 0) .nullBootArgs
  let bootArgs := bootArgsBase.toNat
  let virtOff := (← XNUBootArgs.virtBase mem bootArgs) - (← XNUBootArgs.physBase mem bootArgs)
  let commandLine := XNUBootArgs.commandLine bootArgs
  let dt := ((← XNUBootArgs.deviceTree mem bootArgs) - virtOff).toNat
  let chosen ← orBail .noChosen (DTNode.childNamed mem dt DT.chosenLit)
  let splitBootArgs ← cstr mem commandLine
  let hasVerbose := rangeContainsStr
    (stringSplitViewDelimitedBy env.split splitBootArgs DT.space) verboseFlag
  bailUnless hasVerbose .notVerbose
  let memoryMap ← orBail .noMemoryMap (DTNode.childNamed mem chosen memoryMapLit)
  printRegions mem memoryMap
  let (_, machHeaderReg) ← regNamed mem memoryMap machHeaderLit .noMachHeader
  let machoBase := (← DTRegister.read mem machHeaderReg).base
  let (_, payloadReg) ← regNamed mem memoryMap payloadLit .noPayload
  let payloadBase := (← DTRegister.read mem payloadReg).base
  let kc := payloadBase.toNat
  bailUnless (← MachO.isMagicGood mem kc) .badMachoMagic
  let kcVmaddrRange ← MachO.vmaddrRange mem kc
  let kcFileRange ← MachO.fileRange mem kc
  bailUnless (kcFileRange.min == 0) .fileRangeMin
  bailUnless (kcFileRange.size == kcVmaddrRange.size) .rangesDiffer
  let unixThread ← orBail .noUnixThread (MachO.unixThread mem kc)
  let entryOff := (← UnixThreadCommand.pc mem unixThread) - kcVmaddrRange.min
  let (sepfwProp, sepfwReg) ← regNamed mem memoryMap sepfwLit .noSEPFW
  return {
    dt
    commandLine
    commandLineSize := splitBootArgs.length
    memoryMap
    machoBase
    payloadBase
    kcVmaddrRange
    entryPc := machoBase + entryOff
    sepfwProp
    sepfwReg }

/-! ### Copies -/

/-- The scan for the word behind the stub's code. -/
def jumpStubEnd (mem : Bytes) : ℕ → ℕ → Exec ℕ
  | 0, _ => .error .endless
  | n + 1, p => do
    if (← loadU32 mem p) = 0xdeadbeef then return p
    jumpStubEnd mem n (p + 4)

def Checked.sepfwCopyBase (c : Checked) : UInt64 := c.payloadBase + c.kcVmaddrRange.size

/-- Memory with SEPFW behind the kernel. -/
def copySEPFW (mem : Bytes) (c : Checked) : Exec Bytes := do
  let reg ← DTRegister.read mem c.sepfwReg
  memcpy mem c.sepfwCopyBase.toNat reg.base.toNat reg.size.toNat

/-- What has been copied behind SEPFW, from where and whereto. -/
structure Copies where
  sepfw : DTRegister
  baProp : ℕ
  baReg : ℕ
  bootArgs : DTRegister
  baCopyBase : UInt64
  stubCopyBase : UInt64
  stubSize : ℕ
  deriving DecidableEq, Repr

/-- The boot arguments behind SEPFW and the stub behind these. -/
def copyRest (env : Env) (mem : Bytes) (c : Checked) (sepfw : DTRegister) (baProp : ℕ) :
    Exec (Bytes × Copies) := do
  let baReg ← DTProp.asReg mem baProp
  let bootArgs ← DTRegister.read mem baReg
  let baCopyBase := c.sepfwCopyBase + sepfw.size
  let mem ← memcpy mem baCopyBase.toNat bootArgs.base.toNat bootArgs.size.toNat
  let stubCopyBase := baCopyBase + bootArgs.size
  let stub := env.xnuJumpStub.toNat
  let stubSize := (← jumpStubEnd mem mem.length stub) - stub
  let mem ← memcpy mem stubCopyBase.toNat stub stubSize
  return (mem, { sepfw, baProp, baReg, bootArgs, baCopyBase, stubCopyBase, stubSize })

/-! ### The memory map -/

/-- Every kernel region but the Mach-O header becomes a reserved one without a register. -/
def reserveRegion (s : Bytes × ℤ) (region : ℕ) : Exec (Bytes × ℤ) := do
  let (mem, i) := s
  if (← DTProp.name mem region) = machHeaderLit then return (mem, i)
  let mem ← DTProp.setName mem region (snprintfName (memoryMapReservedDash ++ decimal i))
  let mem ← DTRegister.write mem (← DTProp.asReg mem region) .zero
  return (mem, i - 1)

def reserveRegions (dead : DeadPrefix) (mem : Bytes) (memoryMap : ℕ) : Exec Bytes := do
  let count := (← DTNode.properties mem memoryMap).sz.toNat
  let regions ← DTNode.propertiesNamedWithPrefix dead mem memoryMap kernelDash
  let (mem, _) ← Cursor.forLoop
    (fun s => (DTProp.cursor s.1).filter (DTProp.nameStartsWith (dead kernelDash) s.1) count)
    reserveRegion count regions.first (mem, 99)
  return mem

/-- The state of the loop over the segments: memory, where the iterator over the reserved regions
is, and which region each segment was given. -/
structure Assigning where
  mem : Bytes
  region : SizedIterator
  assigned : List (ℕ × ℕ)

/-- The next reserved region becomes the segment's. -/
def assignRegion (dead : DeadPrefix) (machoBase : UInt64) (count : ℕ) (s : Assigning) (seg : ℕ) :
    Exec Assigning := do
  let region ← s.region.deref
  let segName ← cstr s.mem seg
  let mem ← DTProp.setName s.mem region (snprintfName (kernelDash ++ segName))
  let segVmRange ← SegmentCommand.vmaddrRange mem seg
  let segFileRange ← SegmentCommand.fileRange mem seg
  assertThat (segVmRange.size == segFileRange.size)
  let mem ← DTRegister.write mem (← DTProp.asReg mem region)
    ⟨machoBase + segFileRange.min, segFileRange.size⟩
  let regions := (DTProp.cursor mem).filter
    (DTProp.nameStartsWith (dead memoryMapReservedDash) mem) count
  let next ← regions.next s.region
  return ⟨mem, next, s.assigned ++ [(seg, region)]⟩

/-- The segments as memory has them. -/
def segmentCursor (cend : ℕ) (mem : Bytes) : Cursor Fault ℕ ℕ :=
  ((LoadCommand.cursor mem cend).filter (MachO.hasType mem LoadCommandType.segment64)
    mem.length).transform fun segLC => .ok (LoadCommand.subcmd segLC)

def assignRegions (dead : DeadPrefix) (mem : Bytes) (c : Checked) :
    Exec (Bytes × List (ℕ × ℕ)) := do
  let count := (← DTNode.properties mem c.memoryMap).sz.toNat
  let regions ← DTNode.propertiesNamedWithPrefix dead mem c.memoryMap memoryMapReservedDash
  let kc := c.payloadBase.toNat
  let cend ← MachO.lcCend mem kc
  let segs ← MachO.segments mem kc
  let s ← Cursor.forLoop (fun s : Assigning => segmentCursor cend s.mem)
    (assignRegion dead c.machoBase count) mem.length segs.first ⟨mem, regions.first, []⟩
  return (s.mem, s.assigned)

/-- Where the stub will have moved an address of the copies. -/
def Checked.afterStub (c : Checked) (copyBase : UInt64) : UInt64 :=
  copyBase - c.payloadBase + c.machoBase

/-- The registers of SEPFW and of the boot arguments follow their copies. -/
def moveRegisters (mem : Bytes) (c : Checked) (k : Copies) : Exec Bytes := do
  let sepfw ← DTRegister.read mem c.sepfwReg
  let mem ← DTRegister.write mem c.sepfwReg ⟨c.afterStub c.sepfwCopyBase, sepfw.size⟩
  let bootArgs ← DTRegister.read mem k.baReg
  DTRegister.write mem k.baReg ⟨c.afterStub k.baCopyBase, bootArgs.size⟩

/-- All edits of the memory map, and the regions of the segments. -/
def editMemoryMap (dead : DeadPrefix) (mem : Bytes) (c : Checked) (k : Copies) :
    Exec (Bytes × List (ℕ × ℕ)) := do
  printRegions mem c.memoryMap
  let mem ← reserveRegions dead mem c.memoryMap
  let (mem, assigned) ← assignRegions dead mem c
  let mem ← moveRegisters mem c k
  printRegions mem c.memoryMap
  return (mem, assigned)

/-! ### The whole function -/

/-- What the function has done when it has come to its end. -/
structure Prepared where
  checked : Checked
  copies : Copies
  assigned : List (ℕ × ℕ)
  hasNoDTPatches : Bool
  deriving DecidableEq, Repr

inductive Outcome where
  | bailed (why : Bail)
  | prepared (p : Prepared)
  deriving DecidableEq, Repr

/-- The patches from NVRAM, unless the boot arguments forbid them. The command line is read
again, with the length it had. -/
def patchDT (env : Env) (mem : Bytes) (c : Checked) : Exec (Bytes × Bool) := do
  let commandLine ← load mem c.commandLine c.commandLineSize
  let hasNoDTPatches := rangeContainsStr
    (stringSplitViewDelimitedBy env.split commandLine DT.space) noDTPatchesFlag
  if hasNoDTPatches then return (mem, true)
  return ((← DT.processNVRAMPatches env.split mem c.dt).1, false)

/-- The CPUs but the first start at the entry point; only m1n1 writes their registers. -/
def setRvbars (env : Env) (mem : Bytes) (c : Checked) : Exec Bytes := do
  let regs ← DT.getCPUImplRegAddrs env.cpuVector mem c.dt
  let rvbar := c.entryPc &&& ~~~0xfff
  if env.m1n1 then
    (regs.drop 1).foldlM (fun mem reg => store mem reg.toNat (leBytes 8 rvbar.toNat)) mem
  else return mem

def nextStage (c : Checked) (k : Copies) : VectorArgs where
  entry := k.stubCopyBase
  args := #v[c.afterStub k.baCopyBase, c.payloadBase, c.machoBase, k.stubCopyBase - c.payloadBase,
    c.entryPc]
  restoreLogo := true

def loadAndPrepXnuKernelcache (env : Env) (w : World) (bootArgsBase : UInt64) :
    Exec (Outcome × World) := do
  match ← (checks env w.mem bootArgsBase).run with
  | .error why => return (.bailed why, w)
  | .ok c =>
    let sepfw ← DTRegister.read w.mem c.sepfwReg
    let mem ← copySEPFW w.mem c
    match ← DTNode.propertyNamed mem c.memoryMap bootArgsLit with
    | none => return (.bailed .noBootArgs, { w with mem })
    | some baProp =>
      let (mem, k) ← copyRest env mem c sepfw baProp
      let (mem, assigned) ← editMemoryMap env.deadPrefix mem c k
      let (mem, hasNoDTPatches) ← patchDT env mem c
      let mem ← setRvbars env mem c
      return (.prepared ⟨c, k, assigned, hasNoDTPatches⟩, ⟨mem, nextStage c k⟩)

end XNUBoot
end JevMachO

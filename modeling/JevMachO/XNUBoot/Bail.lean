import JevMachO.XNUBoot.Load

/-! The ways out before the end. Of the lookups one comes after the first copy: when the memory
map has no boot arguments, SEPFW is already behind the kernel. -/
namespace JevMachO
open Lib

namespace XNUBoot

/-- A copy that changes nothing copies what is there. -/
theorem memcpy_eq_self_iff {mem mem' : Bytes} {dst src n : ℕ}
    (h : memcpy mem dst src n = .ok mem') : mem' = mem ↔ load mem dst n = load mem src n := by
  obtain ⟨bs, hbs, hst⟩ := bind_eq_ok.mp h
  have hlen := (load_eq_ok hbs).2.1
  rw [patch_eq_self_iff (store_eq_ok hst), hlen, hbs, load_eq_ok_iff]

variable {env : Env} {w w' : World} {bootArgsBase : UInt64} {why : Bail}

/-- The memory map is found not to have the boot arguments. -/
def LacksBootArgs (env : Env) (mem : Bytes) (bootArgsBase : UInt64) (c : Checked)
    (mem' : Bytes) : Prop :=
  (checks env mem bootArgsBase).run = .ok (.ok c) ∧ copySEPFW mem c = .ok mem' ∧
    DTNode.propertyNamed mem' c.memoryMap bootArgsLit = .ok none

/-- An early return comes from a check, or from the lookup after the first copy. -/
theorem bailed_iff : loadAndPrepXnuKernelcache env w bootArgsBase = .ok (.bailed why, w') ↔
    (checks env w.mem bootArgsBase).run = .ok (.error why) ∧ w' = w ∨
      why = .noBootArgs ∧ ∃ c mem', LacksBootArgs env w.mem bootArgsBase c mem' ∧
        w' = { w with mem := mem' } := by
  constructor
  · intro h
    obtain ⟨r, hr, h⟩ := bind_eq_ok.mp h
    cases r with
    | error why' =>
      obtain ⟨hwhy, rfl⟩ := Prod.mk.inj (Except.ok.inj h)
      obtain rfl := Outcome.bailed.inj hwhy
      exact .inl ⟨hr, rfl⟩
    | ok c =>
      obtain ⟨sepfw, -, h⟩ := bind_eq_ok.mp h
      obtain ⟨mem', hcopy, h⟩ := bind_eq_ok.mp h
      obtain ⟨found, hfound, h⟩ := bind_eq_ok.mp h
      cases found with
      | none =>
        obtain ⟨hwhy, rfl⟩ := Prod.mk.inj (Except.ok.inj h)
        obtain rfl := Outcome.bailed.inj hwhy
        exact .inr ⟨rfl, c, mem', ⟨hr, hcopy, hfound⟩, rfl⟩
      | some baProp =>
        obtain ⟨⟨mem₁, k⟩, -, h⟩ := bind_eq_ok.mp h
        obtain ⟨⟨mem₂, assigned⟩, -, h⟩ := bind_eq_ok.mp h
        obtain ⟨⟨mem₃, hasNoDTPatches⟩, -, h⟩ := bind_eq_ok.mp h
        obtain ⟨mem₄, -, h⟩ := bind_eq_ok.mp h
        cases h
  · rintro (⟨hr, rfl⟩ | ⟨rfl, c, mem', ⟨hr, hcopy, hfound⟩, rfl⟩)
    · unfold loadAndPrepXnuKernelcache
      rw [hr]
      rfl
    · obtain ⟨sepfw, hsepfw, -⟩ := bind_eq_ok.mp hcopy
      unfold loadAndPrepXnuKernelcache
      rw [hr, ok_bind]
      dsimp only
      rw [hsepfw, ok_bind, hcopy, ok_bind, hfound]
      rfl

/-- Every early return leaves memory and `next_stage` as they were. -/
def BailsUnchanged (env : Env) (w : World) (bootArgsBase : UInt64) : Prop :=
  ∀ why w', loadAndPrepXnuKernelcache env w bootArgsBase = .ok (.bailed why, w') → w' = w

/-- The boot arguments are missing, and other bytes than those of SEPFW are where it is copied. -/
def BailsTooLate (env : Env) (mem : Bytes) (bootArgsBase : UInt64) : Prop :=
  ∃ c mem' sepfw, LacksBootArgs env mem bootArgsBase c mem' ∧
    DTRegister.read mem c.sepfwReg = .ok sepfw ∧
    load mem c.sepfwCopyBase.toNat sepfw.size.toNat ≠
      load mem sepfw.base.toNat sepfw.size.toNat

theorem bailsUnchanged_iff :
    BailsUnchanged env w bootArgsBase ↔ ¬BailsTooLate env w.mem bootArgsBase := by
  constructor
  · rintro h ⟨c, mem', sepfw, hlacks, hsepfw, hne⟩
    have hw := h .noBootArgs { w with mem := mem' }
      (bailed_iff.mpr (.inr ⟨rfl, c, mem', hlacks, rfl⟩))
    obtain ⟨reg, hreg, hcopy⟩ := bind_eq_ok.mp hlacks.2.1
    obtain rfl := Except.ok.inj (hsepfw.symm.trans hreg)
    exact hne ((memcpy_eq_self_iff hcopy).mp (congrArg World.mem hw))
  · intro h why w' hrun
    rcases bailed_iff.mp hrun with ⟨-, rfl⟩ | ⟨-, c, mem', hlacks, rfl⟩
    · rfl
    · obtain ⟨sepfw, hsepfw, hcopy⟩ := bind_eq_ok.mp hlacks.2.1
      have hsame : load w.mem c.sepfwCopyBase.toNat sepfw.size.toNat =
          load w.mem sepfw.base.toNat sepfw.size.toNat := by
        by_contra hne
        exact h ⟨c, mem', sepfw, hlacks, hsepfw, hne⟩
      rw [(memcpy_eq_self_iff hcopy).mpr hsame]

/-! ### A small machine -/

/-- Memory with the parts at their addresses. -/
def memoryOf (size : ℕ) (parts : List (ℕ × Bytes)) : Bytes :=
  parts.foldl (fun mem part => mem.take part.1 ++ part.2 ++ mem.drop (part.1 + part.2.length))
    (List.replicate size 0)

theorem length_bytes_lt (reg : DTRegister) : reg.bytes.length < 2 ^ 31 := by
  rw [reg.length_bytes]
  decide

def regProp (name : Bytes) (reg : DTRegister) (h : name.length ≤ 32) : Property :=
  .ofData name reg.bytes h (length_bytes_lt reg)

/-- A device tree with the registers in the memory map. -/
def sampleTree (regs : List Property) : DTree :=
  .node [] [.node [.ofData nameLit (DT.chosenLit ++ [0]) length_nameLit_le (by decide)]
    [.node (.ofData nameLit (memoryMapLit ++ [0]) length_nameLit_le (by decide) :: regs) []]]

/-- The registers of a header to be at 576, a payload at 592 and SEPFW at 496. -/
def sampleRegs (sepfwSize : UInt64) : List Property :=
  [regProp machHeaderLit ⟨576, 0⟩ (by decide), regProp payloadLit ⟨592, 0⟩ (by decide),
    regProp sepfwLit ⟨496, sepfwSize⟩ (by decide)]

/-- A segment with the same addresses in memory and in the file. -/
def segmentCommand (fileoff filesize : ℕ) : Command where
  cmd := LoadCommandType.segment64
  payload := 0x54 :: List.replicate 15 0 ++ leBytes 8 fileoff ++ leBytes 8 filesize ++
    leBytes 8 fileoff ++ leBytes 8 filesize ++ List.replicate 16 0

def unixThreadCommand : Command := ⟨LoadCommandType.unixThread, List.replicate 272 0⟩

def kernelCache (cmds : List Command) : Bytes :=
  MachO.headerBytes (cmds.flatMap Command.bytes).length ++ cmds.flatMap Command.bytes

/-- The device tree at 0, boot arguments at 336 for equal virtual and physical addresses, the
stub's code at 480, SEPFW at 496 and the payload at 592. -/
def sampleMemory (regs : List Property) (commandLine sepfw payload : Bytes) : Bytes :=
  memoryOf 1136 [(0, (sampleTree regs).flatten),
    (336, List.replicate 108 0 ++ commandLine ++ [0]), (480, leBytes 8 1 ++ leBytes 4 0xdeadbeef),
    (496, sepfw), (592, payload)]

def sampleEnv : Env := ⟨fun s d => s.splitOn d, .stopping, .intact, 480, false⟩

def sampleWorld (mem : Bytes) : World := ⟨mem, ⟨0, .replicate 5 0, false⟩⟩

/-- A memory map without boot arguments: SEPFW has been copied when this is noticed. -/
def lacksBootArgs : World :=
  sampleWorld (sampleMemory (sampleRegs 16) verboseFlag (List.replicate 16 1)
    (kernelCache [segmentCommand 0 384, unixThreadCommand]))

theorem not_bailsUnchanged_lacksBootArgs : ¬BailsUnchanged sampleEnv lacksBootArgs 336 := by
  intro h
  have hrun := h .noBootArgs ⟨memoryOf 1136 [(0, lacksBootArgs.mem), (976, List.replicate 16 1)],
    lacksBootArgs.nextStage⟩ (by decide +kernel)
  exact absurd hrun (by decide +kernel)

end XNUBoot
end JevMachO

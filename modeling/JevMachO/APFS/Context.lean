import JevMachO.Common
import JevMachO.Lib.Transition

/-! The one APFS context that U-Boot's file system commands probe and close: a device, storage
with a container constructed in place, a pointer to it and a flag. -/
namespace JevMachO
open Lib

namespace UBootAPFS

/-- What `ApfsContainer`'s constructor is given, the device apart. -/
structure ApfsContainer where
  diskStart : UInt64
  diskSize : UInt64
  deriving DecidableEq, Repr

/-- `struct disk_partition`, in blocks of `blksz` bytes. -/
structure DiskPartition where
  start : UInt64
  size : UInt64
  blksz : UInt64
  deriving DecidableEq, Repr

inductive ContainerPtr where
  | null
  | containerStorage
  deriving DecidableEq, Repr

/-- `mContainerStorage` is the object that lives in the storage. `overwritten` is no member: it
records that an object was constructed over one that had not been destroyed. -/
structure APFSCtx where
  devOpen : Bool
  mBlkOffBlks : UInt64
  mBlkSzBytes : UInt64
  mContainerStorage : Option ApfsContainer
  mContainer : ContainerPtr
  mOpened : Bool
  overwritten : Bool
  deriving DecidableEq, Repr

/-- How the calls into the library end. A device whose `Open` fails is not open, unless it was
open before and the failed call has left it so. -/
inductive Outcome where
  | openFails (leavesOpen : Bool)
  | initFails
  | succeeds
  deriving DecidableEq, Repr

inductive Action where
  | apfsProbe (fsPartition : DiskPartition) (outcome : Outcome)
  | apfsClose
  deriving DecidableEq, Repr

namespace APFSCtx

/-- The global `apfs_ctx` before anybody has used it. -/
def init : APFSCtx where
  devOpen := false
  mBlkOffBlks := 0
  mBlkSzBytes := 0
  mContainerStorage := none
  mContainer := .null
  mOpened := false
  overwritten := false

/-- What `open_common` does before it calls `Init`. -/
def construct (ctx : APFSCtx) : APFSCtx :=
  { ctx with
    overwritten := ctx.overwritten || ctx.mContainerStorage.isSome
    mContainerStorage := some ⟨ctx.mBlkOffBlks, ctx.mBlkSzBytes⟩
    mContainer := .containerStorage }

def openCommon (ctx : APFSCtx) (initGood : Bool) : Bool × APFSCtx :=
  if ¬initGood then (false, ctx.construct)
  else (true, { ctx.construct with mOpened := true })

/-- The device is open, at a partition of it. -/
def atPartition (ctx : APFSCtx) (fsPartition : DiskPartition) : APFSCtx :=
  { ctx with
    devOpen := true
    mBlkOffBlks := fsPartition.start * fsPartition.blksz
    mBlkSzBytes := fsPartition.size * fsPartition.blksz }

/-- `open` of a block device and one of its partitions. -/
def openPartition (ctx : APFSCtx) (fsPartition : DiskPartition) : Outcome → Bool × APFSCtx
  | .openFails leavesOpen => (false, { ctx with devOpen := ctx.devOpen && leavesOpen })
  | .initFails => (ctx.atPartition fsPartition).openCommon false
  | .succeeds => (ctx.atPartition fsPartition).openCommon true

def apfsProbe (ctx : APFSCtx) (fsPartition : DiskPartition) (outcome : Outcome) : ℤ × APFSCtx :=
  let (good, ctx) := ctx.openPartition fsPartition outcome
  (if good then 0 else -1, ctx)

def close (ctx : APFSCtx) : APFSCtx :=
  { ctx with
    mOpened := false
    mContainerStorage := none
    mContainer := .null
    devOpen := false }

/-- `apfs_close` asserts that the context is opened. -/
def step (ctx : APFSCtx) : Action → Option APFSCtx
  | .apfsProbe fsPartition outcome => some (ctx.apfsProbe fsPartition outcome).2
  | .apfsClose => if ctx.mOpened then some ctx.close else none

/-- The flag, the pointer, the container and the device agree, and no container was lost. -/
structure Consistent (ctx : APFSCtx) : Prop where
  opened_iff : ctx.mOpened = true ↔ ctx.mContainerStorage.isSome = true ∧
    ctx.mContainer = .containerStorage ∧ ctx.devOpen = true
  closed : ctx.mOpened = false → ctx.mContainerStorage = none ∧ ctx.devOpen = false
  kept : ctx.overwritten = false

/-- A probe of an opened context fails in `Open` and leaves the device open; a probe of a closed
one does not fail in `Init`. -/
def StepOk (ctx : APFSCtx) : Action → Prop
  | .apfsProbe _ (.openFails leavesOpen) => ctx.mOpened = true → leavesOpen = true
  | .apfsProbe _ .initFails => False
  | .apfsProbe _ .succeeds => ctx.mOpened = false
  | .apfsClose => True

variable {ctx ctx' : APFSCtx}

theorem Consistent.init : Consistent init where
  opened_iff := by simp [APFSCtx.init]
  closed _ := ⟨rfl, rfl⟩
  kept := rfl

theorem Consistent.close (h : ctx.Consistent) : ctx.close.Consistent where
  opened_iff := by simp [APFSCtx.close]
  closed _ := ⟨rfl, rfl⟩
  kept := h.kept

/-- Successful calls on a closed context. -/
theorem Consistent.succeeds (h : ctx.Consistent) (hclosed : ctx.mOpened = false)
    (fsPartition : DiskPartition) : (ctx.apfsProbe fsPartition .succeeds).2.Consistent := by
  have hnone := (h.closed hclosed).1
  constructor
  · simp [apfsProbe, openPartition, openCommon, construct, atPartition]
  · simp [apfsProbe, openPartition, openCommon]
  · simp [apfsProbe, openPartition, openCommon, construct, atPartition, hnone, h.kept]

/-- A failed `Open` changes nothing but the device. -/
theorem Consistent.openFails (h : ctx.Consistent) {leavesOpen : Bool}
    (hdev : ctx.mOpened = true → leavesOpen = true) (fsPartition : DiskPartition) :
    (ctx.apfsProbe fsPartition (.openFails leavesOpen)).2.Consistent := by
  have hsame : (ctx.devOpen && leavesOpen) = ctx.devOpen := by
    cases hopened : ctx.mOpened with
    | true => rw [hdev hopened, Bool.and_true]
    | false => rw [(h.closed hopened).2, Bool.false_and]
  simpa only [apfsProbe, openPartition, hsame] using h

theorem Consistent.step (ctx : APFSCtx) (a : Action) (ctx' : APFSCtx) (h : ctx.Consistent)
    (hok : ctx.StepOk a) (hs : ctx.step a = some ctx') : ctx'.Consistent := by
  cases a with
  | apfsProbe fsPartition outcome =>
    obtain rfl := Option.some.inj hs
    cases outcome with
    | openFails leavesOpen => exact h.openFails hok fsPartition
    | initFails => exact hok.elim
    | succeeds => exact h.succeeds hok fsPartition
  | apfsClose =>
    unfold APFSCtx.step at hs
    split_ifs at hs
    obtain rfl := Option.some.inj hs
    exact h.close

/-- Constructing a container in an opened context overwrites the one that is there. -/
theorem Consistent.overwritten (h : ctx.Consistent) (hopened : ctx.mOpened = true)
    (fsPartition : DiskPartition) (outcome : Outcome) (hout : ∀ b, outcome ≠ .openFails b) :
    (ctx.apfsProbe fsPartition outcome).2.overwritten = true := by
  have hsome := (h.opened_iff.mp hopened).1
  cases outcome with
  | openFails b => exact absurd rfl (hout b)
  | _ => simp [apfsProbe, openPartition, openCommon, construct, atPartition, hsome]

theorem Consistent.not_consistent (ctx : APFSCtx) (a : Action) (ctx' : APFSCtx)
    (h : ctx.Consistent) (hok : ¬ctx.StepOk a) (hs : ctx.step a = some ctx') :
    ¬ctx'.Consistent := by
  intro hc
  cases a with
  | apfsProbe fsPartition outcome =>
    obtain rfl := Option.some.inj hs
    cases outcome with
    | openFails leavesOpen =>
      -- the device is closed under an opened context
      obtain ⟨hopened, hleaves⟩ := Classical.not_imp.mp hok
      have hdev := (hc.opened_iff.mp hopened).2.2
      simp only [apfsProbe, openPartition, Bool.and_eq_true] at hdev
      exact hleaves hdev.2
    | initFails =>
      cases hopened : ctx.mOpened with
      | true =>
        have hover := h.overwritten hopened fsPartition .initFails (by simp)
        rw [hc.kept] at hover
        cases hover
      | false =>
        -- the container is constructed, and nobody will destroy it
        have hdev := (hc.closed hopened).2
        cases hdev
    | succeeds =>
      have hover := h.overwritten (Bool.of_not_eq_false hok) fsPartition .succeeds (by simp)
      rw [hc.kept] at hover
      cases hover
  | apfsClose => exact hok trivial

/-- The context is consistent all through a run exactly when no probe fails in `Init`, and
every probe of an opened context fails in `Open` and leaves the device open. -/
theorem consistent_iff (as : List Action) (ctx : APFSCtx) (hrun : run step init as = some ctx) :
    Throughout step Consistent init as ↔ RunsWithin step StepOk init as :=
  throughout_iff_runsWithin Consistent.step (fun _ h => h) Consistent.not_consistent
    Consistent.init hrun

def aPartition : DiskPartition := ⟨40, 1000, 512⟩

/-- One command, and another one that does not get at its device. -/
def probeAndClose : List Action :=
  [.apfsProbe aPartition .succeeds, .apfsClose, .apfsProbe aPartition (.openFails false)]

theorem consistent_probeAndClose : Throughout step Consistent init probeAndClose :=
  (consistent_iff probeAndClose _ rfl).mpr ⟨rfl, trivial, nofun, trivial⟩

/-- A partition that is no APFS container. -/
theorem not_consistent_initFails :
    run step init [.apfsProbe aPartition .initFails] = some
      { devOpen := true, mBlkOffBlks := 20480, mBlkSzBytes := 512000,
        mContainerStorage := some ⟨20480, 512000⟩, mContainer := .containerStorage,
        mOpened := false, overwritten := false } ∧
    ¬(init.apfsProbe aPartition .initFails).2.Consistent := by
  refine ⟨rfl, fun h => ?_⟩
  cases (h.closed rfl).2

end APFSCtx
end UBootAPFS
end JevMachO

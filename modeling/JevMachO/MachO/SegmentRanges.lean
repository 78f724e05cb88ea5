import JevMachO.MachO.LoadCommands

/-! Address ranges, and those the segments of a Mach-O span in memory and in the file. -/
namespace JevMachO
open Lib

structure AddrRange where
  min : UInt64
  max : UInt64
  deriving DecidableEq, Repr

namespace AddrRange

/-- The default constructor: a range that is null. -/
def null : AddrRange := ⟨0xffffffffffffffff, 0⟩

/-- The constructor from two addresses, with its assertion. -/
def ofBounds (min max : UInt64) : Exec AddrRange := do
  assertThat (min ≤ max)
  return ⟨min, max⟩

def isNull (r : AddrRange) : Bool := r.min == 0xffffffffffffffff && r.max == 0

def size (r : AddrRange) : UInt64 := r.max - r.min

/-- `operator|=`. -/
def union (r rhs : AddrRange) : AddrRange :=
  if rhs.isNull then r
  else if r.isNull then rhs
  else ⟨if rhs.min < r.min then rhs.min else r.min, if r.max < rhs.max then rhs.max else r.max⟩

end AddrRange

namespace SegmentCommand

def vmaddrAt (mem : Bytes) (seg : ℕ) : Exec UInt64 := loadU64 mem (seg + 16)

def vmsizeAt (mem : Bytes) (seg : ℕ) : Exec UInt64 := loadU64 mem (seg + 24)

def fileoffAt (mem : Bytes) (seg : ℕ) : Exec UInt64 := loadU64 mem (seg + 32)

def filesizeAt (mem : Bytes) (seg : ℕ) : Exec UInt64 := loadU64 mem (seg + 40)

def vmaddrRange (mem : Bytes) (seg : ℕ) : Exec AddrRange := do
  let vmaddr ← vmaddrAt mem seg
  AddrRange.ofBounds vmaddr (vmaddr + (← vmsizeAt mem seg))

def fileRange (mem : Bytes) (seg : ℕ) : Exec AddrRange := do
  let fileoff ← fileoffAt mem seg
  AddrRange.ofBounds fileoff (fileoff + (← filesizeAt mem seg))

end SegmentCommand

namespace MachO

/-- `AddrRange::collapseRange` over a range of each segment. -/
def collapseRange (mem : Bytes) (macho : ℕ) (range : ℕ → Exec AddrRange) : Exec AddrRange := do
  let segs ← segments mem macho
  segs.cursor.accumulate (fun res seg => do return res.union (← range seg)) mem.length segs.first
    AddrRange.null

def vmaddrRange (mem : Bytes) (macho : ℕ) : Exec AddrRange :=
  collapseRange mem macho (SegmentCommand.vmaddrRange mem)

def fileRange (mem : Bytes) (macho : ℕ) : Exec AddrRange :=
  collapseRange mem macho (SegmentCommand.fileRange mem)

end MachO

/-! ### What a collapsed range covers -/

namespace AddrRange

def Valid (r : AddrRange) : Prop := r.min ≤ r.max

theorem valid_ofBounds {min max : UInt64} {r : AddrRange} (h : ofBounds min max = .ok r) :
    r = ⟨min, max⟩ ∧ r.Valid := by
  obtain ⟨u, hu, h⟩ := bind_eq_ok.mp h
  obtain rfl := Except.ok.inj h
  refine ⟨rfl, ?_⟩
  unfold assertThat at hu
  split_ifs at hu with hle
  have hle' : min ≤ max := of_decide_eq_true hle
  exact hle'

theorem Valid.not_isNull {r : AddrRange} (h : r.Valid) : r.isNull = false := by
  unfold isNull
  rw [Bool.and_eq_false_iff]
  by_contra hnull
  rw [not_or, Bool.not_eq_false, Bool.not_eq_false, beq_iff_eq, beq_iff_eq] at hnull
  unfold Valid at h
  rw [hnull.1, hnull.2] at h
  exact absurd h (by decide)

end AddrRange
end JevMachO

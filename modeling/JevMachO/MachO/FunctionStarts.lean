import JevMachO.MachO.LEB128
import JevMachO.MachO.Ranges
import Mathlib.Order.Bounds.Basic

/-! Function starts: the payload of the load command is a sequence of ULEB128 offsets, whose sums
from a base give the starts in the file and in memory. -/
namespace JevMachO
open Lib

structure SegmentCommand where
  vmaddr : UInt64
  fileoff : UInt64
  deriving DecidableEq, Repr

def SegmentCommand.vmaddrFileoffDelta (seg : SegmentCommand) : UInt64 := seg.vmaddr - seg.fileoff

namespace FunctionStarts

abbrev OffsetView := PsumView LEB128Iterator UInt64

/-- Where the raw offsets begin; their end is the sentinel. -/
def rawOffsets (decode : DecodeUleb128) (data : Bytes) : Exec LEB128Iterator :=
  LEB128Iterator.ofBuf decode data

def fileOffsets (decode : DecodeUleb128) (data : Bytes) (textSeg : SegmentCommand) :
    Exec OffsetView := do
  return ⟨← rawOffsets decode data, textSeg.fileoff⟩

def vmAddrs (decode : DecodeUleb128) (data : Bytes) (textSeg : SegmentCommand) :
    Exec OffsetView := do
  return ⟨← rawOffsets decode data, textSeg.vmaddrFileoffDelta⟩

def offsetCursor (decode : DecodeUleb128) :
    Cursor Fault (PsumIterator LEB128Iterator UInt64) UInt64 :=
  PsumIterator.cursor (LEB128Iterator.cursor decode)

/-- The elements of a view, in order. -/
def elements (decode : DecodeUleb128) (offs : OffsetView) : Exec (List UInt64) :=
  (offsetCursor decode).elements offs.uview.buf.length offs.begin

def funcStartForOffsets (decode : DecodeUleb128) (off : UInt64) (offs : OffsetView) :
    Exec UInt64 := do
  let c := offsetCursor decode
  if ← c.atEnd offs.begin then return 0
  if off < (← c.deref offs.begin) then return 0
  let (followingFunc, lastOffSeen) ← c.findIfWith
    (fun _ currOff => .ok (decide (off < currOff), currOff)) offs.uview.buf.length offs.begin 0
  if ← c.atEnd followingFunc then return lastOffSeen
  let ourFunc ← followingFunc.prev (LEB128Iterator.cursor decode) (LEB128Iterator.prev decode)
  c.deref ourFunc

def funcStartForFileOffset (decode : DecodeUleb128) (fileoff : UInt64) (data : Bytes)
    (textSeg : SegmentCommand) : Exec UInt64 := do
  funcStartForOffsets decode fileoff (← fileOffsets decode data textSeg)

def funcStartForVmAddr (decode : DecodeUleb128) (vmAddr : UInt64) (data : Bytes)
    (textSeg : SegmentCommand) : Exec UInt64 := do
  funcStartForOffsets decode vmAddr (← vmAddrs decode data textSeg)

/-! ### Sums of deltas -/

def values (vs : List Varint) : List UInt64 := vs.map Varint.value

/-- The sum of the encoded numbers. -/
def total (vs : List Varint) : ℕ := ((values vs).map UInt64.toNat).sum

@[simp] theorem total_nil : total [] = 0 := rfl

@[simp] theorem total_cons (v : Varint) (vs : List Varint) :
    total (v :: vs) = v.value.toNat + total vs := by
  simp [total, values]

@[simp] theorem total_append (vs ws : List Varint) : total (vs ++ ws) = total vs + total ws := by
  simp [total, values]

/-- The base and the numbers before a position, added up in 64 bits. -/
def sumFrom (t : UInt64) (vs : List Varint) : UInt64 := (values vs).foldl (· + ·) t

theorem toNat_sumFrom {t : UInt64} {vs : List Varint} (h : t.toNat + total vs < 2 ^ 64) :
    (sumFrom t vs).toNat = t.toNat + total vs := toNat_foldl_add h

theorem sumFrom_concat (t : UInt64) (vs : List Varint) (v : Varint) :
    sumFrom t (vs ++ [v]) = sumFrom t vs + v.value := by
  simp [sumFrom, values]

/-! ### What the lookup returns -/

/-- The view over a sequence of encodings, from a base on. -/
def offsets (t : UInt64) (vs : List Varint) : OffsetView :=
  ⟨LEB128Iterator.position (Varint.concat vs) [] vs, t⟩

theorem buf_offsets (t : UInt64) (vs : List Varint) :
    (offsets t vs).uview.buf = Varint.concat vs := by
  cases vs <;> rfl

section lookup
variable {decode : DecodeUleb128} {t off : UInt64} {pre suf : List Varint} {v cur : Varint}

theorem fileOffsets_concat (hdec : decode.Decodes) {vs : List Varint} (hne : vs ≠ [])
    (textSeg : SegmentCommand) :
    fileOffsets decode (Varint.concat vs) textSeg = .ok (offsets textSeg.fileoff vs) := by
  unfold fileOffsets
  rw [rawOffsets, LEB128Iterator.ofBuf_concat hdec.reads hne]
  rfl

theorem vmAddrs_concat (hdec : decode.Decodes) {vs : List Varint} (hne : vs ≠ [])
    (textSeg : SegmentCommand) :
    vmAddrs decode (Varint.concat vs) textSeg =
      .ok (offsets textSeg.vmaddrFileoffDelta vs) := by
  unfold vmAddrs
  rw [rawOffsets, LEB128Iterator.ofBuf_concat hdec.reads hne]
  rfl

/-- Walking over the encodings in front of `suf`. -/
theorem walks_offsets (hdec : decode.Decodes) (t : UInt64) (mid suf : List Varint) :
    (offsetCursor decode).Walks (offsets t (mid ++ suf)).begin (partialSums t (values mid))
      ⟨LEB128Iterator.position (Varint.concat (mid ++ suf)) mid suf, sumFrom t mid⟩ := by
  have hbuf : Varint.concat (mid ++ suf) = Varint.concat ([] ++ mid ++ suf) := rfl
  exact walks_partialSums (LEB128Iterator.walks_position [] mid suf hdec.reads hbuf) t

theorem atEnd_offsets (buf : Bytes) (pre suf : List Varint) (psum : UInt64) :
    (offsetCursor decode).atEnd ⟨LEB128Iterator.position buf pre suf, psum⟩ = .ok suf.isEmpty := by
  have h : (LEB128Iterator.cursor decode).atEnd (LEB128Iterator.position buf pre suf) =
      .ok suf.isEmpty := LEB128Iterator.atEnd_position
  exact h

theorem elements_offsets (hdec : decode.Decodes) (t : UInt64) (vs : List Varint) :
    elements decode (offsets t vs) = .ok (partialSums t (values vs)) := by
  have hwalk := walks_offsets hdec t vs []
  rw [List.append_nil] at hwalk
  apply (hwalk.visits (atEnd_offsets _ vs [] _)).elements _
  rw [length_partialSums, values, List.length_map, buf_offsets]
  exact Varint.length_le_concat vs

/-- Below the base nothing is found. -/
theorem funcStartForOffsets_before {vs : List Varint} (hoff : off < t) :
    funcStartForOffsets decode off (offsets t vs) = .ok 0 := by
  have hend : (offsetCursor decode).atEnd (offsets t vs).begin = .ok vs.isEmpty :=
    atEnd_offsets _ [] vs t
  rw [funcStartForOffsets, hend, ok_bind]
  cases vs with
  | nil => rfl
  | cons v vs =>
    have hfront : (offsetCursor decode).deref (offsets t (v :: vs)).begin = .ok t := rfl
    rw [hfront]
    simp [hoff]

/-- From the base on, the search passes every element that is at most the offset. -/
theorem findIf_offsets (hdec : decode.Decodes) (v : Varint) (suf : List Varint)
    (hle : t.toNat + total pre ≤ off.toNat) (n : ℕ) :
    (offsetCursor decode).findIfWith (fun _ currOff => .ok (decide (off < currOff), currOff))
        (n + (pre.length + 1)) (offsets t ((pre ++ [v]) ++ suf)).begin 0 =
      (offsetCursor decode).findIfWith (fun _ currOff => .ok (decide (off < currOff), currOff)) n
        ⟨LEB128Iterator.position (Varint.concat ((pre ++ [v]) ++ suf)) (pre ++ [v]) suf,
          sumFrom t (pre ++ [v])⟩ (sumFrom t pre) := by
  have hsums : partialSums t (values (pre ++ [v])) =
      partialSums t (values pre) ++ [sumFrom t pre] := by
    unfold values
    rw [List.map_append, List.map_singleton, partialSums_concat]
    rfl
  have hlt := off.toNat_lt
  have hq : ∀ e ∈ partialSums t (values (pre ++ [v])), decide (off < e) = false := by
    intro e he
    rw [decide_eq_false_iff_not, UInt64.lt_iff_toNat_lt, Nat.not_lt]
    rw [hsums, List.mem_append, List.mem_singleton] at he
    rcases he with he | rfl
    · exact (le_of_mem_partialSums (lt_of_le_of_lt hle hlt) he).trans hle
    · rw [toNat_sumFrom (lt_of_le_of_lt hle hlt)]
      exact hle
  have hwalk := (walks_offsets hdec t (pre ++ [v]) suf).findIfWith _ hq n 0
  rw [hsums, List.getLastD_concat] at hwalk
  simpa [values] using hwalk

theorem funcStartForOffsets_from (hoff : t ≤ off) {vs : List Varint} (hne : vs ≠ [])
    {r : PsumIterator LEB128Iterator UInt64 × UInt64}
    (hfind : (offsetCursor decode).findIfWith
      (fun _ currOff => .ok (decide (off < currOff), currOff)) (Varint.concat vs).length
      (offsets t vs).begin 0 = .ok r) :
    funcStartForOffsets decode off (offsets t vs) = (do
      if ← (offsetCursor decode).atEnd r.1 then return r.2
      let ourFunc ← r.1.prev (LEB128Iterator.cursor decode) (LEB128Iterator.prev decode)
      (offsetCursor decode).deref ourFunc) := by
  have hbegin : (offsetCursor decode).atEnd (offsets t vs).begin = .ok false := by
    rw [← List.isEmpty_eq_false_iff.mpr hne]
    exact atEnd_offsets _ [] vs t
  have hfront : (offsetCursor decode).deref (offsets t vs).begin = .ok t := rfl
  have hnlt : ¬off < t := UInt64.not_lt.mpr hoff
  simp only [funcStartForOffsets, hbegin, hfront, ok_bind, if_neg hnlt, buf_offsets, hfind]
  rfl

/-- Behind the last element at most the offset comes one above it: the search steps back. -/
theorem funcStartForOffsets_between (hdec : decode.Decodes) (cur : Varint) (suf : List Varint)
    (hle : t.toNat + total pre ≤ off.toNat)
    (hlt : off.toNat < t.toNat + total pre + v.value.toNat)
    (h64 : t.toNat + total pre + v.value.toNat < 2 ^ 64) :
    funcStartForOffsets decode off (offsets t (pre ++ v :: cur :: suf)) =
      if cur.bytes.length ≤ (Varint.concat (pre ++ [v])).length then .ok (sumFrom t pre)
      else .error .assertFailed := by
  have hvs : pre ++ v :: cur :: suf = (pre ++ [v]) ++ cur :: suf := by simp
  rw [hvs]
  have hnext : t.toNat + total (pre ++ [v]) = t.toNat + total pre + v.value.toNat := by
    rw [total_append, total_cons, total_nil, Nat.add_zero, Nat.add_assoc]
  obtain ⟨n, hn⟩ : ∃ n, (Varint.concat ((pre ++ [v]) ++ cur :: suf)).length =
      (n + 1) + (pre.length + 1) := by
    have hlen := Varint.length_le_concat ((pre ++ [v]) ++ cur :: suf)
    simp only [List.length_append, List.length_cons, List.length_nil] at hlen
    exact ⟨(Varint.concat ((pre ++ [v]) ++ cur :: suf)).length - (pre.length + 2), by omega⟩
  have habove : decide (off < sumFrom t (pre ++ [v])) = true := by
    rw [decide_eq_true_iff, UInt64.lt_iff_toNat_lt, toNat_sumFrom (by omega)]
    omega
  have hoff : t ≤ off := by
    rw [UInt64.le_iff_toNat_le]
    omega
  have hfind := findIf_offsets hdec v (cur :: suf) hle (n + 1)
  rw [← hn] at hfind
  conv_rhs at hfind => unfold Cursor.findIfWith
  rw [atEnd_offsets] at hfind
  have hderef : (offsetCursor decode).deref
      ⟨LEB128Iterator.position (Varint.concat ((pre ++ [v]) ++ cur :: suf)) (pre ++ [v])
        (cur :: suf), sumFrom t (pre ++ [v])⟩ = .ok (sumFrom t (pre ++ [v])) := rfl
  simp only [List.isEmpty_cons, ok_bind, hderef, habove, Bool.false_eq_true, if_false, if_true,
    pure_eq_ok] at hfind
  rw [funcStartForOffsets_from hoff (by simp) hfind, atEnd_offsets]
  have hprev := LEB128Iterator.prev_position (hdec.value v) (congrArg Varint.concat hvs.symm)
  change _ = if cur.bytes.length ≤ _ then _ else _ at hprev
  split_ifs at hprev ⊢ with hback
  · have hval : (LEB128Iterator.cursor decode).deref (LEB128Iterator.position
        (Varint.concat ((pre ++ [v]) ++ cur :: suf)) pre (v :: cur :: suf)) = .ok v.value := rfl
    have hsum : sumFrom t (pre ++ [v]) - v.value = sumFrom t pre := by
      rw [sumFrom_concat, UInt64.add_sub_cancel]
    simp only [PsumIterator.prev, hprev, hval, hsum, ok_bind, pure_eq_ok, List.isEmpty_cons,
      Bool.false_eq_true, if_false]
    rfl
  · simp only [PsumIterator.prev, hprev, ok_bind, error_bind, List.isEmpty_cons,
      Bool.false_eq_true, if_false]

/-- When every element is at most the offset, the last one seen is returned. -/
theorem funcStartForOffsets_last (hdec : decode.Decodes)
    (hle : t.toNat + total pre ≤ off.toNat) :
    funcStartForOffsets decode off (offsets t (pre ++ [v])) = .ok (sumFrom t pre) := by
  have hlen := Varint.length_le_concat (pre ++ [v])
  rw [List.length_append, List.length_singleton] at hlen
  have hoff : t ≤ off := by
    rw [UInt64.le_iff_toNat_le]
    omega
  have hfind := findIf_offsets hdec v [] hle
    ((Varint.concat (pre ++ [v])).length - (pre.length + 1))
  rw [Nat.sub_add_cancel hlen, List.append_nil] at hfind
  conv_rhs at hfind => unfold Cursor.findIfWith
  rw [atEnd_offsets] at hfind
  simp only [List.isEmpty_nil, ok_bind, if_true, pure_eq_ok] at hfind
  rw [funcStartForOffsets_from hoff (by simp) hfind, atEnd_offsets]
  rfl

end lookup
end FunctionStarts
end JevMachO

import JevMachO.Common
import JevMachO.Lib.Varint

/-! The bidirectional iterator over ULEB128 numbers. It stands on a decoded number and keeps the
byte count of that number; a count of 0 marks the end. -/
namespace JevMachO
open Lib

/-- `bfs::DecodeUleb128`, an external library's decoder: the byte count and the value of the
number at the start of the span, or none where it returns 0. -/
abbrev DecodeUleb128 := Bytes → Option (ℕ × UInt64)

/-- The decoder reads the number at the start of the span, whatever follows it, and finds none
in an empty span. -/
structure DecodeUleb128.Decodes (decode : DecodeUleb128) : Prop where
  value : ∀ (v : Varint) (rest : Bytes), decode (v.bytes ++ rest) = some (v.bytes.length, v.value)
  empty : decode [] = none

/-- The decoder reads one encoding at the start of the span. -/
def DecodeUleb128.Reads (decode : DecodeUleb128) (v : Varint) : Prop :=
  ∀ rest : Bytes, decode (v.bytes ++ rest) = some (v.bytes.length, v.value)

theorem DecodeUleb128.Decodes.reads {decode : DecodeUleb128} (h : decode.Decodes)
    {vs : List Varint} : ∀ v ∈ vs, decode.Reads v := fun v _ => h.value v

theorem DecodeUleb128.decodes_read : DecodeUleb128.Decodes Varint.read :=
  ⟨Varint.read_append, rfl⟩

/-- The loop that moves `enc_val_start` back to behind the last byte without a continuation
flag. -/
def encValStartLoop (prevData : Bytes) : ℕ → Exec ℕ
  | 0 => return 0
  | encValStart + 1 => do
    if (← getByte prevData encValStart) &&& 0x80 = 0 then return encValStart + 1
    encValStartLoop prevData encValStart

def decodeUleb128Backwards (decode : DecodeUleb128) (prevData : Bytes) :
    Exec (Option (ℕ × UInt64)) := do
  let sz := prevData.length
  -- 0 is returned also for a null `val`, which no caller passes
  if sz = 0 then return none
  let front ← getByte prevData 0
  if sz = 1 then
    assertThat (front &&& 0x80 = 0)
    return some (1, front.toUInt64)
  let encValStart ← encValStartLoop prevData (sz - 1)
  let encValStart := if encValStart = 1 ∧ front &&& 0x80 ≠ 0 then 0 else encValStart
  return decode (prevData.drop encValStart)

structure LEB128Iterator where
  buf : Bytes
  val : UInt64
  nbytes : ℕ
  idx : ℕ
  deriving DecidableEq, Repr

namespace LEB128Iterator

/-- The default constructor: the end of every range. -/
def sentinel : LEB128Iterator := ⟨[], 0, 0, 0⟩

def isSentinel (it : LEB128Iterator) : Bool := it.nbytes = 0

def setSentinel (it : LEB128Iterator) : LEB128Iterator := { it with nbytes := 0 }

/-- Take over a decoded number; none was decoded when the count is 0. -/
def update (it : LEB128Iterator) : Option (ℕ × UInt64) → Exec LEB128Iterator
  | none => .error .assertFailed
  | some (nbytes, val) => do
    assertThat (nbytes ≠ 0)
    return { it with val := val, nbytes := nbytes }

def readAndUpdateVal (decode : DecodeUleb128) (it : LEB128Iterator) : Exec LEB128Iterator :=
  it.update (decode (it.buf.drop it.idx))

def readAndUpdateValBackwards (decode : DecodeUleb128) (it : LEB128Iterator) :
    Exec LEB128Iterator := do
  it.update (← decodeUleb128Backwards decode (it.buf.take it.idx))

def ofBuf (decode : DecodeUleb128) (lebBuf : Bytes) : Exec LEB128Iterator :=
  readAndUpdateVal decode ⟨lebBuf, 0, 0, 0⟩

/-- `operator++`. -/
def next (decode : DecodeUleb128) (it : LEB128Iterator) : Exec LEB128Iterator := do
  let it := { it with idx := it.idx + it.nbytes }
  assertThat (it.idx ≤ it.buf.length)
  if it.idx = it.buf.length then return it.setSentinel
  readAndUpdateVal decode it

/-- `operator--`. The assertion compares with the byte count of the number it leaves. -/
def prev (decode : DecodeUleb128) (it : LEB128Iterator) : Exec LEB128Iterator := do
  assertThat (it.nbytes ≤ it.idx)
  let it ← it.readAndUpdateValBackwards decode
  return { it with idx := it.idx - it.nbytes }

/-- `operator==`. Iterators are compared over one payload, so that equal spans stand for equal
addresses. -/
def beq (a b : LEB128Iterator) : Bool :=
  if a.isSentinel && b.isSentinel then true
  else if a.isSentinel != b.isSentinel then false
  else a.buf = b.buf && a.idx = b.idx

/-- The range from an iterator to the end. -/
def cursor (decode : DecodeUleb128) : Cursor Fault LEB128Iterator UInt64 where
  atEnd it := .ok (it.beq sentinel)
  deref it := .ok it.val
  next := next decode
  stuck := .endless

/-! ### Standing between two parts of a payload -/

/-- The iterator behind `pre` and in front of `suf`. At the end it keeps the last number. -/
def position (buf : Bytes) (pre : List Varint) : List Varint → LEB128Iterator
  | [] => ⟨buf, (pre.map Varint.value).getLastD 0, 0, buf.length⟩
  | cur :: _ => ⟨buf, cur.value, cur.bytes.length, (Varint.concat pre).length⟩

variable {decode : DecodeUleb128} {buf : Bytes}

theorem update_some (it : LEB128Iterator) (v : Varint) :
    it.update (some (v.bytes.length, v.value)) =
      .ok { it with val := v.value, nbytes := v.bytes.length } := by
  have hne : v.bytes.length ≠ 0 := by
    have := v.length_bytes_pos
    omega
  simp [update, hne]

theorem readAndUpdateVal_position {cur : Varint} (hdec : decode.Reads cur) (pre : List Varint)
    {suf : List Varint} (hbuf : buf = Varint.concat (pre ++ cur :: suf)) (val : UInt64)
    (nbytes : ℕ) :
    readAndUpdateVal decode ⟨buf, val, nbytes, (Varint.concat pre).length⟩ =
      .ok (position buf pre (cur :: suf)) := by
  have hdrop : buf.drop (Varint.concat pre).length = cur.bytes ++ Varint.concat suf := by
    rw [hbuf, Varint.concat_append, List.drop_left, Varint.concat_cons]
  unfold readAndUpdateVal
  rw [hdrop, hdec, update_some]
  rfl

theorem ofBuf_concat {vs : List Varint} (hdec : ∀ v ∈ vs, decode.Reads v) (hne : vs ≠ []) :
    ofBuf decode (Varint.concat vs) = .ok (position (Varint.concat vs) [] vs) := by
  obtain ⟨v, vs, rfl⟩ := List.exists_cons_of_ne_nil hne
  exact readAndUpdateVal_position (hdec v List.mem_cons_self) [] rfl 0 0

/-- An empty payload has no first number to read. -/
theorem ofBuf_nil (hdec : decode [] = none) : ofBuf decode [] = .error .assertFailed := by
  unfold ofBuf
  rw [readAndUpdateVal, List.drop_nil, hdec]
  rfl

theorem atEnd_position {pre suf : List Varint} :
    (cursor decode).atEnd (position buf pre suf) = .ok suf.isEmpty := by
  cases suf with
  | nil => rfl
  | cons cur suf =>
    have hne : cur.bytes.length ≠ 0 := by
      have := cur.length_bytes_pos
      omega
    simp [cursor, beq, position, isSentinel, sentinel, hne]

theorem next_position {pre suf : List Varint} {cur : Varint}
    (hdec : ∀ v ∈ suf, decode.Reads v) (hbuf : buf = Varint.concat (pre ++ cur :: suf)) :
    next decode (position buf pre (cur :: suf)) = .ok (position buf (pre ++ [cur]) suf) := by
  have hidx : (Varint.concat pre).length + cur.bytes.length =
      (Varint.concat (pre ++ [cur])).length := by simp
  have hlen : buf.length = (Varint.concat (pre ++ [cur])).length + (Varint.concat suf).length := by
    rw [hbuf, List.append_cons, Varint.concat_append, List.length_append]
  simp only [next, position, hidx]
  cases suf with
  | nil =>
    rw [Varint.concat_nil, List.length_nil, Nat.add_zero] at hlen
    simp [hlen, setSentinel]
  | cons nxt suf =>
    have hpos : 0 < (Varint.concat (nxt :: suf)).length := by
      have := nxt.length_bytes_pos
      rw [Varint.concat_cons, List.length_append]
      omega
    have hle : (Varint.concat (pre ++ [cur])).length ≤ buf.length := by omega
    have hne : (Varint.concat (pre ++ [cur])).length ≠ buf.length := by omega
    simp only [hle, decide_true, assertThat_true, ok_bind, if_neg hne]
    exact readAndUpdateVal_position (hdec nxt List.mem_cons_self) _
      (by rw [hbuf, List.append_cons]) _ _

theorem walks_position (pre mid suf : List Varint)
    (hdec : ∀ v ∈ mid ++ suf, decode.Reads v) (hbuf : buf = Varint.concat (pre ++ mid ++ suf)) :
    (cursor decode).Walks (position buf pre (mid ++ suf)) (mid.map Varint.value)
      (position buf (pre ++ mid) suf) := by
  induction mid generalizing pre with
  | nil =>
    rw [List.append_nil]
    exact .nil
  | cons cur mid ih =>
    rw [List.append_assoc] at hbuf
    have hdec' : ∀ v ∈ mid ++ suf, decode.Reads v := fun v hv =>
      hdec v (List.mem_cons_of_mem cur hv)
    have hrest := @ih (pre ++ [cur]) hdec' (by simpa using hbuf)
    rw [List.append_assoc, List.singleton_append] at hrest
    exact .cons atEnd_position rfl (next_position hdec' hbuf) hrest

/-! ### Stepping back -/

/-- Scanning back from inside an encoding stops at its first byte. -/
theorem encValStartLoop_concat (pre : List Varint) (v : Varint) {k : ℕ}
    (hk : k ≤ v.init.length) :
    encValStartLoop (Varint.concat (pre ++ [v])) ((Varint.concat pre).length + k) =
      .ok (Varint.concat pre).length := by
  induction k with
  | zero =>
    rw [Nat.add_zero]
    cases hlen : (Varint.concat pre).length with
    | zero => rfl
    | succ n =>
      obtain ⟨b, hb, hends⟩ := Varint.concat_last_ends hlen
      have hget : getByte (Varint.concat (pre ++ [v])) n = .ok b := by
        unfold getByte
        rw [Varint.concat_append, List.getElem?_append_left (by omega), hb]
      unfold encValStartLoop
      rw [hget, ok_bind, if_pos hends]
      rfl
  | succ k ih =>
    obtain ⟨b, hb, hcont⟩ := v.getElem?_init_continues (Varint.concat pre) []
      (Nat.lt_of_succ_le hk)
    have hget : getByte (Varint.concat (pre ++ [v])) ((Varint.concat pre).length + k) = .ok b := by
      unfold getByte
      rw [Varint.concat_append, Varint.concat_cons, Varint.concat_nil,
        ← List.append_assoc, hb]
    rw [← Nat.add_assoc, encValStartLoop, hget, ok_bind, if_neg hcont]
    exact ih (Nat.le_of_succ_le hk)

/-- The first byte ends a number when nothing but that number stands in front of another one. -/
theorem front_ends {pre : List Varint} {v : Varint} {front : UInt8}
    (hfront : getByte (Varint.concat (pre ++ [v])) 0 = .ok front)
    (hlen : (Varint.concat pre).length = 1) : front &&& 0x80 = 0 := by
  obtain ⟨b, hb, hends⟩ := Varint.concat_last_ends (k := 0) hlen
  have hfront' : getByte (Varint.concat (pre ++ [v])) 0 = .ok b := by
    unfold getByte
    rw [Varint.concat_append, List.getElem?_append_left (by omega), hb]
  rw [hfront] at hfront'
  rw [Except.ok.inj hfront']
  exact hends

/-- A single byte in front of the position is not scanned. -/
theorem decodeUleb128Backwards_singleton (decode : DecodeUleb128) {b : UInt8}
    (hb : b &&& 0x80 = 0) :
    decodeUleb128Backwards decode [b] = .ok (some (1, b.toUInt64)) := by
  unfold decodeUleb128Backwards
  simp [getByte, hb]

theorem decodeUleb128Backwards_concat {v : Varint} (hdec : decode.Reads v) (pre : List Varint) :
    decodeUleb128Backwards decode (Varint.concat (pre ++ [v])) =
      .ok (some (v.bytes.length, v.value)) := by
  have hcat : Varint.concat (pre ++ [v]) = Varint.concat pre ++ v.bytes := by simp
  have hlen : (Varint.concat (pre ++ [v])).length =
      (Varint.concat pre).length + v.init.length + 1 := by
    rw [hcat, List.length_append, Varint.bytes, List.length_append, List.length_singleton,
      Nat.add_assoc]
  by_cases hone : (Varint.concat (pre ++ [v])).length = 1
  · have hpre : pre = [] := Varint.concat_eq_nil.mp (List.length_eq_zero_iff.mp (by omega))
    have hinit : v.init = [] := List.length_eq_zero_iff.mp (by omega)
    rw [hcat, hpre, Varint.concat_nil, List.nil_append, Varint.bytes_of_init_nil hinit,
      decodeUleb128Backwards_singleton decode v.ends, Varint.toUInt64_last hinit]
    rfl
  · obtain ⟨front, hfront⟩ : ∃ front, getByte (Varint.concat (pre ++ [v])) 0 = .ok front := by
      have hpos : 0 < (Varint.concat (pre ++ [v])).length := by omega
      exact ⟨_, by rw [getByte, List.getElem?_eq_getElem hpos]⟩
    have hloop := encValStartLoop_concat pre v (Nat.le_refl _)
    have hsz : (Varint.concat (pre ++ [v])).length - 1 =
        (Varint.concat pre).length + v.init.length := by omega
    have hstart : ¬((Varint.concat pre).length = 1 ∧ front &&& 0x80 ≠ 0) :=
      fun h => h.2 (front_ends hfront h.1)
    have hdrop : (Varint.concat (pre ++ [v])).drop (Varint.concat pre).length = v.bytes := by
      rw [hcat, List.drop_left]
    have hval := hdec []
    rw [List.append_nil] at hval
    unfold decodeUleb128Backwards
    rw [if_neg (by omega), hfront, ok_bind]
    simp only [if_neg hone, hsz, hloop, ok_bind, if_neg hstart, hdrop, hval, pure_eq_ok]

theorem idx_position {pre suf : List Varint} (hbuf : buf = Varint.concat (pre ++ suf)) :
    (position buf pre suf).idx = (Varint.concat pre).length := by
  cases suf with
  | nil =>
    rw [List.append_nil] at hbuf
    rw [position, hbuf]
  | cons cur suf => rfl

/-- The number that is left must not be longer than what stands before it; the end counts as no
bytes. -/
theorem prev_position {pre suf : List Varint} {v : Varint} (hdec : decode.Reads v)
    (hbuf : buf = Varint.concat (pre ++ v :: suf)) :
    prev decode (position buf (pre ++ [v]) suf) =
      if (position buf (pre ++ [v]) suf).nbytes ≤ (Varint.concat (pre ++ [v])).length then
        .ok (position buf pre (v :: suf))
      else .error .assertFailed := by
  have hbuf' := hbuf
  rw [List.append_cons] at hbuf'
  have hidx := idx_position hbuf'
  have htake : buf.take (Varint.concat (pre ++ [v])).length = Varint.concat (pre ++ [v]) := by
    rw [hbuf', Varint.concat_append (pre ++ [v]), List.take_left]
  have hsame : (position buf (pre ++ [v]) suf).buf = buf := by cases suf <;> rfl
  have hlen : (Varint.concat (pre ++ [v])).length - v.bytes.length =
      (Varint.concat pre).length := by simp
  unfold prev
  rw [hidx]
  by_cases hle : (position buf (pre ++ [v]) suf).nbytes ≤ (Varint.concat (pre ++ [v])).length
  · simp only [hle, decide_true, assertThat_true, ok_bind, if_true, readAndUpdateValBackwards,
      hsame, hidx, htake, decodeUleb128Backwards_concat hdec, update_some, hlen, pure_eq_ok]
    rfl
  · simp only [hle, decide_false, assertThat_false, error_bind, if_false]

end LEB128Iterator
end JevMachO

import JevMachO.MachO.FunctionStarts
import Mathlib.Data.List.Induction

/-! Payloads of numbers in their shortest encodings: read from the back, stepped over forth and
back, and iterated as the raw offsets of the load command. Of the decoder nothing is assumed but
that it reads shortest encodings. -/
namespace JevMachO
open Lib

/-- The decoder reads the shortest encoding of every number. -/
def DecodeUleb128.ReadsMinimal (decode : DecodeUleb128) : Prop :=
  ∀ v : Varint, v.IsMinimal → decode.Reads v

theorem DecodeUleb128.readsMinimal_read : DecodeUleb128.ReadsMinimal Varint.read :=
  fun v _ => Varint.read_append v

namespace DecodeUleb128.ReadsMinimal
variable {decode : DecodeUleb128}

theorem minimal (h : decode.ReadsMinimal) (x : UInt64) : decode.Reads (Varint.minimal x) :=
  h _ (Varint.isMinimal_minimal x)

theorem reads (h : decode.ReadsMinimal) (xs : List UInt64) :
    ∀ v ∈ xs.map Varint.minimal, decode.Reads v := by
  intro v hv
  obtain ⟨x, -, rfl⟩ := List.mem_map.mp hv
  exact h.minimal x

end DecodeUleb128.ReadsMinimal

namespace LEB128

/-- The numbers one after the other. -/
def encoded (xs : List UInt64) : Bytes := Varint.concat (xs.map Varint.minimal)

def encodedSize (x : UInt64) : ℕ := (Varint.minimal x).bytes.length

theorem encoded_split (pre suf : List UInt64) (x : UInt64) :
    encoded (pre ++ x :: suf) =
      Varint.concat (pre.map Varint.minimal ++ Varint.minimal x :: suf.map Varint.minimal) := by
  rw [encoded, List.map_append, List.map_cons]

theorem encoded_concat (xs : List UInt64) (x : UInt64) :
    encoded (xs ++ [x]) = encoded xs ++ (Varint.minimal x).bytes := by
  rw [encoded_split, Varint.concat_append, List.map_nil, Varint.concat_cons, Varint.concat_nil,
    List.append_nil]
  rfl

theorem encodedSize_pos (x : UInt64) : 0 < encodedSize x := (Varint.minimal x).length_bytes_pos

theorem encoded_eq_nil {xs : List UInt64} : encoded xs = [] ↔ xs = [] := by
  rw [encoded, Varint.concat_eq_nil, List.map_eq_nil_iff]

/-! ### From the back -/

/-- `DecodeUleb128Backwards` with its out parameter: what it returns and the value behind `val`,
which it leaves alone where it returns 0. -/
def decodeBackwardsInto (decode : DecodeUleb128) (prevData : Bytes) (val : UInt64) :
    Exec (ℕ × UInt64) := do
  match ← decodeUleb128Backwards decode prevData with
  | none => return (0, val)
  | some r => return r

/-- Calls from the end of a buffer on, each without the bytes that the calls before it took. -/
def readBack (decode : DecodeUleb128) : ℕ → Bytes → UInt64 → Exec (List (ℕ × UInt64))
  | n, buf, val => do
    if buf.length = 0 then return []
    match n with
    | 0 => .error .endless
    | n + 1 =>
      let r ← decodeBackwardsInto decode buf val
      return r :: (← readBack decode n (buf.take (buf.length - r.1)) r.2)

/-- The calls yield the numbers in reverse order, each with the size of its encoding. -/
structure ReadsBack (decode : DecodeUleb128) (xs : List UInt64) : Prop where
  calls : ∀ n val, (encoded xs).length ≤ n →
    readBack decode n (encoded xs) val = .ok (xs.reverse.map fun x => (encodedSize x, x))
  empty : ∀ val, decodeBackwardsInto decode [] val = .ok (0, val)

variable {decode : DecodeUleb128}

theorem decodeBackwardsInto_encoded (hdec : decode.ReadsMinimal) (xs : List UInt64)
    (x val : UInt64) :
    decodeBackwardsInto decode (encoded (xs ++ [x])) val = .ok (encodedSize x, x) := by
  have h := LEB128Iterator.decodeUleb128Backwards_concat (hdec.minimal x) (xs.map Varint.minimal)
  rw [Varint.value_minimal] at h
  rw [decodeBackwardsInto, encoded, List.map_append, List.map_singleton, h]
  rfl

theorem readBack_encoded (hdec : decode.ReadsMinimal) (xs : List UInt64) {n : ℕ}
    (hn : (encoded xs).length ≤ n) (val : UInt64) :
    readBack decode n (encoded xs) val = .ok (xs.reverse.map fun x => (encodedSize x, x)) := by
  induction xs using List.reverseRecOn generalizing n val with
  | nil =>
    unfold readBack
    rfl
  | append_singleton xs x ih =>
    have hpos := encodedSize_pos x
    have hlen : (encoded (xs ++ [x])).length = (encoded xs).length + encodedSize x := by
      rw [encoded_concat, List.length_append]
      rfl
    obtain ⟨n, rfl⟩ : ∃ m, n = m + 1 := ⟨n - 1, by omega⟩
    have htake : (encoded (xs ++ [x])).take ((encoded (xs ++ [x])).length - encodedSize x) =
        encoded xs := by
      rw [hlen, Nat.add_sub_cancel, encoded_concat, List.take_left]
    have hrest := ih (n := n) (by omega) x
    unfold readBack
    rw [if_neg (by omega), decodeBackwardsInto_encoded hdec]
    simp only [ok_bind, htake, hrest, pure_eq_ok, List.reverse_append]
    rfl

theorem readsBack (hdec : decode.ReadsMinimal) (xs : List UInt64) : ReadsBack decode xs where
  calls _ val hn := readBack_encoded hdec xs hn val
  empty _ := rfl

/-- A number of one byte in front, one of two bytes and one of ten. -/
def threeWidths : List UInt64 := [7, 128, 0xffffffffffffffff]

theorem readsBack_threeWidths :
    readBack Varint.read 13 (encoded threeWidths) 0 =
        .ok [(10, 0xffffffffffffffff), (2, 128), (1, 7)] ∧
      ReadsBack Varint.read threeWidths :=
  ⟨by decide, readsBack DecodeUleb128.readsMinimal_read threeWidths⟩

/-! ### Forth and back -/

section steps
open LEB128Iterator

/-- The iterator after some increments. -/
def advance (decode : DecodeUleb128) : ℕ → LEB128Iterator → Exec LEB128Iterator
  | 0, it => return it
  | k + 1, it => do next decode (← advance decode k it)

/-- The iterator after some increments, and what one more increment and a decrement make of it. -/
def forthAndBack (decode : DecodeUleb128) (buf : Bytes) (k : ℕ) :
    Exec (LEB128Iterator × LEB128Iterator) := do
  let it ← advance decode k (← ofBuf decode buf)
  let back ← prev decode (← next decode it)
  return (it, back)

/-- The decrement fails no assertion and leads back to where the last increment came from. -/
def StepsBack (decode : DecodeUleb128) (buf : Bytes) (k : ℕ) : Prop :=
  ∃ it, forthAndBack decode buf k = .ok (it, it)

/-- The iterator over a payload, in front of `suf`. -/
def between (pre suf : List UInt64) : LEB128Iterator :=
  position (encoded (pre ++ suf)) (pre.map Varint.minimal) (suf.map Varint.minimal)

/-- The size of the number that an iterator stands on. -/
def frontSize : List UInt64 → ℕ
  | [] => 0
  | x :: _ => encodedSize x

theorem between_concat (pre suf : List UInt64) (x : UInt64) :
    between (pre ++ [x]) suf = position (encoded (pre ++ x :: suf))
      (pre.map Varint.minimal ++ [Varint.minimal x]) (suf.map Varint.minimal) := by
  rw [between, List.append_assoc, List.singleton_append, List.map_append, List.map_singleton]

theorem ofBuf_encoded (hdec : decode.ReadsMinimal) {xs : List UInt64} (hne : xs ≠ []) :
    ofBuf decode (encoded xs) = .ok (between [] xs) :=
  ofBuf_concat (hdec.reads xs) (by simpa using hne)

theorem next_between (hdec : decode.ReadsMinimal) (pre suf : List UInt64) (x : UInt64) :
    next decode (between pre (x :: suf)) = .ok (between (pre ++ [x]) suf) := by
  rw [between_concat]
  exact next_position (hdec.reads suf) (encoded_split pre suf x)

/-- The assertion compares the size of the number that is left with everything before it. -/
theorem prev_between (hdec : decode.ReadsMinimal) (pre suf : List UInt64) (x : UInt64) :
    prev decode (between (pre ++ [x]) suf) =
      if frontSize suf ≤ (encoded (pre ++ [x])).length then .ok (between pre (x :: suf))
      else .error .assertFailed := by
  have hsize : (between (pre ++ [x]) suf).nbytes = frontSize suf := by cases suf <;> rfl
  have hprev := prev_position (hdec.minimal x) (encoded_split pre suf x)
  rw [← between_concat, hsize] at hprev
  have hcat : encoded (pre ++ [x]) =
      Varint.concat (pre.map Varint.minimal ++ [Varint.minimal x]) := encoded_split pre [] x
  rw [hprev, hcat]
  rfl

theorem advance_between (hdec : decode.ReadsMinimal) (pre suf : List UInt64) :
    advance decode pre.length (between [] (pre ++ suf)) = .ok (between pre suf) := by
  induction pre using List.reverseRecOn generalizing suf with
  | nil => rfl
  | append_singleton pre x ih =>
    rw [List.append_assoc, List.singleton_append, List.length_append, List.length_singleton,
      advance, ih, ok_bind, next_between hdec]

theorem forthAndBack_encoded (hdec : decode.ReadsMinimal) (pre suf : List UInt64) (x : UInt64) :
    forthAndBack decode (encoded (pre ++ x :: suf)) pre.length =
      if frontSize suf ≤ (encoded (pre ++ [x])).length then
        .ok (between pre (x :: suf), between pre (x :: suf))
      else .error .assertFailed := by
  rw [forthAndBack, ofBuf_encoded hdec (by simp), ok_bind, advance_between hdec, ok_bind,
    next_between hdec, ok_bind, prev_between hdec]
  split_ifs <;> rfl

theorem stepsBack_iff (hdec : decode.ReadsMinimal) {xs : List UInt64} {k : ℕ}
    (hk : k < xs.length) :
    StepsBack decode (encoded xs) k ↔
      ∀ x ∈ xs[k + 1]?, encodedSize x ≤ (encoded (xs.take (k + 1))).length := by
  have hsplit : xs = xs.take k ++ xs[k] :: xs.drop (k + 1) := by simp
  have htake : xs.take (k + 1) = xs.take k ++ [xs[k]] := by simp
  have hlen : (xs.take k).length = k := List.length_take_of_le (Nat.le_of_lt hk)
  have hfb := forthAndBack_encoded hdec (xs.take k) (xs.drop (k + 1)) xs[k]
  rw [← hsplit, ← htake, hlen] at hfb
  have hfront : frontSize (xs.drop (k + 1)) ≤ (encoded (xs.take (k + 1))).length ↔
      ∀ x ∈ xs[k + 1]?, encodedSize x ≤ (encoded (xs.take (k + 1))).length := by
    rw [← List.head?_drop]
    cases xs.drop (k + 1) <;> simp [frontSize]
  unfold StepsBack
  rw [hfb, ← hfront]
  split_ifs with hback
  · exact iff_of_true ⟨_, rfl⟩ hback
  · exact iff_of_false (by simp) hback

/-- Back from the end. -/
theorem stepsBack_threeWidths : StepsBack Varint.read (encoded threeWidths) 2 :=
  (stepsBack_iff DecodeUleb128.readsMinimal_read (by decide)).mpr (by simp [threeWidths])

/-- Back from two bytes behind one. -/
theorem not_stepsBack_threeWidths :
    forthAndBack Varint.read (encoded threeWidths) 0 = .error .assertFailed ∧
      ¬StepsBack Varint.read (encoded threeWidths) 0 := by
  have hret : forthAndBack Varint.read (encoded threeWidths) 0 = .error .assertFailed := by decide
  refine ⟨hret, ?_⟩
  rintro ⟨it, hit⟩
  rw [hret] at hit
  cases hit

end steps

end LEB128

/-! ### The raw offsets of the load command -/

structure LinkeditDataCommand where
  dataoff : UInt32
  datasize : UInt32
  deriving DecidableEq, Repr

/-- The payload, an offset from the Mach-O header on. -/
def LinkeditDataCommand.data (mem : Bytes) (cmd : LinkeditDataCommand) (macho : ℕ) : Exec Bytes :=
  load mem (macho + cmd.dataoff.toNat) cmd.datasize.toNat

namespace FunctionStarts

/-- A loop over `raw_offsets`: what it sees from the beginning to the end. -/
def iterateRawOffsets (decode : DecodeUleb128) (mem : Bytes) (cmd : LinkeditDataCommand)
    (macho : ℕ) : Exec (List UInt64) := do
  let data ← cmd.data mem macho
  (LEB128Iterator.cursor decode).elements data.length (← rawOffsets decode data)

variable {decode : DecodeUleb128} {mem : Bytes} {cmd : LinkeditDataCommand} {macho : ℕ}

theorem elements_between (hdec : decode.ReadsMinimal) (xs : List UInt64) :
    (LEB128Iterator.cursor decode).elements (LEB128.encoded xs).length (LEB128.between [] xs) =
      .ok xs := by
  have hbuf : LEB128.encoded xs = Varint.concat ([] ++ xs.map Varint.minimal ++ []) := by
    rw [List.append_nil, List.nil_append, LEB128.encoded]
  have hwalk := LEB128Iterator.walks_position [] (xs.map Varint.minimal) []
    (by simpa using hdec.reads xs) hbuf
  have hvalues : (xs.map Varint.minimal).map Varint.value = xs := by
    simp [Function.comp_def]
  have hlen := Varint.length_le_concat (xs.map Varint.minimal)
  rw [List.append_nil, hvalues] at hwalk
  rw [List.length_map] at hlen
  exact (hwalk.visits LEB128Iterator.atEnd_position).elements _ hlen

/-- The loop yields exactly the numbers; without any, the range begins at its end. -/
def YieldsOffsets (decode : DecodeUleb128) (mem : Bytes) (cmd : LinkeditDataCommand) (macho : ℕ)
    (xs : List UInt64) : Prop := iterateRawOffsets decode mem cmd macho = .ok xs

instance (xs : List UInt64) : Decidable (YieldsOffsets decode mem cmd macho xs) :=
  inferInstanceAs (Decidable (_ = _))

/-- The first number is read when the iterator is made, whether there is one or not. -/
theorem yieldsOffsets_iff (hdec : decode.ReadsMinimal) (hempty : decode [] = none)
    {xs : List UInt64} (hat : At mem (macho + cmd.dataoff.toNat) (LEB128.encoded xs))
    (hsize : cmd.datasize.toNat = (LEB128.encoded xs).length) :
    YieldsOffsets decode mem cmd macho xs ↔ xs ≠ [] := by
  unfold YieldsOffsets iterateRawOffsets
  by_cases hne : xs = []
  · subst hne
    refine iff_of_false (fun h => ?_) (by simp)
    obtain ⟨data, hdata, h⟩ := bind_eq_ok.mp h
    have hnil : data = [] := by
      have hlen := (load_eq_ok hdata).2.1
      rw [hsize] at hlen
      exact List.length_eq_zero_iff.mp hlen
    rw [hnil, rawOffsets, LEB128Iterator.ofBuf_nil hempty] at h
    cases h
  · have hdata : cmd.data mem macho = .ok (LEB128.encoded xs) :=
      load_of_at hat hsize (by simpa [LEB128.encoded_eq_nil] using hne)
    rw [hdata, ok_bind, rawOffsets, LEB128.ofBuf_encoded hdec hne, ok_bind,
      elements_between hdec]
    exact iff_of_true rfl hne

theorem yieldsOffsets_threeWidths :
    YieldsOffsets Varint.read (0xcf :: LEB128.encoded LEB128.threeWidths) ⟨1, 13⟩ 0
      LEB128.threeWidths :=
  (yieldsOffsets_iff DecodeUleb128.readsMinimal_read rfl (by decide) (by decide)).mpr (by decide)

theorem not_yieldsOffsets_empty :
    iterateRawOffsets Varint.read [0xcf] ⟨1, 0⟩ 0 = .error .assertFailed ∧
      ¬YieldsOffsets Varint.read [0xcf] ⟨1, 0⟩ 0 [] :=
  ⟨by decide, by decide⟩

end FunctionStarts
end JevMachO

import JevMachO.Common
import JevMachO.Lib.Runs

/-! Escaping of NVRAM data. Runs of 0x00 and of 0xff become two bytes each, at most 127 long;
other bytes stand for themselves. -/
namespace JevMachO
namespace NVRAM
open Lib

/-- The loop that extends a run of equal bytes. -/
def runEnd (decoded : Bytes) (byte : UInt8) (startPtr : ℕ) : ℕ → ℕ → ℕ
  | 0, wherePtr => wherePtr
  | fuel + 1, wherePtr =>
    if wherePtr - startPtr < 0x7F ∧ wherePtr < decoded.length ∧ decoded[wherePtr]? = some byte then
      runEnd decoded byte startPtr fuel (wherePtr + 1)
    else wherePtr

/-- The loop of `escapeDataToData`: the output offset and the encoded buffer. -/
def escapeLoop (decoded : Bytes) : ℕ → ℕ → ℕ → Bytes → Exec (ℕ × Bytes)
  | fuel, wherePtr, outOff, encoded =>
    if wherePtr < decoded.length then
      match fuel with
      | 0 => .error .endless
      | fuel + 1 => do
        let startPtr := wherePtr
        let byte ← getByte decoded wherePtr
        let wherePtr := wherePtr + 1
        if byte = 0x00 ∨ byte = 0xFF then
          let wherePtr := runEnd decoded byte startPtr 0x7F wherePtr
          let encoded ← putByte encoded outOff 0xFF
          let outOff := inc32 outOff
          let byte := (byte &&& 0x80) ||| UInt8.ofNat (wherePtr - startPtr)
          let encoded ← putByte encoded outOff byte
          escapeLoop decoded fuel wherePtr (inc32 outOff) encoded
        else
          let encoded ← putByte encoded outOff byte
          escapeLoop decoded fuel wherePtr (inc32 outOff) encoded
    else return (outOff, encoded)

def escapeDataToData (decoded encoded : Bytes) : Exec (ℕ × Bytes) := do
  assertThat (decoded.length ≤ encoded.length)
  let (outOff, encoded) ← escapeLoop decoded decoded.length 0 0 encoded
  let encoded ← putByte encoded outOff 0
  let outOff := inc32 outOff
  assertThat (outOff ≤ encoded.length)
  return (outOff, encoded)

/-- The loop of `decodedDataLen`; 0 when a run of length zero is met. -/
def decodedDataLenLoop (escaped : Bytes) : ℕ → ℕ → ℕ → Exec ℕ
  | fuel, offset, totalLength =>
    if offset < escaped.length then
      match fuel with
      | 0 => .error .endless
      | fuel + 1 => do
        let byte ← getByte escaped offset
        let offset := inc32 offset
        if byte = 0xFF then
          let byte ← getByte escaped offset
          let offset := inc32 offset
          if byte = 0x00 then return 0
          let offset2 := (byte &&& 0x7F).toNat
          decodedDataLenLoop escaped fuel offset ((totalLength + offset2) % 2 ^ 32)
        else decodedDataLenLoop escaped fuel offset ((totalLength + 1) % 2 ^ 32)
    else return totalLength

def decodedDataLen (escaped : Bytes) : Exec ℕ :=
  decodedDataLenLoop escaped (escaped.length + 1) 0 0

/-- The inner loop, which writes one byte `offset2` times. -/
def fillByte (byte : UInt8) : ℕ → ℕ → Bytes → Exec (ℕ × Bytes)
  | 0, outOff, decoded => return (outOff, decoded)
  | offset2 + 1, outOff, decoded => do
    let decoded ← putByte decoded outOff byte
    fillByte byte offset2 (inc32 outOff) decoded

/-- The loop of `unescapeBytesToData`. Its bound `length` is the size of the decoded buffer. -/
def unescapeLoop (escaped : Bytes) (length : ℕ) : ℕ → ℕ → ℕ → Bytes → Exec Bytes
  | fuel, offset, outOff, decoded =>
    if offset < length then
      match fuel with
      | 0 => .error .endless
      | fuel + 1 => do
        let byte ← getByte escaped offset
        let offset := inc32 offset
        if byte = 0xFF then
          let byte ← getByte escaped offset
          let offset := inc32 offset
          let offset2 := (byte &&& 0x7F).toNat
          let byte := if byte &&& 0x80 ≠ 0 then 0xFF else 0x00
          let (outOff, decoded) ← fillByte byte offset2 outOff decoded
          unescapeLoop escaped length fuel offset outOff decoded
        else
          let (outOff, decoded) ← fillByte byte 1 outOff decoded
          unescapeLoop escaped length fuel offset outOff decoded
    else return decoded

/-- `unescapeBytesToData`: the length it returns and the decoded buffer. -/
def unescapeBytesToData (escaped decoded : Bytes) : Exec (ℕ × Bytes) := do
  let encBufSz := escaped.length
  let decBufSz := decoded.length
  assertThat (encBufSz ≤ decBufSz)
  let totalLength ← decodedDataLen escaped
  let length := decoded.length
  if totalLength ≠ 0 then
    assertThat (totalLength ≤ length)
    let decoded ← unescapeLoop escaped length (escaped.length + 1) 0 0 decoded
    return (totalLength, decoded)
  else return (totalLength, decoded)

/-! ### Tokens -/

/-- One step of the encoding: a plain byte, or a run of zeros or of ones. -/
inductive Token where
  | literal (b : UInt8) (h0 : b ≠ 0x00) (hF : b ≠ 0xFF)
  | run (ones : Bool) (n : ℕ) (hpos : 0 < n) (hle : n ≤ 0x7F)

namespace Token

/-- The byte a run repeats. -/
def runByte (ones : Bool) : UInt8 := if ones then 0xFF else 0x00

theorem eq_or_eq_iff {b : UInt8} : b = 0x00 ∨ b = 0xFF ↔ ∃ ones, b = runByte ones := by
  constructor
  · rintro (h | h)
    · exact ⟨false, h⟩
    · exact ⟨true, h⟩
  · rintro ⟨ones, rfl⟩
    cases ones
    · exact .inl rfl
    · exact .inr rfl

def bytes : Token → Bytes
  | literal b _ _ => [b]
  | run ones n _ _ => [0xFF, (runByte ones &&& 0x80) ||| UInt8.ofNat n]

def value : Token → Bytes
  | literal b _ _ => [b]
  | run ones n _ _ => List.replicate n (runByte ones)

theorem length_bytes_le (t : Token) : t.bytes.length ≤ 2 * t.value.length := by
  cases t with
  | literal b h0 hF => simp [bytes, value]
  | run ones n hpos hle =>
    simp only [bytes, value, List.length_cons, List.length_nil, List.length_replicate]
    omega

theorem length_bytes_pos (t : Token) : 0 < t.bytes.length := by
  cases t <;> simp [bytes]

/-- The length byte of a run carries the run's byte and length. -/
theorem lengthByte : ∀ ones : Bool, ∀ n < 128, 0 < n →
    ((runByte ones &&& 0x80) ||| UInt8.ofNat n) ≠ 0x00 ∧
      (((runByte ones &&& 0x80) ||| UInt8.ofNat n) &&& 0x7F).toNat = n ∧
      (if ((runByte ones &&& 0x80) ||| UInt8.ofNat n) &&& 0x80 ≠ 0 then (0xFF : UInt8)
        else 0x00) = runByte ones := by
  decide

end Token

/-- The encoded and the decoded form of a list of tokens. -/
def encodedBytes (toks : List Token) : Bytes := toks.flatMap Token.bytes

def decodedBytes (toks : List Token) : Bytes := toks.flatMap Token.value

@[simp] theorem encodedBytes_nil : encodedBytes [] = [] := rfl

@[simp] theorem decodedBytes_nil : decodedBytes [] = [] := rfl

@[simp] theorem encodedBytes_cons (t : Token) (toks : List Token) :
    encodedBytes (t :: toks) = t.bytes ++ encodedBytes toks := rfl

@[simp] theorem decodedBytes_cons (t : Token) (toks : List Token) :
    decodedBytes (t :: toks) = t.value ++ decodedBytes toks := rfl

theorem length_encodedBytes_le (toks : List Token) :
    (encodedBytes toks).length ≤ 2 * (decodedBytes toks).length := by
  induction toks with
  | nil => exact Nat.le_refl 0
  | cons t toks ih =>
    have ht := t.length_bytes_le
    rw [encodedBytes_cons, decodedBytes_cons, List.length_append, List.length_append]
    omega

theorem length_le_encodedBytes (toks : List Token) :
    toks.length ≤ (encodedBytes toks).length := by
  induction toks with
  | nil => exact Nat.le_refl 0
  | cons t toks ih =>
    have ht := t.length_bytes_pos
    rw [encodedBytes_cons, List.length_append, List.length_cons]
    omega

/-! ### Writes -/

/-- Bytes written one after the other from `outOff` on. -/
def putBytes : Bytes → ℕ → Bytes → Exec (ℕ × Bytes)
  | [], outOff, encoded => return (outOff, encoded)
  | b :: bs, outOff, encoded => do
    let encoded ← putByte encoded outOff b
    putBytes bs (inc32 outOff) encoded

theorem putBytes_append (as bs : Bytes) (outOff : ℕ) (encoded : Bytes) :
    putBytes (as ++ bs) outOff encoded =
      (putBytes as outOff encoded >>= fun r => putBytes bs r.1 r.2) := by
  induction as generalizing outOff encoded with
  | nil => rfl
  | cons a as ih =>
    rw [List.cons_append, putBytes, putBytes]
    cases putByte encoded outOff a with
    | error e => rfl
    | ok encoded => exact ih _ _

/-- Behind what is written already, and below the range of the offset, bytes are written exactly
when they fit. -/
theorem putBytes_eq_ok {enc out bs : Bytes} {r : ℕ × Bytes} (hle : out.length ≤ enc.length)
    (h32 : out.length + bs.length < 2 ^ 32) :
    putBytes bs out.length (out ++ enc.drop out.length) = .ok r ↔
      (out ++ bs).length ≤ enc.length ∧
        r = ((out ++ bs).length, (out ++ bs) ++ enc.drop (out ++ bs).length) := by
  induction bs generalizing out with
  | nil =>
    rw [List.append_nil, putBytes, pure_eq_ok, Except.ok.injEq]
    exact ⟨fun h => ⟨hle, h.symm⟩, fun h => h.2.symm⟩
  | cons b bs ih =>
    rw [List.length_cons] at h32
    have hlen : inc32 out.length = (out ++ [b]).length := by
      rw [inc32_eq (by omega), List.length_append, List.length_singleton]
    have hout : (out ++ [b]).length = out.length + 1 := by simp
    rw [putBytes, List.append_cons, bind_eq_ok, hlen]
    constructor
    · rintro ⟨encoded, hput, hrest⟩
      obtain ⟨hlt, rfl⟩ := putByte_eq_ok hle hput
      exact (ih (by omega) (by omega)).mp hrest
    · intro h
      have hfit := h.1
      rw [List.length_append] at hfit
      exact ⟨_, putByte_append (by omega) b, (ih (by omega) (by omega)).mpr h⟩

/-! ### The encoder writes tokens -/

/-- A run is extended while its byte repeats, up to 127 bytes. -/
theorem runEnd_spec {d : Bytes} {byte : UInt8} {start : ℕ} (fuel w : ℕ) (hlt : start < w)
    (hle : w - start ≤ 0x7F) (hw : w ≤ d.length)
    (hrun : d.drop start = List.replicate (w - start) byte ++ d.drop w) :
    start < runEnd d byte start fuel w ∧ runEnd d byte start fuel w - start ≤ 0x7F ∧
      runEnd d byte start fuel w ≤ d.length ∧
      d.drop start = List.replicate (runEnd d byte start fuel w - start) byte ++
        d.drop (runEnd d byte start fuel w) := by
  induction fuel generalizing w with
  | zero => exact ⟨hlt, hle, hw, hrun⟩
  | succ fuel ih =>
    unfold runEnd
    split_ifs with h
    · obtain ⟨h127, hwd, hbyte⟩ := h
      have hdrop : d.drop w = byte :: d.drop (w + 1) := by
        rw [List.drop_eq_getElem_cons hwd]
        rw [List.getElem?_eq_getElem hwd] at hbyte
        rw [Option.some.inj hbyte]
      apply ih (w + 1) (by omega) (by omega) hwd
      rw [hrun, hdrop, show w + 1 - start = (w - start) + 1 by omega, List.replicate_succ',
        List.append_assoc, List.singleton_append]
    · exact ⟨hlt, hle, hw, hrun⟩

/-- A run shorter than 127 bytes is not followed by its byte. -/
theorem runEnd_stops {d : Bytes} {byte : UInt8} {start : ℕ} (fuel w : ℕ) (hlt : start < w)
    (hfuel : 0x7F ≤ fuel + (w - start)) (hshort : runEnd d byte start fuel w - start < 0x7F) :
    (d.drop (runEnd d byte start fuel w)).head? ≠ some byte := by
  induction fuel generalizing w with
  | zero =>
    rw [runEnd] at hshort
    omega
  | succ fuel ih =>
    unfold runEnd at hshort ⊢
    split_ifs with h
    · rw [if_pos h] at hshort
      exact ih (w + 1) (by omega) (by omega) hshort
    · rw [if_neg h] at hshort
      rw [List.head?_drop]
      intro hbyte
      exact h ⟨hshort, (List.getElem?_eq_some_iff.mp hbyte).1, hbyte⟩

/-- What a run of one byte is escaped to: pairs of at most 127 zeros or ones each, and other
bytes alone. -/
def runSize (byte : UInt8) (n : ℕ) : ℕ :=
  if byte = 0x00 ∨ byte = 0xFF then 2 * ((n + 126) / 127) else n

/-- How many bytes data is escaped to. -/
def escapedSize (d : Bytes) : ℕ := runCost runSize d

theorem runSize_zero (byte : UInt8) : runSize byte 0 = 0 := by
  unfold runSize
  split_ifs <;> rfl

theorem escapedSize_literal {b : UInt8} (h : ¬(b = 0x00 ∨ b = 0xFF)) (bs : Bytes) :
    escapedSize (b :: bs) = 1 + escapedSize bs := by
  refine runCost_take (k := 1) (runSize_zero b) fun n _ => ?_
  simp only [runSize, if_neg h]

theorem escapedSize_run {b : UInt8} (h : b = 0x00 ∨ b = 0xFF) {n : ℕ} (hpos : 0 < n)
    (hle : n ≤ 0x7F) {bs : Bytes} (hstop : n < 0x7F → bs.head? ≠ some b) :
    escapedSize (List.replicate n b ++ bs) = 2 + escapedSize bs := by
  refine runCost_take (runSize_zero b) fun m hm => ?_
  have hm0 : n < 0x7F → m = 0 := fun hlt => by
    by_contra hne
    exact hstop hlt (hm hne)
  simp only [runSize, if_pos h]
  omega

/-- From an offset on, the loop writes the encoding of tokens for the bytes it has not read. -/
structure WritesRest (d : Bytes) (fuel w : ℕ) (toks : List Token) : Prop where
  value : decodedBytes toks = d.drop w
  size : (encodedBytes toks).length = escapedSize (d.drop w)
  writes : ∀ outOff encoded, escapeLoop d fuel w outOff encoded =
    putBytes (encodedBytes toks) outOff encoded

section escapeLoop
variable {d : Bytes} {fuel w : ℕ} {toks : List Token}

theorem writesRest_nil (hw : d.length ≤ w) (fuel : ℕ) : WritesRest d fuel w [] where
  value := (List.drop_of_length_le hw).symm
  size := by
    rw [List.drop_of_length_le hw]
    rfl
  writes _ _ := by
    cases fuel <;> unfold escapeLoop <;> rw [if_neg (by omega)] <;> rfl

theorem WritesRest.literal (h : WritesRest d fuel (w + 1) toks) (hw : w < d.length)
    (h0 : d[w] ≠ 0x00) (hF : d[w] ≠ 0xFF) :
    WritesRest d (fuel + 1) w (.literal d[w] h0 hF :: toks) where
  value := by
    rw [decodedBytes_cons, h.value, List.drop_eq_getElem_cons hw]
    rfl
  size := by
    rw [List.drop_eq_getElem_cons hw, escapedSize_literal (not_or.mpr ⟨h0, hF⟩), encodedBytes_cons,
      List.length_append, h.size]
    rfl
  writes _ _ := by
    have hget : getByte d w = .ok d[w] := by simp [getByte, hw]
    rw [encodedBytes_cons, putBytes_append]
    unfold escapeLoop
    simp only [if_pos hw, hget, ok_bind, if_neg (not_or.mpr ⟨h0, hF⟩), h.writes, Token.bytes,
      putBytes, bind_assoc, pure_eq_ok]

theorem WritesRest.run {ones : Bool} {e : ℕ} (h : WritesRest d fuel e toks) (hw : w < d.length)
    (hbyte : d[w] = Token.runByte ones)
    (he : runEnd d (Token.runByte ones) w 0x7F (w + 1) = e) (hpos : 0 < e - w)
    (hle : e - w ≤ 0x7F)
    (hrun : d.drop w = List.replicate (e - w) (Token.runByte ones) ++ d.drop e) :
    WritesRest d (fuel + 1) w (.run ones (e - w) hpos hle :: toks) where
  value := by
    rw [decodedBytes_cons, h.value, hrun]
    rfl
  size := by
    have hspecial := Token.eq_or_eq_iff.mpr ⟨ones, rfl⟩
    have hstop : e - w < 0x7F → (d.drop e).head? ≠ some (Token.runByte ones) := by
      subst he
      exact runEnd_stops 0x7F (w + 1) (Nat.lt_succ_self w) (by omega)
    rw [hrun, escapedSize_run hspecial hpos hle hstop, encodedBytes_cons,
      List.length_append, h.size]
    rfl
  writes _ _ := by
    have hspecial := Token.eq_or_eq_iff.mpr ⟨ones, rfl⟩
    have hget : getByte d w = .ok (Token.runByte ones) := by simp [getByte, hw, hbyte]
    rw [encodedBytes_cons, putBytes_append]
    unfold escapeLoop
    simp only [if_pos hw, hget, ok_bind, if_pos hspecial, he, h.writes, Token.bytes,
      putBytes, bind_assoc, pure_eq_ok]

end escapeLoop

theorem exists_writesRest (d : Bytes) (fuel : ℕ) {w : ℕ} (hfuel : d.length - w ≤ fuel) :
    ∃ toks, WritesRest d fuel w toks := by
  induction fuel generalizing w with
  | zero => exact ⟨[], writesRest_nil (by omega) 0⟩
  | succ fuel ih =>
    by_cases hw : w < d.length
    · by_cases hspecial : d[w] = 0x00 ∨ d[w] = 0xFF
      · obtain ⟨ones, hbyte⟩ := Token.eq_or_eq_iff.mp hspecial
        have hone : d.drop w =
            List.replicate (w + 1 - w) (Token.runByte ones) ++ d.drop (w + 1) := by
          rw [Nat.add_sub_cancel_left, List.drop_eq_getElem_cons hw, hbyte]
          rfl
        obtain ⟨hlt, hle, hend, hrun⟩ := runEnd_spec 0x7F (w + 1) (by omega) (by omega) hw hone
        obtain ⟨toks, h⟩ := @ih (runEnd d (Token.runByte ones) w 0x7F (w + 1)) (by omega)
        exact ⟨_, h.run hw hbyte rfl (by omega) hle hrun⟩
      · obtain ⟨toks, h⟩ := @ih (w + 1) (by omega)
        exact ⟨_, h.literal hw (fun h0 => hspecial (.inl h0)) fun hF => hspecial (.inr hF)⟩
    · exact ⟨[], writesRest_nil (by omega) (fuel + 1)⟩

/-- `escapeDataToData` writes the encoding of tokens for the data and a final 0. -/
theorem exists_escapeDataToData_eq (d : Bytes) :
    ∃ toks, decodedBytes toks = d ∧ (encodedBytes toks).length = escapedSize d ∧
      ∀ encoded, escapeDataToData d encoded = (do
        assertThat (d.length ≤ encoded.length)
        let r ← putBytes (encodedBytes toks ++ [0]) 0 encoded
        assertThat (r.1 ≤ r.2.length)
        return r) := by
  obtain ⟨toks, h⟩ := exists_writesRest d d.length (w := 0) (by omega)
  have hsize := h.size
  rw [List.drop_zero] at hsize
  refine ⟨toks, h.value, hsize, fun encoded => ?_⟩
  unfold escapeDataToData
  simp only [h.writes, putBytes_append, putBytes, bind_assoc, pure_eq_ok, ok_bind]

/-- It returns exactly when the buffer is as large as the data and has room for the output. -/
theorem escapeDataToData_spec {d : Bytes} (hd : d.length < 2 ^ 31) :
    ∃ toks, decodedBytes toks = d ∧ ∀ (enc : Bytes) (r : ℕ × Bytes),
      (escapeDataToData d enc = .ok r ↔
        d.length ≤ enc.length ∧ (encodedBytes toks).length + 1 ≤ enc.length ∧
          r = ((encodedBytes toks).length + 1,
            encodedBytes toks ++ 0 :: enc.drop ((encodedBytes toks).length + 1))) := by
  obtain ⟨toks, hval, -, hesc⟩ := exists_escapeDataToData_eq d
  refine ⟨toks, hval, fun enc r => ?_⟩
  have hlen := length_encodedBytes_le toks
  rw [hval] at hlen
  have hsize : (encodedBytes toks ++ [0]).length = (encodedBytes toks).length + 1 := by simp
  have hput : ∀ r, putBytes (encodedBytes toks ++ [0]) 0 enc = .ok r ↔
      (encodedBytes toks).length + 1 ≤ enc.length ∧ r = ((encodedBytes toks).length + 1,
        encodedBytes toks ++ 0 :: enc.drop ((encodedBytes toks).length + 1)) := fun r => by
    have h := @putBytes_eq_ok enc [] (encodedBytes toks ++ [0]) r (Nat.zero_le _)
      (by rw [hsize, List.length_nil]; omega)
    rwa [List.nil_append, List.nil_append, List.length_nil, List.drop_zero, hsize,
      List.append_assoc, List.singleton_append] at h
  rw [hesc, bind_eq_ok]
  constructor
  · rintro ⟨u, hu, h⟩
    have hle : d.length ≤ enc.length := by simpa [assertThat] using hu
    obtain ⟨r', hr', h⟩ := bind_eq_ok.mp h
    obtain ⟨-, -, h⟩ := bind_eq_ok.mp h
    obtain rfl := Except.ok.inj h
    exact ⟨hle, (hput r').mp hr'⟩
  · rintro ⟨hle, hr⟩
    refine ⟨(), by simp [hle], bind_eq_ok.mpr ⟨r, (hput r).mpr hr, ?_⟩⟩
    have hroom : r.1 ≤ r.2.length := by
      obtain ⟨-, rfl⟩ := hr
      simp only [List.length_append, List.length_cons]
      omega
    simp only [hroom, decide_true, assertThat_true, ok_bind, pure_eq_ok]

/-! ### The decoder reads tokens -/

theorem getByte_append {pre suf : Bytes} {i : ℕ} {b : UInt8} (h : suf[i]? = some b) :
    getByte (pre ++ suf) (pre.length + i) = .ok b := by
  unfold getByte
  rw [List.getElem?_append_right (by omega), Nat.add_sub_cancel_left, h]

/-- A token of any escaped span. -/
inductive Piece where
  | byte (b : UInt8)
  | pair (c : UInt8)
  deriving DecidableEq, Repr

/-- How many bytes of data a token stands for. -/
def Piece.len : Piece → ℕ
  | byte _ => 1
  | pair c => (c &&& 0x7F).toNat

/-- The tokens of a span in order, and what is left of it: nothing, or a lone 0xff. -/
def scan : Bytes → List Piece × Bytes
  | [] => ([], [])
  | [b] => if b = 0xFF then ([], [b]) else ([.byte b], [])
  | b :: c :: bs =>
    if b = 0xFF then (.pair c :: (scan bs).1, (scan bs).2)
    else (.byte b :: (scan (c :: bs)).1, (scan (c :: bs)).2)

def scannedLen (escaped : Bytes) : ℕ := ((scan escaped).1.map Piece.len).sum

theorem scan_byte {b : UInt8} (hF : b ≠ 0xFF) (bs : Bytes) :
    scan (b :: bs) = (.byte b :: (scan bs).1, (scan bs).2) := by
  cases bs with
  | nil => simp [scan, hF]
  | cons c bs => rw [scan, if_neg hF]

theorem scan_pair (c : UInt8) (bs : Bytes) :
    scan (0xFF :: c :: bs) = (.pair c :: (scan bs).1, (scan bs).2) := by
  rw [scan, if_pos rfl]

theorem scannedLen_byte {b : UInt8} (hF : b ≠ 0xFF) (bs : Bytes) :
    scannedLen (b :: bs) = 1 + scannedLen bs := by
  rw [scannedLen, scan_byte hF, List.map_cons, List.sum_cons, scannedLen, Piece.len]

theorem scannedLen_pair (c : UInt8) (bs : Bytes) :
    scannedLen (0xFF :: c :: bs) = (c &&& 0x7F).toNat + scannedLen bs := by
  rw [scannedLen, scan_pair, List.map_cons, List.sum_cons, scannedLen, Piece.len]

theorem decodedDataLenLoop_byte {pre bs : Bytes} {b : UInt8} {fuel total : ℕ} (hF : b ≠ 0xFF)
    (h32 : (pre ++ b :: bs).length < 2 ^ 32) (htotal : total + 1 < 2 ^ 32) :
    decodedDataLenLoop (pre ++ b :: bs) (fuel + 1) pre.length total =
      decodedDataLenLoop ((pre ++ [b]) ++ bs) fuel (pre ++ [b]).length (total + 1) := by
  have hb : getByte (pre ++ b :: bs) pre.length = .ok b := getByte_append (i := 0) rfl
  have hlen : (pre ++ b :: bs).length = pre.length + (bs.length + 1) := by simp
  conv_lhs => unfold decodedDataLenLoop
  rw [if_pos (by omega)]
  simp only [hb, ok_bind, if_neg hF]
  rw [inc32_eq (by omega), Nat.mod_eq_of_lt htotal, List.append_cons, List.length_append,
    List.length_singleton]

theorem decodedDataLenLoop_pair {pre bs : Bytes} {c : UInt8} {fuel total : ℕ}
    (h32 : (pre ++ 0xFF :: c :: bs).length < 2 ^ 32)
    (htotal : total + (c &&& 0x7F).toNat < 2 ^ 32) :
    decodedDataLenLoop (pre ++ 0xFF :: c :: bs) (fuel + 1) pre.length total =
      if c = 0x00 then .ok 0
      else decodedDataLenLoop ((pre ++ [0xFF, c]) ++ bs) fuel (pre ++ [0xFF, c]).length
        (total + (c &&& 0x7F).toNat) := by
  have hb : getByte (pre ++ 0xFF :: c :: bs) pre.length = .ok 0xFF := getByte_append (i := 0) rfl
  have hc : getByte (pre ++ 0xFF :: c :: bs) (pre.length + 1) = .ok c :=
    getByte_append (i := 1) rfl
  have hlen : (pre ++ 0xFF :: c :: bs).length = pre.length + (bs.length + 2) := by simp
  conv_lhs => unfold decodedDataLenLoop
  rw [if_pos (by omega)]
  simp only [hb, ok_bind, if_true, inc32_eq (n := pre.length) (by omega), hc]
  split_ifs with h0
  · rfl
  · rw [inc32_eq (by omega), Nat.mod_eq_of_lt htotal, List.append_assoc, List.length_append]
    rfl

/-- The loop follows the scan. A pair of length zero ends it, a lone 0xff takes it out of the
span. -/
theorem decodedDataLenLoop_eq {pre suf : Bytes} {fuel total : ℕ} (hfuel : suf.length ≤ fuel)
    (h32 : (pre ++ suf).length < 2 ^ 32) (htotal : total + scannedLen suf < 2 ^ 32) :
    decodedDataLenLoop (pre ++ suf) fuel pre.length total =
      if .pair 0x00 ∈ (scan suf).1 then .ok 0
      else if (scan suf).2 = [] then .ok (total + scannedLen suf)
      else .error .outOfBounds := by
  induction fuel generalizing suf pre total with
  | zero =>
    obtain rfl := List.length_eq_zero_iff.mp (Nat.le_zero.mp hfuel)
    unfold decodedDataLenLoop
    simp [scan, scannedLen]
  | succ fuel ih =>
    cases suf with
    | nil =>
      unfold decodedDataLenLoop
      simp [scan, scannedLen]
    | cons b bs =>
      rw [List.length_cons, Nat.add_le_add_iff_right] at hfuel
      by_cases hF : b = 0xFF
      · subst hF
        cases bs with
        | nil =>
          -- the length byte of the pair is asked for behind the span
          have hb : getByte (pre ++ [0xFF]) pre.length = .ok 0xFF := getByte_append (i := 0) rfl
          rw [List.length_append, List.length_singleton] at h32
          have hpast : getByte (pre ++ [0xFF]) (pre.length + 1) = .error .outOfBounds := by
            simp [getByte]
          unfold decodedDataLenLoop
          simp [hb, inc32_eq h32, hpast, scan]
        | cons c bs =>
          rw [scannedLen_pair] at htotal ⊢
          rw [decodedDataLenLoop_pair h32 (by omega), scan_pair]
          by_cases h0 : c = 0x00
          · simp [h0]
          · have hrest := @ih (pre ++ [0xFF, c]) bs (total + (c &&& 0x7F).toNat)
              (by rw [List.length_cons] at hfuel; omega)
              (by rwa [List.append_assoc]) (by omega)
            have hpair : Piece.pair 0x00 ≠ .pair c := fun h => h0 (Piece.pair.inj h).symm
            rw [if_neg h0, hrest, Nat.add_assoc]
            simp only [List.mem_cons, hpair, false_or]
      · rw [scannedLen_byte hF] at htotal ⊢
        have hrest := @ih (pre ++ [b]) bs (total + 1) hfuel (by rwa [← List.append_cons])
          (by omega)
        rw [decodedDataLenLoop_byte hF h32 (by omega), scan_byte hF, hrest, Nat.add_assoc]
        simp only [List.mem_cons, reduceCtorEq, false_or]

theorem decodedDataLen_eq {escaped : Bytes} (h32 : escaped.length < 2 ^ 32)
    (hlen : scannedLen escaped < 2 ^ 32) :
    decodedDataLen escaped =
      if .pair 0x00 ∈ (scan escaped).1 then .ok 0
      else if (scan escaped).2 = [] then .ok (scannedLen escaped) else .error .outOfBounds := by
  have h := @decodedDataLenLoop_eq [] escaped _ 0 (Nat.le_succ escaped.length) h32
    (by rwa [Nat.zero_add])
  rwa [Nat.zero_add, List.nil_append] at h

/-- What the encoder writes is scanned as its tokens. -/
theorem scan_encodedBytes (toks : List Token) :
    .pair 0x00 ∉ (scan (encodedBytes toks)).1 ∧ (scan (encodedBytes toks)).2 = [] ∧
      scannedLen (encodedBytes toks) = (decodedBytes toks).length := by
  induction toks with
  | nil => exact ⟨List.not_mem_nil, rfl, rfl⟩
  | cons t toks ih =>
    obtain ⟨hpair, hrest, hlen⟩ := ih
    rw [encodedBytes_cons, decodedBytes_cons, List.length_append]
    cases t with
    | literal b h0 hF =>
      rw [Token.bytes, List.singleton_append, scan_byte hF, scannedLen_byte hF, hlen]
      exact ⟨by simpa using hpair, hrest, rfl⟩
    | run ones n hpos hle =>
      obtain ⟨hne, hn, -⟩ := Token.lengthByte ones n (by omega) hpos
      rw [Token.bytes, List.cons_append, List.singleton_append, scan_pair, scannedLen_pair, hlen,
        hn]
      refine ⟨?_, hrest, by rw [Token.value, List.length_replicate]⟩
      rw [List.mem_cons, not_or]
      exact ⟨fun h => hne (Piece.pair.inj h).symm, hpair⟩

theorem decodedDataLen_encodedBytes {toks : List Token}
    (h : (decodedBytes toks).length < 2 ^ 31) :
    decodedDataLen (encodedBytes toks) = .ok (decodedBytes toks).length := by
  have hlen := length_encodedBytes_le toks
  obtain ⟨hpair, hrest, hscan⟩ := scan_encodedBytes toks
  rw [decodedDataLen_eq (by omega) (by omega), if_neg hpair, if_pos hrest, hscan]

theorem fillByte_eq (byte : UInt8) (n outOff : ℕ) (decoded : Bytes) :
    fillByte byte n outOff decoded = putBytes (List.replicate n byte) outOff decoded := by
  induction n generalizing outOff decoded with
  | zero => rfl
  | succ n ih =>
    rw [fillByte, List.replicate_succ, putBytes]
    cases putByte decoded outOff byte with
    | error e => rfl
    | ok decoded => exact ih _ _

theorem fillByte_spec (byte : UInt8) {out dec : Bytes} {n : ℕ}
    (hfit : out.length + n ≤ dec.length) (h32 : out.length + n < 2 ^ 32) :
    fillByte byte n out.length (out ++ dec.drop out.length) =
      .ok ((out ++ List.replicate n byte).length, (out ++ List.replicate n byte) ++
        dec.drop (out ++ List.replicate n byte).length) := by
  rw [fillByte_eq]
  refine (putBytes_eq_ok (by omega) (by rwa [List.length_replicate])).mpr ⟨?_, rfl⟩
  rwa [List.length_append, List.length_replicate]

/-- Reading the encoding of one token writes its value. -/
theorem unescapeLoop_token (t : Token) {e dec pre suf out : Bytes} {length fuel : ℕ}
    (he : e = pre ++ (t.bytes ++ suf)) (h32 : e.length < 2 ^ 32) (hlength : e.length ≤ length)
    (hfit : out.length + t.value.length ≤ dec.length)
    (hout : out.length + t.value.length < 2 ^ 32) :
    unescapeLoop e length (fuel + 1) pre.length out.length (out ++ dec.drop out.length) =
      unescapeLoop e length fuel (pre ++ t.bytes).length (out ++ t.value).length
        ((out ++ t.value) ++ dec.drop (out ++ t.value).length) := by
  have hbytes := t.length_bytes_pos
  have hlen : e.length = pre.length + (t.bytes.length + suf.length) := by
    rw [he, List.length_append, List.length_append]
  conv_lhs => unfold unescapeLoop
  rw [if_pos (by omega)]
  cases t with
  | literal b h0 hF =>
    have hb : getByte e pre.length = .ok b := by
      rw [he]
      exact getByte_append (i := 0) rfl
    have hfill := fillByte_spec b hfit hout
    simp only [Token.bytes, Token.value, List.length_singleton, List.length_append] at *
    simp only [hb, ok_bind, if_neg hF, hfill, inc32_eq (n := pre.length) (by omega)]
    rfl
  | run ones n hpos hle =>
    obtain ⟨-, hn, hones⟩ := Token.lengthByte ones n (by omega) hpos
    simp only [Token.bytes, Token.value, List.length_cons, List.length_nil,
      List.length_replicate] at he hlen hfit hout ⊢
    set len : UInt8 := (Token.runByte ones &&& 0x80) ||| UInt8.ofNat n
    have hb₁ : getByte e pre.length = .ok 0xFF := by
      rw [he]
      exact getByte_append (i := 0) rfl
    have hb₂ : getByte e (pre.length + 1) = .ok len := by
      rw [he]
      exact getByte_append (i := 1) rfl
    have hfill := fillByte_spec (Token.runByte ones) hfit hout
    simp only [hb₁, ok_bind, if_true, inc32_eq (n := pre.length) (by omega), hb₂, hn, hones,
      hfill, inc32_eq (n := pre.length + 1) (by omega)]
    simp only [List.length_append, List.length_cons, List.length_nil]

/-- Reading the encoding of tokens writes their values; the loop then stands behind them. -/
theorem unescapeLoop_tokens {toks : List Token} {e d dec pre out : Bytes} {length : ℕ} (fuel : ℕ)
    (he : e = pre ++ encodedBytes toks) (hd : d = out ++ decodedBytes toks)
    (h32 : e.length < 2 ^ 32) (hlength : e.length ≤ length) (hfit : d.length ≤ dec.length)
    (hout : d.length < 2 ^ 32) :
    unescapeLoop e length (fuel + toks.length) pre.length out.length
        (out ++ dec.drop out.length) =
      unescapeLoop e length fuel e.length d.length (d ++ dec.drop d.length) := by
  induction toks generalizing pre out with
  | nil =>
    rw [encodedBytes_nil, List.append_nil] at he
    rw [decodedBytes_nil, List.append_nil] at hd
    rw [he, hd]
    rfl
  | cons t toks ih =>
    rw [encodedBytes_cons] at he
    rw [decodedBytes_cons, ← List.append_assoc] at hd
    have hlen : d.length = out.length + t.value.length + (decodedBytes toks).length := by
      rw [hd, List.length_append, List.length_append]
    rw [List.length_cons, ← Nat.add_assoc,
      unescapeLoop_token t he h32 hlength (by omega) (by omega)]
    exact ih (by rw [he, List.append_assoc]) hd

/-! ### The round trip -/

/-- Unescaping `e` into `dec` reads only bytes of `e`, returns the length of `d`, and leaves `d`
at the start of `dec` with every later byte unchanged. -/
def UnescapesTo (e dec d : Bytes) : Prop :=
  unescapeBytesToData e dec = .ok (d.length, d ++ dec.drop d.length)

instance (e dec d : Bytes) : Decidable (UnescapesTo e dec d) :=
  inferInstanceAs (Decidable (_ = _))

theorem unescapesTo_tokens {toks : List Token} {dec : Bytes}
    (h31 : (decodedBytes toks).length < 2 ^ 31) (hd : (decodedBytes toks).length ≤ dec.length)
    (he : (encodedBytes toks).length ≤ dec.length) :
    UnescapesTo (encodedBytes toks) dec (decodedBytes toks) ↔
      decodedBytes toks = [] ∨ dec.length = (encodedBytes toks).length := by
  have h32 := length_encodedBytes_le toks
  have hfuel := length_le_encodedBytes toks
  have hlen := decodedDataLen_encodedBytes h31
  unfold UnescapesTo unescapeBytesToData
  simp only [he, decide_true, assertThat_true, ok_bind, hlen]
  by_cases hnil : decodedBytes toks = []
  · simp [hnil]
  have hpos : (decodedBytes toks).length ≠ 0 := by simpa using hnil
  obtain ⟨k, hk⟩ := Nat.exists_eq_add_of_le hfuel
  have hloop := unescapeLoop_tokens (k + 1) (List.nil_append (encodedBytes toks)).symm
    (List.nil_append (decodedBytes toks)).symm (by omega) he hd (by omega)
  rw [show k + 1 + toks.length = (encodedBytes toks).length + 1 by omega] at hloop
  simp only [List.length_nil, List.nil_append, List.drop_zero] at hloop
  simp only [if_pos hpos, hd, decide_true, assertThat_true, ok_bind, hloop, hnil, false_or]
  unfold unescapeLoop
  by_cases hlt : (encodedBytes toks).length < dec.length
  · -- the bound of the loop is the decoded buffer's size, so it reads on behind the input
    have hne : dec.length ≠ (encodedBytes toks).length := by omega
    simp [hlt, hne, getByte_length]
  · have heq : dec.length = (encodedBytes toks).length := by omega
    simp [heq]

/-- What the escaper wrote without its final 0 unescapes to the data exactly when the data is
empty or the decoded buffer has just the size of the escaped form. -/
theorem unescapesTo_iff {d enc enc' dec : Bytes} {outOff : ℕ} (hd : d.length < 2 ^ 31)
    (hesc : escapeDataToData d enc = .ok (outOff, enc'))
    (hdec : max d.length (enc'.take (outOff - 1)).length ≤ dec.length) :
    UnescapesTo (enc'.take (outOff - 1)) dec d ↔
      d = [] ∨ dec.length = (enc'.take (outOff - 1)).length := by
  obtain ⟨toks, rfl, hspec⟩ := escapeDataToData_spec hd
  obtain ⟨-, -, hr⟩ := (hspec enc (outOff, enc')).mp hesc
  obtain ⟨rfl, rfl⟩ := Prod.mk.inj hr
  rw [Nat.add_sub_cancel, List.take_left] at hdec ⊢
  exact unescapesTo_tokens hd (by omega) (by omega)

theorem unescapesTo_zeros : UnescapesTo [0x41, 0xFF, 0x02] [1, 2, 3] [0x41, 0x00, 0x00] := by
  have hesc : escapeDataToData [0x41, 0x00, 0x00] [0, 0, 0, 0] =
      .ok (4, [0x41, 0xFF, 0x02, 0x00]) := by decide
  exact (unescapesTo_iff (by decide) hesc (by decide)).mpr (.inr rfl)

theorem not_unescapesTo_twoBytes :
    escapeDataToData [0x41] [0, 0] = .ok (2, [0x41, 0x00]) ∧
      max 1 ([0x41, 0x00].take (2 - 1)).length ≤ 2 ∧
      unescapeBytesToData [0x41] [0, 0] = .error .outOfBounds ∧
      ¬UnescapesTo [0x41] [0, 0] [0x41] := by
  decide

end NVRAM
end JevMachO

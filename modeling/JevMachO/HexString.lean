import JevMachO.Hex

/-! Writing bytes as hexadecimal text, the first byte and its high nibble first. The text is put
into a string of a fixed capacity. -/
namespace JevMachO
open Lib

/-- Callers pass a nibble; other values are unreachable in the source. -/
def nibbleToAsciiHex (chr : UInt8) : UInt8 :=
  if chr ≤ 9 then chr + 0x30
  else if 0xA ≤ chr && chr ≤ 0xF then chr - 0xA + 0x61
  else 0

def asciiHexToByte (hex0 hex1 : UInt8) : UInt8 :=
  asciiHexToNibble hex0 <<< 4 ||| asciiHexToNibble hex1

/-- The two characters that `byte_to_ascii_hex` writes. -/
def byteToAsciiHex (n : UInt8) : Bytes := [nibbleToAsciiHex (n >>> 4), nibbleToAsciiHex (n &&& 0xF)]

/-- The result is a `static_string` of twice as many characters as bytes. -/
def buf2hexstr {bufSz : ℕ} (staticString : FixedCapacity UInt8 (bufSz * 2)) (buf : Bytes) :
    Exec Bytes :=
  let binbuf := buf.take (min buf.length bufSz)
  binbuf.foldlM (fun hexstr n => staticString.append hexstr (byteToAsciiHex n)) []

/-- The bytes that consecutive pairs of characters stand for. -/
def decodePairs : Bytes → Bytes
  | hex0 :: hex1 :: rest => asciiHexToByte hex0 hex1 :: decodePairs rest
  | _ => []

/-! ### One byte -/

theorem isNumeral_byteToAsciiHex (n : UInt8) : IsNumeral hexAlphabet (byteToAsciiHex n) :=
  of_decide_eq_true (u8_forall
    (p := fun n => decide (IsNumeral hexAlphabet (byteToAsciiHex n))) (by decide +kernel) n)

theorem asciiHexToByte_byteToAsciiHex (n : UInt8) :
    asciiHexToByte (nibbleToAsciiHex (n >>> 4)) (nibbleToAsciiHex (n &&& 0xF)) = n :=
  eq_of_beq (u8_forall
    (p := fun n => asciiHexToByte (nibbleToAsciiHex (n >>> 4)) (nibbleToAsciiHex (n &&& 0xF)) == n)
    (by decide +kernel) n)

theorem idxOf_byteToAsciiHex (n : UInt8) :
    hexAlphabet.idxOf (nibbleToAsciiHex (n >>> 4)) * 16 +
      hexAlphabet.idxOf (nibbleToAsciiHex (n &&& 0xF)) = n.toNat :=
  eq_of_beq (u8_forall (p := fun n => hexAlphabet.idxOf (nibbleToAsciiHex (n >>> 4)) * 16 +
    hexAlphabet.idxOf (nibbleToAsciiHex (n &&& 0xF)) == n.toNat) (by decide +kernel) n)

/-! ### The text of a buffer -/

def hexText (b : Bytes) : Bytes := b.flatMap byteToAsciiHex

variable {b : Bytes}

theorem hexText_concat (b : Bytes) (n : UInt8) :
    hexText (b ++ [n]) = hexText b ++ byteToAsciiHex n := by
  rw [hexText, List.flatMap_append, List.flatMap_singleton]
  rfl

theorem length_hexText (b : Bytes) : (hexText b).length = 2 * b.length := by
  induction b with
  | nil => rfl
  | cons n b ih =>
    change (byteToAsciiHex n ++ hexText b).length = _
    rw [List.length_append, ih, List.length_cons]
    change 2 + 2 * b.length = _
    omega

theorem isNumeral_hexText (b : Bytes) : IsNumeral hexAlphabet (hexText b) := by
  intro c hc
  obtain ⟨n, -, hc⟩ := List.mem_flatMap.mp hc
  exact isNumeral_byteToAsciiHex n c hc

theorem decodePairs_hexText (b : Bytes) : decodePairs (hexText b) = b := by
  induction b with
  | nil => rfl
  | cons n b ih =>
    change asciiHexToByte _ _ :: decodePairs (hexText b) = _
    rw [asciiHexToByte_byteToAsciiHex, ih]

/-- The number is the one whose big-endian bytes these are. -/
theorem numeral_hexText (b : Bytes) : numeral hexAlphabet (hexText b) = ofLE b.reverse := by
  induction b using List.reverseRecOn with
  | nil => rfl
  | append_singleton b n ih =>
    have hbyte : byteToAsciiHex n =
        [nibbleToAsciiHex (n >>> 4)] ++ [nibbleToAsciiHex (n &&& 0xF)] := rfl
    have hidx := idxOf_byteToAsciiHex n
    have hbase : hexAlphabet.length = 16 := rfl
    rw [hexText_concat, hbyte, ← List.append_assoc, numeral_concat, numeral_concat, ih, hbase,
      List.reverse_append, List.reverse_singleton, List.singleton_append, ofLE]
    omega

/-- The capacity is enough for all that is written. -/
theorem buf2hexstr_eq {bufSz : ℕ} (staticString : FixedCapacity UInt8 (bufSz * 2)) (b : Bytes) :
    buf2hexstr staticString b = .ok (hexText (b.take (min b.length bufSz))) := by
  refine staticString.foldlM_append byteToAsciiHex _ [] ?_
  change 0 + (hexText _).length ≤ _
  rw [length_hexText, List.length_take]
  omega

/-- The text of a buffer: its length and digits, and that both readers give the bytes back. -/
theorem buf2hexstr_reads {bufSz : ℕ} (staticString : FixedCapacity UInt8 (bufSz * 2)) (b : Bytes) :
    ∃ s, buf2hexstr staticString b = .ok s ∧ s.length = 2 * min b.length bufSz ∧
      s.all isHexDigit = true ∧ decodePairs s = b.take (min b.length bufSz) ∧
      ∀ w, b ≠ [] → b.length ≤ min bufSz w → sv2int w (hexPrefix ++ s) = some (ofLE b.reverse) := by
  refine ⟨_, buf2hexstr_eq staticString b, ?_, ?_, decodePairs_hexText _, ?_⟩
  · rw [length_hexText, List.length_take]
    omega
  · rw [all_isHexDigit, decide_eq_true_iff]
    exact isNumeral_hexText _
  · intro w hne hle
    have htake : b.take (min b.length bufSz) = b := List.take_of_length_le (by omega)
    have htext : hexText b ≠ [] := by
      rw [← List.length_pos_iff, length_hexText]
      have := List.length_pos_iff.mpr hne
      omega
    rw [htake, sv2int_hexPrefix w htext, sv2intHexHelper_eq, numeral_hexText,
      if_pos ⟨isNumeral_hexText b, by rw [length_hexText]; omega⟩]

/-- Two bytes, through the text and back. -/
theorem buf2hexstr_reads_two :
    ∃ s, @buf2hexstr 4 .stopping [0x12, 0xef] = .ok s ∧
      sv2int 2 (hexPrefix ++ s) = some 0x12ef := by
  obtain ⟨s, hs, -, -, -, hread⟩ := @buf2hexstr_reads 4 .stopping [0x12, 0xef]
  exact ⟨s, hs, hread 2 (by decide) (by decide)⟩

example : @buf2hexstr 2 .stopping [0x0f, 0xa0, 0x33] =
    .ok (ascii ['0', 'f', 'a', '0']) := by decide

end JevMachO

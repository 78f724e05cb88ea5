import JevMachO.NVRAM.Escape

/-! The escaped form as an NVRAM variable holds it: without a NUL, so that its terminator is the
first one, and readable back token by token, so that it determines the data. -/
namespace JevMachO
namespace NVRAM
open Lib

/-- Literal bytes, and pairs of 0xff with a length byte whose low seven bits are not zero. -/
inductive Parses : Bytes → Prop
  | nil : Parses []
  | literal {b : UInt8} {bs : Bytes} : b ≠ 0x00 → b ≠ 0xFF → Parses bs → Parses (b :: bs)
  | pair {c : UInt8} {bs : Bytes} : c &&& 0x7F ≠ 0x00 → Parses bs → Parses (0xFF :: c :: bs)

/-- What the bytes written for `d` before the terminator look like. -/
structure EscapedForm (d e : Bytes) : Prop where
  no_nul : (0x00 : UInt8) ∉ e
  parses : Parses e
  length_le : e.length ≤ 2 * d.length
  decodedDataLen : decodedDataLen e = .ok d.length

/-- The output of `escapeDataToData` before its final byte. -/
def written (r : ℕ × Bytes) : Bytes := r.2.take (r.1 - 1)

/-! ### Encodings of tokens -/

theorem Token.zero_not_mem_bytes (t : Token) : (0x00 : UInt8) ∉ t.bytes := by
  cases t with
  | literal b h0 hF => simpa [bytes] using Ne.symm h0
  | run ones n hpos hle =>
    obtain ⟨hne, -, -⟩ := lengthByte ones n (by omega) hpos
    simpa [bytes] using Ne.symm hne

theorem zero_not_mem_encodedBytes (toks : List Token) : (0x00 : UInt8) ∉ encodedBytes toks := by
  intro h
  obtain ⟨t, -, ht⟩ := List.mem_flatMap.mp h
  exact t.zero_not_mem_bytes ht

theorem parses_encodedBytes (toks : List Token) : Parses (encodedBytes toks) := by
  induction toks with
  | nil => exact .nil
  | cons t toks ih =>
    rw [encodedBytes_cons]
    cases t with
    | literal b h0 hF => exact .literal h0 hF ih
    | run ones n hpos hle =>
      obtain ⟨-, hn, -⟩ := Token.lengthByte ones n (by omega) hpos
      refine .pair ?_ ih
      intro h0
      rw [h0] at hn
      exact absurd hn.symm hpos.ne'

theorem escapedForm_encodedBytes {toks : List Token} (h : (decodedBytes toks).length < 2 ^ 31) :
    EscapedForm (decodedBytes toks) (encodedBytes toks) where
  no_nul := zero_not_mem_encodedBytes toks
  parses := parses_encodedBytes toks
  length_le := length_encodedBytes_le toks
  decodedDataLen := decodedDataLen_encodedBytes h

/-! ### Reading back -/

/-- The data an escaped form stands for. -/
def expand : Bytes → Bytes
  | [] => []
  | [b] => [b]
  | b :: c :: bs =>
    if b = 0xFF then
      List.replicate (c &&& 0x7F).toNat (if c &&& 0x80 ≠ 0 then 0xFF else 0x00) ++ expand bs
    else b :: expand (c :: bs)

theorem expand_literal {b : UInt8} (hF : b ≠ 0xFF) (bs : Bytes) :
    expand (b :: bs) = b :: expand bs := by
  cases bs with
  | nil => rfl
  | cons c bs => rw [expand, if_neg hF]

theorem expand_encodedBytes (toks : List Token) :
    expand (encodedBytes toks) = decodedBytes toks := by
  induction toks with
  | nil => rfl
  | cons t toks ih =>
    rw [encodedBytes_cons, decodedBytes_cons, ← ih]
    cases t with
    | literal b h0 hF => exact expand_literal hF _
    | run ones n hpos hle =>
      obtain ⟨-, hn, hones⟩ := Token.lengthByte ones n (by omega) hpos
      change expand (0xFF :: _ :: encodedBytes toks) = _
      rw [expand, if_pos rfl, hn, hones]
      rfl

/-- A run of the escaper that returns has written the encoding of tokens for the data. -/
theorem exists_written {d enc : Bytes} {r : ℕ × Bytes} (hd : d.length < 2 ^ 31)
    (h : escapeDataToData d enc = .ok r) : ∃ toks, d = decodedBytes toks ∧
      written r = encodedBytes toks ∧ r.2[r.1 - 1]? = some 0x00 := by
  obtain ⟨toks, rfl, hspec⟩ := escapeDataToData_spec hd
  obtain ⟨-, -, rfl⟩ := (hspec enc r).mp h
  refine ⟨toks, rfl, ?_, ?_⟩
  · rw [written, Nat.add_sub_cancel, List.take_left]
  · rw [Nat.add_sub_cancel, List.getElem?_append_right le_rfl, Nat.sub_self]
    rfl

/-- The escaper returns whenever the buffer has room for the longest output; what it returns is
an escaped form, closed by the first NUL, and no other data has it. -/
theorem escapedForm_written (d : Bytes) (hd : d.length < 2 ^ 31) :
    (∀ enc, 2 * d.length + 1 ≤ enc.length → ∃ r, escapeDataToData d enc = .ok r) ∧
      (∀ enc r, escapeDataToData d enc = .ok r →
        EscapedForm d (written r) ∧ r.2[r.1 - 1]? = some 0x00) ∧
      ∀ d' enc enc' r r', d'.length < 2 ^ 31 → escapeDataToData d enc = .ok r →
        escapeDataToData d' enc' = .ok r' → d ≠ d' → written r ≠ written r' := by
  refine ⟨?_, ?_, ?_⟩
  · intro enc henc
    obtain ⟨toks, rfl, hspec⟩ := escapeDataToData_spec hd
    have hlen := length_encodedBytes_le toks
    exact ⟨_, (hspec enc _).mpr ⟨by omega, by omega, rfl⟩⟩
  · intro enc r h
    obtain ⟨toks, rfl, hw, hnul⟩ := exists_written hd h
    rw [hw]
    exact ⟨escapedForm_encodedBytes hd, hnul⟩
  · intro d' enc enc' r r' hd' h h' hne heq
    obtain ⟨toks, rfl, hw, -⟩ := exists_written hd h
    obtain ⟨toks', rfl, hw', -⟩ := exists_written hd' h'
    apply hne
    rw [← expand_encodedBytes toks, ← hw, heq, hw', expand_encodedBytes]

theorem escapedForm_zerosAndOnes : EscapedForm [0x00, 0x00, 0x41, 0xFF]
    (written (6, [0xFF, 0x02, 0x41, 0xFF, 0x81, 0x00, 0x07, 0x07, 0x07])) := by
  have hesc : escapeDataToData [0x00, 0x00, 0x41, 0xFF] (List.replicate 9 0x07) =
      .ok (6, [0xFF, 0x02, 0x41, 0xFF, 0x81, 0x00, 0x07, 0x07, 0x07]) := by decide
  exact ((escapedForm_written [0x00, 0x00, 0x41, 0xFF] (by decide)).2.1 _ _ hesc).1

end NVRAM
end JevMachO

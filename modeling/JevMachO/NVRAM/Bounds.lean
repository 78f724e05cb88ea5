import JevMachO.NVRAM.Escape

/-! Which bytes the codings touch. The escaper compares the output with its buffer only after
everything is written; the length scan takes it for granted that a pair has a second byte. -/
namespace JevMachO
namespace NVRAM
open Lib

/-! ### What the escaper writes -/

theorem putByte_of_lt {buf : Bytes} {off : ℕ} (h : off < buf.length) (b : UInt8) :
    putByte buf off b = .ok (buf.set off b) := if_pos h

theorem putByte_of_le {buf : Bytes} {off : ℕ} (h : buf.length ≤ off) (b : UInt8) :
    putByte buf off b = .error .outOfBounds := if_neg (by omega)

theorem inc32_add_mod (off i : ℕ) : (inc32 off + i) % 2 ^ 32 = (off + (i + 1)) % 2 ^ 32 := by
  rw [inc32, Nat.mod_add_mod, Nat.add_assoc, Nat.add_comm 1 i]

theorem putBytes_isOk {bs encoded : Bytes} {outOff : ℕ} (ho : outOff < 2 ^ 32)
    (h : ∀ i < bs.length, (outOff + i) % 2 ^ 32 < encoded.length) :
    ∃ r, putBytes bs outOff encoded = .ok r := by
  induction bs generalizing outOff encoded with
  | nil => exact ⟨_, rfl⟩
  | cons b bs ih =>
    have hlt : outOff < encoded.length := by
      have h0 := h 0 (Nat.zero_lt_succ _)
      rwa [Nat.add_zero, Nat.mod_eq_of_lt ho] at h0
    rw [putBytes, putByte_of_lt hlt, ok_bind]
    refine ih (Nat.mod_lt _ (Nat.two_pow_pos 32)) fun i hi => ?_
    rw [inc32_add_mod, List.length_set]
    exact h (i + 1) (Nat.succ_lt_succ hi)

/-- The offset is a `uint32_t`, so the `i`-th write is at its sum with `i` modulo 2^32. -/
theorem putBytes_outOfBounds {bs encoded : Bytes} {outOff i : ℕ} (ho : outOff < 2 ^ 32)
    (hi : i < bs.length) (h : encoded.length ≤ (outOff + i) % 2 ^ 32) :
    putBytes bs outOff encoded = .error .outOfBounds := by
  induction bs generalizing outOff encoded i with
  | nil => exact absurd hi (Nat.not_lt_zero i)
  | cons b bs ih =>
    rw [putBytes]
    by_cases hlt : outOff < encoded.length
    · rw [putByte_of_lt hlt, ok_bind]
      cases i with
      | zero =>
        rw [Nat.add_zero, Nat.mod_eq_of_lt ho] at h
        omega
      | succ i =>
        refine ih (Nat.mod_lt _ (Nat.two_pow_pos 32)) (Nat.lt_of_succ_lt_succ hi) ?_
        rwa [inc32_add_mod, List.length_set]
    · rw [putByte_of_le (by omega)]
      rfl

/-- A run of the escaper completes, or an assertion stops it: no access is out of bounds. -/
def StaysInside (decoded encoded : Bytes) : Prop :=
  (∃ r, escapeDataToData decoded encoded = .ok r) ∨
    escapeDataToData decoded encoded = .error .assertFailed

theorem staysInside_iff {d enc : Bytes} (h : d.length ≤ enc.length) :
    StaysInside d enc ↔ escapedSize d < enc.length ∨ 2 ^ 32 ≤ enc.length := by
  obtain ⟨toks, -, hsize, hesc⟩ := exists_escapeDataToData_eq d
  have hlen : (encodedBytes toks ++ [0]).length = escapedSize d + 1 := by
    rw [List.length_append, List.length_singleton, hsize]
  unfold StaysInside
  rw [hesc, decide_eq_true h, assertThat_true, ok_bind]
  constructor
  · intro hin
    by_contra hout
    rw [not_or, Nat.not_lt, Nat.not_le] at hout
    -- the first write behind the buffer
    have hwrite : putBytes (encodedBytes toks ++ [0]) 0 enc = .error .outOfBounds :=
      putBytes_outOfBounds (i := enc.length) (Nat.two_pow_pos 32) (by omega)
        (by rw [Nat.zero_add, Nat.mod_eq_of_lt hout.2])
    rw [hwrite] at hin
    rcases hin with ⟨r, hr⟩ | herr
    · cases hr
    · cases herr
  · intro hroom
    have hwrites : ∃ r, putBytes (encodedBytes toks ++ [0]) 0 enc = .ok r := by
      refine putBytes_isOk (Nat.two_pow_pos 32) fun i hi => ?_
      have hmod := Nat.mod_lt (0 + i) (Nat.two_pow_pos 32)
      have hle := Nat.mod_le (0 + i) (2 ^ 32)
      omega
    obtain ⟨r, hr⟩ := hwrites
    rw [hr, ok_bind]
    by_cases hfit : r.1 ≤ r.2.length
    · exact .inl ⟨r, by simp [hfit]⟩
    · exact .inr (by simp [hfit])

theorem staysInside_twoZeros : StaysInside [0x00, 0x00, 0x41] [1, 2, 3, 4] :=
  (staysInside_iff (by decide)).mpr (by decide)

theorem not_staysInside_noRoom : [0x41].length ≤ [0x00].length ∧
    escapeDataToData [0x41] [0x00] = .error .outOfBounds ∧ ¬StaysInside [0x41] [0x00] := by
  have herr : escapeDataToData [0x41] [0x00] = .error .outOfBounds := by decide
  refine ⟨le_rfl, herr, ?_⟩
  rintro (⟨r, hr⟩ | h)
  · rw [herr] at hr
    cases hr
  · rw [herr] at h
    cases h

/-! ### What the length scan reads -/

/-- The scan ends inside the span, with the sum over its tokens, or with 0 where it meets a pair
of length zero. -/
def LenRight (escaped : Bytes) : Prop :=
  decodedDataLen escaped =
    .ok (if .pair 0x00 ∈ (scan escaped).1 then 0 else scannedLen escaped)

instance (escaped : Bytes) : Decidable (LenRight escaped) :=
  inferInstanceAs (Decidable (_ = _))

theorem Piece.len_le (x : Piece) : x.len ≤ 127 := by
  cases x with
  | byte b => exact Nat.le_of_ble_eq_true rfl
  | pair c =>
    rw [Piece.len, UInt8.toNat_and]
    exact Nat.and_le_right

theorem scannedLen_le (escaped : Bytes) : scannedLen escaped ≤ 127 * escaped.length := by
  induction escaped using scan.induct with
  | case1 => exact Nat.le_refl 0
  | case2 => exact Nat.zero_le _
  | case3 b hF =>
    rw [scannedLen_byte hF]
    exact Nat.le_of_ble_eq_true rfl
  | case4 c bs ih =>
    have hc := (Piece.pair c).len_le
    rw [Piece.len] at hc
    rw [scannedLen_pair, List.length_cons, List.length_cons]
    omega
  | case5 b c bs hF ih =>
    rw [scannedLen_byte hF, List.length_cons]
    omega

theorem lenRight_iff {escaped : Bytes} (h : escaped.length < 2 ^ 25) :
    LenRight escaped ↔ .pair 0x00 ∈ (scan escaped).1 ∨ (scan escaped).2 = [] := by
  have hlen := scannedLen_le escaped
  unfold LenRight
  rw [decodedDataLen_eq (by omega) (by omega)]
  by_cases hpair : .pair 0x00 ∈ (scan escaped).1
  · simp [hpair]
  · by_cases hrest : (scan escaped).2 = []
    · simp [hpair, hrest]
    · simp [hpair, hrest]

theorem lenRight_literalThenRun : LenRight [0x41, 0xFF, 0x83] :=
  (lenRight_iff (by decide)).mpr (by decide)

theorem not_lenRight_truncated : decodedDataLen [0x41, 0xFF] = .error .outOfBounds ∧
    ¬LenRight [0x41, 0xFF] := by
  decide

end NVRAM
end JevMachO

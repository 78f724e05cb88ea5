import JevMachO.Common
import JevMachO.Lib.Numeral
import JevMachO.Lib.Words

/-! Reading integers from text. Hexadecimal digits are written nibble by nibble into a zeroed
buffer of the integer's width; decimal digits are accumulated modulo that width. -/
namespace JevMachO
open Lib

def isDecimalDigit (chr : UInt8) : Bool := 0x30 ≤ chr && chr ≤ 0x39

def asciiDigitToInt (chr : UInt8) : UInt8 := chr - 0x30

def isHexDigit (chr : UInt8) : Bool := isDecimalDigit chr || (0x61 ≤ chr && chr ≤ 0x66)

/-- Callers check `isHexDigit` first; other bytes are unreachable in the source. -/
def asciiHexToNibble (chr : UInt8) : UInt8 :=
  if 0x30 ≤ chr && chr ≤ 0x39 then chr - 0x30
  else if 0x61 ≤ chr && chr ≤ 0x66 then chr - 0x61 + 0xA
  else 0

/-- The digit loop, over the reversed digits: an even digit is shifted down into the low
nibble, an odd one stays in the high nibble and moves on to the next byte. -/
def hexDigitLoop : List UInt8 → ℕ → ℕ → Bytes → Bytes
  | [], _, _, buf => buf
  | hd :: rest, i, p, buf =>
    let odd := i % 2
    let byte := buf.getD p 0 ||| (asciiHexToNibble hd <<< 4)
    let byte := byte >>> (if odd = 0 then 4 else 0)
    hexDigitLoop rest (i + 1) (p + odd) (buf.set p byte)

/-- The zeroed buffer with the digits written, or none on overflow or another character. -/
def sv2intHexHelper (hexdigits : Bytes) (intBufSz : ℕ) : Option Bytes :=
  if intBufSz * 2 < hexdigits.length then none
  else if !hexdigits.all isHexDigit then none
  else some (hexDigitLoop hexdigits.reverse 0 0 (List.replicate intBufSz 0))

/-- `sv2int` for an unsigned integer of `w` bytes. -/
def sv2int (w : ℕ) (sv : Bytes) : Option ℕ :=
  if 2 < sv.length ∧ [0x30, 0x78] <+: sv then (sv2intHexHelper (sv.drop 2) w).map ofLE
  else if !sv.all isDecimalDigit then none
  else some (sv.foldl (fun res d => (res * 10 + (asciiDigitToInt d).toNat) % 256 ^ w) 0)

theorem length_hexDigitLoop (ds : List UInt8) (i p : ℕ) (buf : Bytes) :
    (hexDigitLoop ds i p buf).length = buf.length := by
  induction ds generalizing i p buf with
  | nil => rfl
  | cons d ds ih => rw [hexDigitLoop, ih, List.length_set]

private theorem foldl_mod_lt {α : Type} {m : ℕ} (f : ℕ → α → ℕ) (xs : List α) {b : ℕ}
    (hb : b < m) : xs.foldl (fun acc x => f acc x % m) b < m := by
  induction xs generalizing b with
  | nil => exact hb
  | cons x xs ih => exact ih (Nat.mod_lt _ (by omega))

theorem sv2int_lt {w : ℕ} {sv : Bytes} {v : ℕ} (h : sv2int w sv = some v) : v < 256 ^ w := by
  unfold sv2int at h
  split_ifs at h with hx hd
  · obtain ⟨buf, hbuf, rfl⟩ := Option.map_eq_some_iff.mp h
    unfold sv2intHexHelper at hbuf
    split_ifs at hbuf
    obtain rfl := Option.some.inj hbuf
    have := ofLE_lt (hexDigitLoop (sv.drop 2).reverse 0 0 (List.replicate w 0))
    rwa [length_hexDigitLoop, List.length_replicate] at this
  · obtain rfl := Option.some.inj h
    exact foldl_mod_lt (fun res d => res * 10 + (asciiDigitToInt d).toNat) sv
      (Nat.pow_pos (by decide))

/-! ### The digits -/

def hexAlphabet : Bytes :=
  ascii ['0', '1', '2', '3', '4', '5', '6', '7', '8', '9', 'a', 'b', 'c', 'd', 'e', 'f']

def decimalAlphabet : Bytes := hexAlphabet.take 10

def hexPrefix : Bytes := ascii ['0', 'x']

theorem isHexDigit_eq (c : UInt8) : isHexDigit c = decide (c ∈ hexAlphabet) :=
  eq_of_beq (u8_forall (p := fun c => isHexDigit c == decide (c ∈ hexAlphabet))
    (by decide +kernel) c)

theorem isDecimalDigit_eq (c : UInt8) : isDecimalDigit c = decide (c ∈ decimalAlphabet) :=
  eq_of_beq (u8_forall (p := fun c => isDecimalDigit c == decide (c ∈ decimalAlphabet))
    (by decide +kernel) c)

theorem all_isHexDigit (s : Bytes) : s.all isHexDigit = decide (IsNumeral hexAlphabet s) := by
  rw [Bool.eq_iff_iff, decide_eq_true_iff]
  simp [IsNumeral, isHexDigit_eq]

theorem all_isDecimalDigit (s : Bytes) :
    s.all isDecimalDigit = decide (IsNumeral decimalAlphabet s) := by
  rw [Bool.eq_iff_iff, decide_eq_true_iff]
  simp [IsNumeral, isDecimalDigit_eq]

theorem asciiHexToNibble_eq :
    ∀ c ∈ hexAlphabet, asciiHexToNibble c = UInt8.ofNat (hexAlphabet.idxOf c) := by
  have hall : hexAlphabet.all
      (fun c => asciiHexToNibble c == UInt8.ofNat (hexAlphabet.idxOf c)) = true := by decide
  exact fun c hc => eq_of_beq (List.all_eq_true.mp hall c hc)

theorem toNat_asciiDigitToInt :
    ∀ c ∈ decimalAlphabet, (asciiDigitToInt c).toNat = decimalAlphabet.idxOf c := by
  have hall : decimalAlphabet.all
      (fun c => (asciiDigitToInt c).toNat == decimalAlphabet.idxOf c) = true := by decide
  exact fun c hc => eq_of_beq (List.all_eq_true.mp hall c hc)

theorem low_nibble : ∀ n < 16, ((0 : UInt8) ||| UInt8.ofNat n <<< 4) >>> 4 = UInt8.ofNat n := by
  decide

theorem toNat_high_nibble : ∀ m < 16, ∀ n < 16,
    (UInt8.ofNat m ||| UInt8.ofNat n <<< 4).toNat = m + 16 * n := by
  decide +kernel

/-! ### Hexadecimal numbers -/

/-- The bytes of some digits, the lowest first: two digits make a byte. -/
def pairBytes : List UInt8 → Bytes
  | [] => []
  | [d] => [asciiHexToNibble d]
  | d :: e :: ds => (asciiHexToNibble d ||| asciiHexToNibble e <<< 4) :: pairBytes ds

theorem hexDigitLoop_low {d : UInt8} (hd : d ∈ hexAlphabet) (ds : List UInt8) (done : Bytes)
    (k : ℕ) :
    hexDigitLoop (d :: ds) (2 * done.length) done.length (done ++ List.replicate (k + 1) 0) =
      hexDigitLoop ds (2 * done.length + 1) done.length
        (done ++ asciiHexToNibble d :: List.replicate k 0) := by
  have hn : hexAlphabet.idxOf d < 16 := List.idxOf_lt_length_of_mem hd
  have hget : (done ++ List.replicate (k + 1) 0).getD done.length (0 : UInt8) = 0 := by
    simp [List.replicate_succ]
  have hodd : 2 * done.length % 2 = 0 := by omega
  rw [hexDigitLoop, hget, hodd, if_pos rfl, asciiHexToNibble_eq d hd, low_nibble _ hn,
    List.replicate_succ, List.set_append_right _ _ le_rfl, Nat.sub_self, List.set_cons_zero]
  rfl

theorem hexDigitLoop_high (b d : UInt8) (ds : List UInt8) (done rest : Bytes) :
    hexDigitLoop (d :: ds) (2 * done.length + 1) done.length (done ++ b :: rest) =
      hexDigitLoop ds (2 * (done ++ [b ||| asciiHexToNibble d <<< 4]).length)
        (done ++ [b ||| asciiHexToNibble d <<< 4]).length
        ((done ++ [b ||| asciiHexToNibble d <<< 4]) ++ rest) := by
  have hget : (done ++ b :: rest).getD done.length 0 = b := by simp
  have hodd : (2 * done.length + 1) % 2 = 1 := by omega
  have hshift : (b ||| asciiHexToNibble d <<< 4) >>> (0 : UInt8) = b ||| asciiHexToNibble d <<< 4 :=
    UInt8.shiftRight_zero
  rw [hexDigitLoop, hget, hodd, if_neg Nat.one_ne_zero, hshift,
    List.set_append_right _ _ le_rfl, Nat.sub_self, List.set_cons_zero, List.append_assoc,
    List.singleton_append, List.length_append, List.length_singleton, Nat.mul_add]

/-- Whenever a byte is complete, the loop stands in front of the zeroed rest of the buffer. -/
theorem hexDigitLoop_eq {ds : List UInt8} (hds : IsNumeral hexAlphabet ds) (done : Bytes) {k : ℕ}
    (hk : ds.length ≤ 2 * k) :
    hexDigitLoop ds (2 * done.length) done.length (done ++ List.replicate k 0) =
      done ++ (pairBytes ds ++ List.replicate (k - (pairBytes ds).length) 0) := by
  induction ds using pairBytes.induct generalizing done k with
  | case1 => rfl
  | case2 d =>
    obtain ⟨k, rfl⟩ := Nat.exists_eq_add_of_le' (show 1 ≤ k by simp at hk; omega)
    rw [hexDigitLoop_low (hds d (by simp))]
    rfl
  | case3 d e ds ih =>
    obtain ⟨k, rfl⟩ := Nat.exists_eq_add_of_le' (show 1 ≤ k by simp at hk; omega)
    have hrest : IsNumeral hexAlphabet ds := fun c hc => hds c (by simp [hc])
    simp only [List.length_cons] at hk
    rw [hexDigitLoop_low (hds d (by simp)), hexDigitLoop_high, ih hrest _ (by omega), pairBytes,
      List.append_assoc, List.singleton_append, List.length_cons, Nat.add_sub_add_right,
      List.cons_append]

theorem ofLE_pairBytes {ds : List UInt8} (hds : IsNumeral hexAlphabet ds) :
    ofLE (pairBytes ds) = Nat.ofDigits 16 (ds.map (hexAlphabet.idxOf ·)) := by
  induction ds using pairBytes.induct with
  | case1 => rfl
  | case2 d =>
    have hd : d ∈ hexAlphabet := hds d (by simp)
    have hn : hexAlphabet.idxOf d < 16 := List.idxOf_lt_length_of_mem hd
    rw [pairBytes, asciiHexToNibble_eq d hd, List.map_singleton, Nat.ofDigits_singleton, ofLE,
      ofLE, UInt8.toNat_ofNat_of_lt' (hn.trans (by decide))]
    rfl
  | case3 d e ds ih =>
    have hd : d ∈ hexAlphabet := hds d (by simp)
    have he : e ∈ hexAlphabet := hds e (by simp)
    rw [pairBytes, asciiHexToNibble_eq d hd, asciiHexToNibble_eq e he, ofLE,
      toNat_high_nibble _ (List.idxOf_lt_length_of_mem hd) _ (List.idxOf_lt_length_of_mem he),
      ih fun c hc => hds c (by simp [hc]), List.map_cons, List.map_cons, Nat.ofDigits_cons,
      Nat.ofDigits_cons]
    omega

theorem sv2intHexHelper_eq (h : Bytes) (w : ℕ) :
    (sv2intHexHelper h w).map ofLE =
      if IsNumeral hexAlphabet h ∧ h.length ≤ 2 * w then
        some (numeral hexAlphabet h) else none := by
  unfold sv2intHexHelper
  by_cases hlen : w * 2 < h.length
  · rw [if_pos hlen, if_neg (by omega)]
    rfl
  rw [if_neg hlen]
  by_cases hall : IsNumeral hexAlphabet h
  · have hrev : IsNumeral hexAlphabet h.reverse := fun c hc => hall c (List.mem_reverse.mp hc)
    have hloop := hexDigitLoop_eq hrev [] (k := w) (by rw [List.length_reverse]; omega)
    simp only [List.length_nil, Nat.mul_zero, List.nil_append] at hloop
    rw [all_isHexDigit, decide_eq_true hall, if_neg (by decide), hloop, if_pos ⟨hall, by omega⟩,
      Option.map_some, ofLE_append_replicate, ofLE_pairBytes hrev]
    rfl
  · rw [all_isHexDigit, decide_eq_false hall, if_pos (by decide), if_neg fun hn => hall hn.1]
    rfl

/-- Behind `0x` the helper reads the digits. -/
theorem sv2int_hexPrefix (w : ℕ) {h : Bytes} (hne : h ≠ []) :
    sv2int w (hexPrefix ++ h) = (sv2intHexHelper h w).map ofLE := by
  have hpos : 0 < h.length := List.length_pos_iff.mpr hne
  have hpre : 2 < (hexPrefix ++ h).length ∧ [0x30, 0x78] <+: hexPrefix ++ h := by
    constructor
    · rw [List.length_append]
      exact Nat.lt_add_of_pos_right hpos
    · exact ⟨h, rfl⟩
  rw [sv2int, if_pos hpre]
  rfl

/-- Behind `0x` an integer of `w` bytes is read exactly from at most `2 * w` digits. -/
theorem sv2int_hex (w : ℕ) {h : Bytes} (hne : h ≠ []) :
    sv2int w (hexPrefix ++ h) =
      if IsNumeral hexAlphabet h ∧ h.length ≤ 2 * w then
        some (numeral hexAlphabet h) else none := by
  rw [sv2int_hexPrefix w hne, sv2intHexHelper_eq]

theorem sv2int_hex_threeDigits :
    sv2int 4 (hexPrefix ++ ascii ['3', '2', '1']) = some 0x321 := by
  rw [sv2int_hex 4 (by decide)]
  decide

example : sv2int 4 (ascii ['0', 'x', '2', '1', '4', '3', '6', '5', '8', '7']) =
    some 0x21436587 := by decide

/-! ### Decimal numbers -/

/-- Any decimal digits are read, and the number is reduced to the width. -/
theorem sv2int_decimal (w : ℕ) {s : Bytes} (hs : ¬hexPrefix <+: s) :
    sv2int w s =
      if IsNumeral decimalAlphabet s then some (numeral decimalAlphabet s % 256 ^ w) else none := by
  rw [sv2int, if_neg fun h => hs h.2]
  by_cases hall : IsNumeral decimalAlphabet s
  · rw [all_isDecimalDigit, decide_eq_true hall, if_neg (by decide), if_pos hall,
      ← foldl_mod_eq_numeral (m := 256 ^ w) hall]
    · rw [Nat.zero_mod]
    · intro n c hc
      rw [toNat_asciiDigitToInt c hc]
      rfl
  · rw [all_isDecimalDigit, decide_eq_false hall, if_pos (by decide), if_neg hall]

/-- A value is returned exactly for a numeral in range, and it is the number denoted. -/
def DecimalRight (w : ℕ) (s : Bytes) : Prop :=
  sv2int w s =
    if s ≠ [] ∧ IsNumeral decimalAlphabet s ∧ numeral decimalAlphabet s < 256 ^ w then
      some (numeral decimalAlphabet s)
    else none

instance (w : ℕ) (s : Bytes) : Decidable (DecimalRight w s) := inferInstanceAs (Decidable (_ = _))

theorem decimalRight_iff {w : ℕ} {s : Bytes} (hs : ¬hexPrefix <+: s) :
    DecimalRight w s ↔
      s ≠ [] ∧ (IsNumeral decimalAlphabet s → numeral decimalAlphabet s < 256 ^ w) := by
  unfold DecimalRight
  rw [sv2int_decimal w hs]
  by_cases hall : IsNumeral decimalAlphabet s
  · rw [if_pos hall]
    by_cases hlt : numeral decimalAlphabet s < 256 ^ w
    · by_cases hne : s = []
      · simp [hne]
      · simp [hne, hall, hlt, Nat.mod_eq_of_lt hlt]
    · simp [hall, hlt]
  · have hne : s ≠ [] := by
      rintro rfl
      exact hall (List.forall_mem_nil _)
    simp [hall, hne]

theorem decimalRight_maxU32 :
    DecimalRight 4 (ascii ['4', '2', '9', '4', '9', '6', '7', '2', '9', '5']) :=
  (decimalRight_iff (by decide)).mpr (by decide)

theorem not_decimalRight_overflow :
    sv2int 4 (ascii ['4', '2', '9', '4', '9', '6', '7', '2', '9', '6']) = some 0 ∧
      ¬DecimalRight 4 (ascii ['4', '2', '9', '4', '9', '6', '7', '2', '9', '6']) ∧
      ¬DecimalRight 4 [] := by
  decide

end JevMachO

import JevMachO.NVRAM.Bounds
import JevMachO.NVRAM.EscapedForm

/-! The escaper's output is the shortest one: whatever the decoder makes of bytes without a NUL,
the escaper writes in no more of them. -/
namespace JevMachO
namespace NVRAM
open Lib

/-! ### What the decoder makes of any bytes -/

namespace Piece

def bytes : Piece → Bytes
  | byte b => [b]
  | pair c => [0xFF, c]

/-- What the decoder writes for a token. -/
def value : Piece → Bytes
  | byte b => [b]
  | pair c => List.replicate (c &&& 0x7F).toNat (if c &&& 0x80 ≠ 0 then 0xFF else 0x00)

/-- A byte that the decoder does not take for the start of a pair. -/
def Plain : Piece → Prop
  | byte b => b ≠ 0xFF
  | pair _ => True

theorem length_value (x : Piece) : x.value.length = x.len := by
  cases x with
  | byte b => rfl
  | pair c => exact List.length_replicate

end Piece

theorem length_flatMap_value (ps : List Piece) :
    (ps.flatMap Piece.value).length = (ps.map Piece.len).sum := by
  rw [List.length_flatMap]
  exact congrArg List.sum (List.map_congr_left fun x _ => x.length_value)

/-- A span is its tokens and what is left of it. -/
theorem scan_eq (e : Bytes) :
    (scan e).1.flatMap Piece.bytes ++ (scan e).2 = e ∧ ∀ x ∈ (scan e).1, x.Plain := by
  fun_induction scan e with
  | case1 => exact ⟨rfl, by simp⟩
  | case2 => exact ⟨rfl, by simp⟩
  | case3 b hF => exact ⟨rfl, by simpa [Piece.Plain] using hF⟩
  | case4 c bs ih =>
    refine ⟨congrArg (fun bs => 0xFF :: c :: bs) ih.1, fun x hx => ?_⟩
    cases List.mem_cons.mp hx with
    | inl heq => exact heq ▸ trivial
    | inr hmem => exact ih.2 x hmem
  | case5 b c bs hF ih =>
    refine ⟨congrArg (b :: ·) ih.1, fun x hx => ?_⟩
    cases List.mem_cons.mp hx with
    | inl heq => exact heq ▸ hF
    | inr hmem => exact ih.2 x hmem

/-- Reading one token writes its value. -/
theorem unescapeLoop_piece {x : Piece} (hx : x.Plain) {e dec pre suf out : Bytes} {length fuel : ℕ}
    (he : e = pre ++ (x.bytes ++ suf)) (h32 : e.length < 2 ^ 32) (hlength : e.length ≤ length)
    (hfit : out.length + x.value.length ≤ dec.length)
    (hout : out.length + x.value.length < 2 ^ 32) :
    unescapeLoop e length (fuel + 1) pre.length out.length (out ++ dec.drop out.length) =
      unescapeLoop e length fuel (pre ++ x.bytes).length (out ++ x.value).length
        ((out ++ x.value) ++ dec.drop (out ++ x.value).length) := by
  have hlen : e.length = pre.length + (x.bytes.length + suf.length) := by
    rw [he, List.length_append, List.length_append]
  have hfirst : ∀ b, x.bytes[0]? = some b → getByte e pre.length = .ok b := by
    intro b hb
    rw [he]
    refine getByte_append (i := 0) ?_
    rw [List.getElem?_append_left (List.getElem?_eq_some_iff.mp hb).1, hb]
  conv_lhs => unfold unescapeLoop
  cases x with
  | byte b =>
    have hfill := fillByte_spec b hfit hout
    simp only [Piece.bytes, Piece.value, List.length_singleton, List.length_append] at *
    rw [if_pos (by omega)]
    simp only [hfirst b rfl, ok_bind, if_neg hx, hfill, inc32_eq (n := pre.length) (by omega)]
    rfl
  | pair c =>
    simp only [Piece.bytes, Piece.value, List.length_cons, List.length_nil,
      List.length_replicate] at he hlen hfit hout ⊢
    have hsecond : getByte e (pre.length + 1) = .ok c := by
      rw [he]
      exact getByte_append (i := 1) rfl
    have hfill := fillByte_spec (if c &&& 0x80 ≠ 0 then 0xFF else 0x00) hfit hout
    rw [if_pos (by omega)]
    simp only [hfirst 0xFF rfl, ok_bind, if_true, inc32_eq (n := pre.length) (by omega), hsecond,
      hfill, inc32_eq (n := pre.length + 1) (by omega)]
    simp only [List.length_append, List.length_cons, List.length_nil, List.length_replicate]

theorem unescapeLoop_pieces {ps : List Piece} {e d dec pre out suf : Bytes} {length : ℕ} (fuel : ℕ)
    (hps : ∀ x ∈ ps, x.Plain) (he : e = pre ++ (ps.flatMap Piece.bytes ++ suf))
    (hd : d = out ++ ps.flatMap Piece.value) (h32 : e.length < 2 ^ 32)
    (hlength : e.length ≤ length) (hfit : d.length ≤ dec.length) (hout : d.length < 2 ^ 32) :
    unescapeLoop e length (fuel + ps.length) pre.length out.length
        (out ++ dec.drop out.length) =
      unescapeLoop e length fuel (pre ++ ps.flatMap Piece.bytes).length d.length
        (d ++ dec.drop d.length) := by
  induction ps generalizing pre out with
  | nil =>
    rw [List.flatMap_nil, List.append_nil] at hd ⊢
    rw [hd]
    rfl
  | cons x ps ih =>
    rw [List.flatMap_cons, List.append_assoc] at he
    rw [List.flatMap_cons, ← List.append_assoc] at hd
    have hlen : d.length = out.length + x.value.length + (ps.flatMap Piece.value).length := by
      rw [hd, List.length_append, List.length_append]
    rw [List.length_cons, ← Nat.add_assoc, unescapeLoop_piece (hps x List.mem_cons_self) he h32
      hlength (by omega) (by omega), List.flatMap_cons, ← List.append_assoc]
    exact ih (fun y hy => hps y (List.mem_cons_of_mem x hy)) (by rw [he, List.append_assoc]) hd

theorem length_scan_le (e : Bytes) : (scan e).1.length ≤ e.length := by
  fun_induction scan e with
  | case1 => exact Nat.le_refl 0
  | case2 => exact Nat.zero_le _
  | case3 => exact Nat.le_refl 1
  | case4 c bs ih =>
    rw [List.length_cons, List.length_cons, List.length_cons]
    exact Nat.succ_le_succ (ih.trans (Nat.le_succ _))
  | case5 b c bs hF ih =>
    rw [List.length_cons, List.length_cons]
    exact Nat.succ_le_succ ih

theorem length_values (e : Bytes) :
    ((scan e).1.flatMap Piece.value).length = scannedLen e :=
  length_flatMap_value (scan e).1

/-- A loop that returns has written the values of all tokens. -/
theorem unescapeLoop_eq {e dec out : Bytes} (he : e.length < 2 ^ 25) (hrest : (scan e).2 = [])
    (hle : e.length ≤ dec.length) (hfit : scannedLen e ≤ dec.length)
    (h : unescapeLoop e dec.length (e.length + 1) 0 0 dec = .ok out) :
    out = (scan e).1.flatMap Piece.value ++ dec.drop (scannedLen e) := by
  have hscanned := scannedLen_le e
  have hvalue := length_values e
  obtain ⟨hbytes, hplain⟩ := scan_eq e
  rw [hrest, List.append_nil] at hbytes
  obtain ⟨k, hk⟩ := Nat.exists_eq_add_of_le (length_scan_le e)
  have hpieces := @unescapeLoop_pieces (scan e).1 e _ dec [] [] [] dec.length (k + 1) hplain
    (by rw [List.nil_append, List.append_nil, hbytes]) rfl (by omega) hle
    (by rwa [List.nil_append, hvalue]) (by rw [List.nil_append, hvalue]; omega)
  simp only [List.length_nil, List.nil_append, List.drop_zero, hbytes, hvalue] at hpieces
  rw [show k + 1 + (scan e).1.length = e.length + 1 by omega, h] at hpieces
  unfold unescapeLoop at hpieces
  by_cases hlt : e.length < dec.length
  · -- the loop goes on behind the span
    simp [hlt, getByte_length] at hpieces
  · rw [if_neg hlt] at hpieces
    exact Except.ok.inj hpieces

/-- The decoder reads data out of bytes only as the values of their tokens. -/
theorem UnescapesTo.eq_flatMap {e dec d : Bytes} (he : e.length < 2 ^ 25)
    (h : UnescapesTo e dec d) :
    d = [] ∨ (scan e).2 = [] ∧ d = (scan e).1.flatMap Piece.value := by
  have hscanned := scannedLen_le e
  obtain ⟨_, hassert, h⟩ := bind_eq_ok.mp h
  have hle : e.length ≤ dec.length := by simpa [assertThat] using hassert
  rw [decodedDataLen_eq (by omega) (by omega)] at h
  by_cases hstop : .pair 0x00 ∈ (scan e).1
  · rw [if_pos hstop] at h
    left
    have hzero := congrArg Prod.fst (Except.ok.inj h)
    exact List.eq_nil_of_length_eq_zero hzero.symm
  rw [if_neg hstop] at h
  by_cases hrest : (scan e).2 = []
  · rw [if_pos hrest, ok_bind] at h
    by_cases hzero : scannedLen e = 0
    · rw [if_neg (by simpa using hzero)] at h
      left
      have hlen := congrArg Prod.fst (Except.ok.inj h)
      exact List.eq_nil_of_length_eq_zero (hlen.symm.trans hzero)
    · rw [if_pos hzero] at h
      obtain ⟨_, hassert, h⟩ := bind_eq_ok.mp h
      have hfit : scannedLen e ≤ dec.length := by simpa [assertThat] using hassert
      obtain ⟨out, hloop, hout⟩ := bind_eq_ok.mp h
      obtain ⟨hlen, rfl⟩ := Prod.mk.inj (Except.ok.inj hout)
      have hout := unescapeLoop_eq he hrest hle hfit hloop
      refine .inr ⟨hrest, ?_⟩
      exact (List.append_inj hout (by rw [length_values, hlen])).1
  · rw [if_neg hrest] at h
    cases h

/-! ### The escaper's size -/

theorem runSize_add_le (b : UInt8) (m n : ℕ) : runSize b (m + n) ≤ runSize b m + runSize b n := by
  unfold runSize
  split
  · omega
  · exact Nat.le_refl _

theorem escapedSize_append_le (d d' : Bytes) :
    escapedSize (d ++ d') ≤ escapedSize d + escapedSize d' :=
  runCost_append_le runSize_zero runSize_add_le d d'

theorem escapedSize_replicate (b : UInt8) (n : ℕ) :
    escapedSize (List.replicate n b) = runSize b n := by
  have hnil : ([] : Bytes).head? ≠ some b := by simp
  have h := runCost_replicate_append (runSize_zero b) n hnil
  rwa [List.append_nil] at h

/-- One token of bytes without a NUL stands for no more than the escaper would write for it. -/
theorem Piece.escapedSize_value_le {x : Piece} (hx : x.Plain) (h0 : (0x00 : UInt8) ∉ x.bytes) :
    escapedSize x.value ≤ x.bytes.length := by
  cases x with
  | byte b =>
    have hb : ¬(b = 0x00 ∨ b = 0xFF) := by
      rintro (rfl | rfl)
      · exact h0 List.mem_cons_self
      · exact hx rfl
    have hsize := escapedSize_replicate b 1
    rw [runSize, if_neg hb] at hsize
    exact hsize.le
  | pair c =>
    have hlen : (c &&& 0x7F).toNat ≤ 127 := (Piece.pair c).len_le
    have hspecial : (if c &&& 0x80 ≠ 0 then (0xFF : UInt8) else 0x00) = 0x00 ∨
        (if c &&& 0x80 ≠ 0 then (0xFF : UInt8) else 0x00) = 0xFF := by
      split
      · exact .inr rfl
      · exact .inl rfl
    rw [Piece.value, escapedSize_replicate, runSize, if_pos hspecial]
    change 2 * (((c &&& 0x7F).toNat + 126) / 127) ≤ 2
    omega

theorem escapedSize_flatMap_le {ps : List Piece} (hps : ∀ x ∈ ps, x.Plain)
    (h0 : (0x00 : UInt8) ∉ ps.flatMap Piece.bytes) :
    escapedSize (ps.flatMap Piece.value) ≤ (ps.flatMap Piece.bytes).length := by
  induction ps with
  | nil => exact Nat.le_refl 0
  | cons x ps ih =>
    rw [List.flatMap_cons, List.mem_append, not_or] at h0
    rw [List.flatMap_cons, List.flatMap_cons, List.length_append]
    have hx := Piece.escapedSize_value_le (hps x List.mem_cons_self) h0.1
    have hrest := ih (fun y hy => hps y (List.mem_cons_of_mem x hy)) h0.2
    have hle := escapedSize_append_le x.value (ps.flatMap Piece.value)
    omega

theorem length_written {d enc : Bytes} {r : ℕ × Bytes} (hd : d.length < 2 ^ 31)
    (h : escapeDataToData d enc = .ok r) : (written r).length = escapedSize d := by
  obtain ⟨toks, hval, hsize, hesc⟩ := exists_escapeDataToData_eq d
  have hlen := length_encodedBytes_le toks
  have hout : (encodedBytes toks ++ [0]).length = escapedSize d + 1 := by
    rw [List.length_append, List.length_singleton, hsize]
  rw [hval] at hlen
  rw [hesc] at h
  obtain ⟨_, -, h⟩ := bind_eq_ok.mp h
  obtain ⟨r', hput, h⟩ := bind_eq_ok.mp h
  obtain ⟨_, -, h⟩ := bind_eq_ok.mp h
  obtain rfl := Except.ok.inj h
  obtain ⟨hfit, rfl⟩ := (@putBytes_eq_ok enc [] (encodedBytes toks ++ [0]) r' (Nat.zero_le _)
    (by rw [hout, List.length_nil]; omega)).mp hput
  rw [written, List.nil_append, hout, Nat.add_sub_cancel, List.length_take, List.length_append,
    hout]
  omega

theorem expand_eq (e : Bytes) : expand e = (scan e).1.flatMap Piece.value ++ (scan e).2 := by
  fun_induction scan e with
  | case1 => rfl
  | case2 => rfl
  | case3 => rfl
  | case4 c bs ih =>
    rw [expand, if_pos rfl, ih, List.flatMap_cons, List.append_assoc]
    rfl
  | case5 b c bs hF ih =>
    rw [expand_literal hF, ih]
    rfl

theorem escapedSize_expand_le {e : Bytes} (h0 : (0x00 : UInt8) ∉ e) (hrest : (scan e).2 = []) :
    escapedSize (expand e) ≤ e.length := by
  obtain ⟨hbytes, hplain⟩ := scan_eq e
  rw [hrest, List.append_nil] at hbytes
  rw [expand_eq, hrest, List.append_nil]
  conv_rhs => rw [← hbytes]
  exact escapedSize_flatMap_le hplain (by rwa [hbytes])

/-- Whole tokens without a NUL that stand for data, of which none are shorter. -/
structure Shortest (d e : Bytes) : Prop where
  no_nul : (0x00 : UInt8) ∉ e
  whole : (scan e).2 = []
  expand : expand e = d
  size : e.length = escapedSize d
  least : ∀ e', (0x00 : UInt8) ∉ e' → (scan e').2 = [] → NVRAM.expand e' = d →
    e.length ≤ e'.length
  least_unescaped : ∀ e' dec, (0x00 : UInt8) ∉ e' → e'.length < 2 ^ 25 → UnescapesTo e' dec d →
    e.length ≤ e'.length

theorem shortest_written {d enc : Bytes} {r : ℕ × Bytes} (hd : d.length < 2 ^ 31)
    (h : escapeDataToData d enc = .ok r) : Shortest d (written r) := by
  have hsize := length_written hd h
  obtain ⟨toks, hval, hwritten, -⟩ := exists_written hd h
  exact {
    no_nul := hwritten ▸ zero_not_mem_encodedBytes toks
    whole := hwritten ▸ (scan_encodedBytes toks).2.1
    expand := by rw [hwritten, expand_encodedBytes, hval]
    size := hsize
    least := by
      intro e' h0 hrest hexpand
      rw [hsize, ← hexpand]
      exact escapedSize_expand_le h0 hrest
    least_unescaped := by
      intro e' dec h0 he hdec
      rw [hsize]
      cases hdec.eq_flatMap he with
      | inl hnil =>
        rw [hnil]
        exact Nat.zero_le _
      | inr hvalues =>
        obtain ⟨hrest, hvalues⟩ := hvalues
        have hexpand : NVRAM.expand e' = d := by rw [expand_eq, hrest, List.append_nil, hvalues]
        rw [← hexpand]
        exact escapedSize_expand_le h0 hrest }

theorem shortest_zerosAndOnes : Shortest [0x00, 0x00, 0x41, 0xFF]
    (written (6, [0xFF, 0x02, 0x41, 0xFF, 0x81, 0x00, 0x07])) := by
  have hesc : escapeDataToData [0x00, 0x00, 0x41, 0xFF] (List.replicate 7 0x07) =
      .ok (6, [0xFF, 0x02, 0x41, 0xFF, 0x81, 0x00, 0x07]) := by decide
  exact shortest_written (by decide) hesc

end NVRAM
end JevMachO

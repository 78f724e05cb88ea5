import Mathlib.Data.List.Basic
import Mathlib.Data.List.Infix
import Mathlib.Tactic.Ring

/-! Byte images: which bytes an image holds at an offset, bounds-checked reads and writes,
little-endian numbers, and records laid out back to back. -/
namespace Lib

variable {α β : Type*}

/-- The image holds `bs` from offset `o` on. -/
def At (mem : List β) (o : ℕ) (bs : List β) : Prop := bs <+: mem.drop o

instance [DecidableEq β] (mem : List β) (o : ℕ) (bs : List β) : Decidable (At mem o bs) :=
  inferInstanceAs (Decidable (bs <+: mem.drop o))

/-- The `n` elements from offset `o`, when all of them are inside the image. -/
def slice (mem : List β) (o n : ℕ) : Option (List β) :=
  if o + n ≤ mem.length then some ((mem.drop o).take n) else none

/-- The image with `bs` stored at offset `o`, when all of it is inside the image. -/
def patch (mem : List β) (o : ℕ) (bs : List β) : Option (List β) :=
  if o + bs.length ≤ mem.length then
    some (mem.take o ++ bs ++ mem.drop (o + bs.length)) else none

@[simp] theorem at_nil (mem : List β) (o : ℕ) : At mem o [] := List.nil_prefix

theorem at_append {mem : List β} {o : ℕ} {as bs : List β} :
    At mem o (as ++ bs) ↔ At mem o as ∧ At mem (o + as.length) bs := by
  unfold At
  constructor
  · rintro ⟨rest, h⟩
    refine ⟨⟨bs ++ rest, by simpa using h⟩, ⟨rest, ?_⟩⟩
    rw [← List.drop_drop, ← h]
    simp
  · rintro ⟨⟨r₁, h₁⟩, ⟨r₂, h₂⟩⟩
    refine ⟨r₂, ?_⟩
    rw [← List.drop_drop, ← h₁, List.drop_left] at h₂
    rw [← h₁, ← h₂, List.append_assoc]

theorem at_zero (bs post : List β) : At (bs ++ post) 0 bs := by
  simp [At]

/-- What is inside the bytes an image holds. -/
theorem At.sub {mem : List β} {o : ℕ} {bs : List β} (h : At mem o bs) (i n : ℕ) :
    At mem (o + i) ((bs.drop i).take n) := by
  unfold At at h ⊢
  rw [← List.drop_drop]
  exact (List.take_prefix n _).trans (List.IsPrefix.drop h i)

theorem At.length_le {mem : List β} {o : ℕ} {bs : List β} (h : At mem o bs) (hb : bs ≠ []) :
    o + bs.length ≤ mem.length := by
  have hl := List.IsPrefix.length_le h
  have hp : 0 < bs.length := List.length_pos_iff.mpr hb
  rw [List.length_drop] at hl
  omega

theorem At.take_drop {mem : List β} {o : ℕ} {bs : List β} (h : At mem o bs) :
    (mem.drop o).take bs.length = bs := (List.prefix_iff_eq_take.mp h).symm

theorem At.getElem? {mem : List β} {o : ℕ} {bs : List β} (h : At mem o bs) {i : ℕ}
    (hi : i < bs.length) : mem[o + i]? = bs[i]? := by
  rw [← List.getElem?_drop]
  obtain ⟨rest, hr⟩ := h
  rw [← hr, List.getElem?_append_left hi]

theorem At.slice {mem : List β} {o : ℕ} {bs : List β} (h : At mem o bs) {n : ℕ}
    (hn : n = bs.length) (hb : bs ≠ []) : slice mem o n = some bs := by
  subst hn
  unfold Lib.slice
  rw [if_pos (h.length_le hb), h.take_drop]

/-- A record read back from an image only depends on the bytes of the record. -/
theorem At.of_getElem? {mem mem' : List β} {o : ℕ} {bs : List β} (h : At mem o bs)
    (hm : ∀ i < bs.length, mem'[o + i]? = mem[o + i]?) : At mem' o bs := by
  unfold At
  rw [List.prefix_iff_getElem?]
  intro i hi
  rw [List.getElem?_drop, hm i hi, h.getElem? hi, List.getElem?_eq_getElem hi]

theorem length_patch {mem mem' : List β} {o : ℕ} {bs : List β}
    (h : patch mem o bs = some mem') : mem'.length = mem.length := by
  unfold patch at h
  split_ifs at h with hl
  · obtain rfl := Option.some.inj h
    simp only [List.length_append, List.length_take, List.length_drop]
    omega

/-- A store changes exactly the bytes it covers. -/
theorem getElem?_patch {mem mem' : List β} {o : ℕ} {bs : List β}
    (h : patch mem o bs = some mem') (i : ℕ) :
    mem'[i]? = if o ≤ i ∧ i < o + bs.length then bs[i - o]? else mem[i]? := by
  unfold patch at h
  split_ifs at h with hl
  · obtain rfl := Option.some.inj h
    have ht : (mem.take o).length = o := by rw [List.length_take]; omega
    rw [List.append_assoc, List.getElem?_append, List.getElem?_append, ht, List.getElem?_take,
      List.getElem?_drop]
    by_cases h₁ : i < o
    · have h₂ : ¬(o ≤ i ∧ i < o + bs.length) := by omega
      simp only [if_pos h₁, if_neg h₂]
    · by_cases h₂ : i < o + bs.length
      · have h₃ : i - o < bs.length := by omega
        have h₄ : o ≤ i ∧ i < o + bs.length := ⟨by omega, h₂⟩
        simp only [if_neg h₁, if_pos h₃, if_pos h₄]
      · have h₃ : ¬i - o < bs.length := by omega
        have h₄ : ¬(o ≤ i ∧ i < o + bs.length) := by omega
        simp only [if_neg h₁, if_neg h₃, if_neg h₄]
        congr 1
        omega

theorem at_patch {mem mem' : List β} {o : ℕ} {bs : List β} (h : patch mem o bs = some mem') :
    At mem' o bs := by
  unfold At
  rw [List.prefix_iff_getElem?]
  intro i hi
  have hin : o ≤ o + i ∧ o + i < o + bs.length := by omega
  rw [List.getElem?_drop, getElem?_patch h, if_pos hin, Nat.add_sub_cancel_left,
    List.getElem?_eq_getElem hi]

theorem getElem?_patch_outside {mem mem' : List β} {o : ℕ} {bs : List β}
    (h : patch mem o bs = some mem') {i : ℕ} (hi : i < o ∨ o + bs.length ≤ i) :
    mem'[i]? = mem[i]? := by
  rw [getElem?_patch h, if_neg (by omega)]

theorem patch_isSome {mem : List β} {o : ℕ} {bs : List β} (h : o + bs.length ≤ mem.length) :
    ∃ mem', patch mem o bs = some mem' := ⟨_, if_pos h⟩

/-! ### Little-endian numbers -/

/-- The `w` little-endian bytes of `n`. -/
def leBytes : ℕ → ℕ → List UInt8
  | 0, _ => []
  | w + 1, n => UInt8.ofNat n :: leBytes w (n / 256)

/-- The number with the given little-endian bytes. -/
def ofLE : List UInt8 → ℕ
  | [] => 0
  | b :: bs => b.toNat + 256 * ofLE bs

@[simp] theorem length_leBytes (w n : ℕ) : (leBytes w n).length = w := by
  induction w generalizing n with
  | zero => rfl
  | succ w ih => simp only [leBytes, List.length_cons, ih]

@[simp] theorem ofLE_leBytes (w n : ℕ) : ofLE (leBytes w n) = n % 256 ^ w := by
  induction w generalizing n with
  | zero => simp [leBytes, ofLE, Nat.mod_one]
  | succ w ih =>
    simp only [leBytes, ofLE, ih, UInt8.toNat_ofNat']
    rw [pow_succ' 256 w, Nat.mod_mul]

theorem ofLE_lt (bs : List UInt8) : ofLE bs < 256 ^ bs.length := by
  induction bs with
  | nil => simp [ofLE]
  | cons b bs ih =>
    have hb := b.toNat_lt
    simp only [ofLE, List.length_cons, pow_succ]
    omega

theorem leBytes_ofLE (bs : List UInt8) : leBytes bs.length (ofLE bs) = bs := by
  induction bs with
  | nil => rfl
  | cons b bs ih =>
    have hb := b.toNat_lt
    have hmod : UInt8.ofNat (b.toNat + 256 * ofLE bs) = b := by
      rw [← UInt8.toNat_inj, UInt8.toNat_ofNat']
      omega
    rw [List.length_cons, leBytes, ofLE, hmod, show (b.toNat + 256 * ofLE bs) / 256 = ofLE bs by
      omega, ih]

theorem leBytes_zero (w : ℕ) : leBytes w 0 = List.replicate w 0 := by
  induction w with
  | zero => rfl
  | succ w ih => simp only [leBytes, Nat.zero_div, ih, List.replicate_succ]; rfl

theorem ofLE_append_replicate (bs : List UInt8) (k : ℕ) :
    ofLE (bs ++ List.replicate k 0) = ofLE bs := by
  induction bs with
  | nil =>
    have h := ofLE_leBytes k 0
    rwa [leBytes_zero, Nat.zero_mod] at h
  | cons b bs ih => rw [List.cons_append, ofLE, ih, ofLE]

theorem leBytes_add (v w n : ℕ) :
    leBytes (v + w) n = leBytes v n ++ leBytes w (n / 256 ^ v) := by
  induction v generalizing n with
  | zero => simp [leBytes]
  | succ v ih =>
    rw [show v + 1 + w = v + w + 1 by omega]
    simp only [leBytes, ih, List.cons_append, Nat.div_div_eq_div_mul, pow_succ']

/-! ### Records back to back -/

/-- Records laid out from offset `o`, each with the offset where it starts. -/
def locate (len : α → ℕ) : ℕ → List α → List (ℕ × α)
  | _, [] => []
  | o, x :: xs => (o, x) :: locate len (o + len x) xs

section locate
variable (len : α → ℕ)

@[simp] theorem locate_nil (o : ℕ) : locate len o [] = [] := rfl

@[simp] theorem locate_cons (o : ℕ) (x : α) (xs : List α) :
    locate len o (x :: xs) = (o, x) :: locate len (o + len x) xs := rfl

@[simp] theorem map_snd_locate (o : ℕ) (xs : List α) : (locate len o xs).map Prod.snd = xs := by
  induction xs generalizing o with
  | nil => rfl
  | cons x xs ih => simp [ih]

@[simp] theorem length_locate (o : ℕ) (xs : List α) : (locate len o xs).length = xs.length := by
  rw [← List.length_map, map_snd_locate]

theorem locate_append (o : ℕ) (xs ys : List α) :
    locate len o (xs ++ ys) = locate len o xs ++ locate len (o + (xs.map len).sum) ys := by
  induction xs generalizing o with
  | nil => simp
  | cons x xs ih => simp [ih, add_assoc]

theorem locate_take (o n : ℕ) (xs : List α) :
    locate len o (xs.take n) = (locate len o xs).take n := by
  induction xs generalizing o n with
  | nil => simp
  | cons x xs ih =>
    cases n with
    | zero => rfl
    | succ n => simp [ih]

theorem locate_bounds {o : ℕ} {xs : List α} {p : ℕ × α} (h : p ∈ locate len o xs) :
    o ≤ p.1 ∧ p.1 + len p.2 ≤ o + (xs.map len).sum := by
  induction xs generalizing o with
  | nil => simp at h
  | cons x xs ih =>
    rw [locate_cons, List.mem_cons] at h
    rw [List.map_cons, List.sum_cons]
    rcases h with rfl | h
    · exact ⟨le_rfl, by dsimp only; omega⟩
    · have := ih h
      omega

/-- There are no more records of positive length than there is space. -/
theorem length_le_sum (hlen : ∀ x, 0 < len x) (xs : List α) : xs.length ≤ (xs.map len).sum := by
  induction xs with
  | nil => exact le_rfl
  | cons x xs ih =>
    have hx := hlen x
    rw [List.length_cons, List.map_cons, List.sum_cons]
    omega

/-- Records of positive length never share a start. -/
theorem locate_unique (hlen : ∀ x, 0 < len x) {o : ℕ} {xs : List α} {p q : ℕ × α}
    (hp : p ∈ locate len o xs) (hq : q ∈ locate len o xs)
    (hlt : p.1 < q.1 + len q.2) (hlt' : q.1 < p.1 + len p.2) : p = q := by
  induction xs generalizing o with
  | nil => simp at hp
  | cons x xs ih =>
    rw [locate_cons, List.mem_cons] at hp hq
    have hx := hlen x
    rcases hp with rfl | hp <;> rcases hq with rfl | hq
    · rfl
    · have := (locate_bounds len hq).1
      dsimp only at hlt'
      omega
    · have := (locate_bounds len hp).1
      dsimp only at hlt
      omega
    · exact ih hp hq

theorem nodup_locate (hlen : ∀ x, 0 < len x) (o : ℕ) (xs : List α) : (locate len o xs).Nodup := by
  induction xs generalizing o with
  | nil => exact List.nodup_nil
  | cons x xs ih =>
    refine List.nodup_cons.mpr ⟨fun hmem => ?_, ih _⟩
    have hb := (locate_bounds len hmem).1
    have hx := hlen x
    dsimp only at hb
    omega

/-- The end of a record is the start of the next one, up to any later record. -/
theorem locate_next {o : ℕ} {xs : List α} {p q : ℕ × α} (hp : p ∈ locate len o xs)
    (hq : q ∈ locate len o xs) (hlt : p.1 + len p.2 ≤ q.1) :
    ∃ r ∈ locate len o xs, r.1 = p.1 + len p.2 ∧ r.1 ≤ q.1 := by
  induction xs generalizing o with
  | nil => simp at hp
  | cons x xs ih =>
    rw [locate_cons, List.mem_cons] at hp hq
    rw [locate_cons]
    rcases hp with rfl | hp
    · rcases hq with rfl | hq
      · exact ⟨_, List.mem_cons_self, by dsimp only at hlt ⊢; omega, le_rfl⟩
      · cases xs with
        | nil => simp at hq
        | cons y ys => exact ⟨(o + len x, y), by simp, rfl, (locate_bounds len hq).1⟩
    · rcases hq with rfl | hq
      · have := (locate_bounds len hp).1
        exact ⟨_, List.mem_cons_self, by dsimp only at hlt ⊢; omega, le_rfl⟩
      · obtain ⟨r, hr, hr'⟩ := ih hp hq
        exact ⟨r, List.mem_cons_of_mem _ hr, hr'⟩

theorem locate_at {enc : α → List β} {mem : List β} {o : ℕ} {xs : List α}
    (henc : ∀ x, (enc x).length = len x) (h : At mem o (xs.flatMap enc)) :
    ∀ p ∈ locate len o xs, At mem p.1 (enc p.2) := by
  induction xs generalizing o with
  | nil => simp
  | cons x xs ih =>
    rw [List.flatMap_cons, at_append, henc] at h
    intro p hp
    rw [locate_cons, List.mem_cons] at hp
    rcases hp with rfl | hp
    · exact h.1
    · exact ih h.2 p hp

/-- An array of records of one size. -/
theorem at_flatMap_getElem? {enc : α → List β} {mem : List β} {o k i : ℕ} {xs : List α} {x : α}
    (henc : ∀ x, (enc x).length = k) (h : At mem o (xs.flatMap enc)) (hx : xs[i]? = some x) :
    At mem (o + k * i) (enc x) := by
  induction xs generalizing o i with
  | nil => simp at hx
  | cons y ys ih =>
    rw [List.flatMap_cons, at_append, henc y] at h
    cases i with
    | zero =>
      obtain rfl : y = x := by simpa using hx
      exact h.1
    | succ i =>
      have hrest := ih h.2 (by simpa using hx)
      rwa [Nat.mul_succ, Nat.add_comm (k * i), ← Nat.add_assoc]

theorem length_flatMap_enc {enc : α → List β} (henc : ∀ x, (enc x).length = len x)
    (xs : List α) : (xs.flatMap enc).length = (xs.map len).sum := by
  rw [List.length_flatMap]
  congr 1
  exact List.map_congr_left fun x _ => henc x

end locate
end Lib

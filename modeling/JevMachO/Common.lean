import JevMachO.Lib.Cursor
import JevMachO.Lib.Frame

/-! What every component shares: the ways a run can stop, memory accesses, C strings, and the
string-splitting view. Pointers are offsets into a byte image; `none` is the null pointer. -/
namespace JevMachO
open Lib

/-- Why a run stops without a result: a failed `assert`, an access outside the object, a null
dereference, or a loop that has not ended within its bound. -/
inductive Fault where
  | assertFailed
  | outOfBounds
  | nullDeref
  | endless
  deriving DecidableEq, Repr

abbrev Exec := Except Fault

abbrev Bytes := List UInt8

/-- The bytes of an ASCII literal. -/
def ascii (s : List Char) : Bytes := s.map Char.toUInt8

def slash : UInt8 := 0x2f

def hash : UInt8 := 0x23

def assertThat (b : Bool) : Exec Unit := if b then .ok () else .error .assertFailed

@[simp] theorem assertThat_true : assertThat true = .ok () := rfl

@[simp] theorem assertThat_false : assertThat false = .error .assertFailed := rfl

/-! ### Containers of a fixed capacity -/

/-- How a container of a fixed capacity that the repository takes from elsewhere is added to. What
is added goes to the end while there is room; what happens without is up to the library. -/
structure FixedCapacity (α : Type) (capacity : ℕ) where
  append : List α → List α → Exec (List α)
  append_eq : ∀ {xs ys}, xs.length + ys.length ≤ capacity → append xs ys = .ok (xs ++ ys)

namespace FixedCapacity
variable {α β : Type} {capacity : ℕ}

/-- A container that stops the program when it is full. -/
def stopping : FixedCapacity α capacity where
  append xs ys :=
    if xs.length + ys.length ≤ capacity then .ok (xs ++ ys) else .error .assertFailed
  append_eq h := if_pos h

/-- Adding piece after piece. -/
theorem foldlM_append (c : FixedCapacity α capacity) (f : β → List α) (bs : List β) (xs : List α)
    (h : xs.length + (bs.flatMap f).length ≤ capacity) :
    bs.foldlM (fun xs b => c.append xs (f b)) xs = .ok (xs ++ bs.flatMap f) := by
  induction bs generalizing xs with
  | nil => simp
  | cons b bs ih =>
    rw [List.flatMap_cons, List.length_append] at h
    have hle : xs.length + (f b).length ≤ capacity := by omega
    rw [List.foldlM_cons, c.append_eq hle, List.flatMap_cons, ← List.append_assoc]
    exact ih (xs ++ f b) (by rw [List.length_append]; omega)

end FixedCapacity

/-! ### Memory -/

def load (mem : Bytes) (o n : ℕ) : Exec Bytes :=
  match slice mem o n with
  | some bs => .ok bs
  | none => .error .outOfBounds

def loadU32 (mem : Bytes) (o : ℕ) : Exec UInt32 := do
  return UInt32.ofNat (ofLE (← load mem o 4))

def loadU64 (mem : Bytes) (o : ℕ) : Exec UInt64 := do
  return UInt64.ofNat (ofLE (← load mem o 8))

def store (mem : Bytes) (o : ℕ) (bs : Bytes) : Exec Bytes :=
  match patch mem o bs with
  | some mem' => .ok mem'
  | none => .error .outOfBounds

theorem load_of_at {mem : Bytes} {o n : ℕ} {bs : Bytes} (h : At mem o bs) (hn : n = bs.length)
    (hb : bs ≠ []) : load mem o n = .ok bs := by
  unfold load
  rw [h.slice hn hb]

theorem loadU32_of_at {mem : Bytes} {o n : ℕ} (h : At mem o (leBytes 4 n)) :
    loadU32 mem o = .ok (UInt32.ofNat n) := by
  have hl := load_of_at h (n := 4) (by simp) (by simp [leBytes])
  rw [loadU32, hl]
  simp only [ok_bind, pure_eq_ok, ofLE_leBytes]
  congr 1
  apply UInt32.toNat_inj.mp
  simp

theorem loadU64_of_at {mem : Bytes} {o n : ℕ} (h : At mem o (leBytes 8 n)) :
    loadU64 mem o = .ok (UInt64.ofNat n) := by
  have hl := load_of_at h (n := 8) (by simp) (by simp [leBytes])
  rw [loadU64, hl]
  simp only [ok_bind, pure_eq_ok, ofLE_leBytes]
  congr 1
  apply UInt64.toNat_inj.mp
  simp

theorem store_eq_ok {mem mem' : Bytes} {o : ℕ} {bs : Bytes} (h : store mem o bs = .ok mem') :
    patch mem o bs = some mem' := by
  unfold store at h
  cases hp : patch mem o bs with
  | none => simp [hp] at h
  | some m => simpa [hp] using h

theorem store_of_patch {mem mem' : Bytes} {o : ℕ} {bs : Bytes}
    (h : patch mem o bs = some mem') : store mem o bs = .ok mem' := by
  unfold store
  rw [h]

theorem load_eq_ok {mem bs : Bytes} {o n : ℕ} (h : load mem o n = .ok bs) :
    o + n ≤ mem.length ∧ bs.length = n ∧ At mem o bs := by
  unfold load slice at h
  split_ifs at h with hin
  · obtain rfl := Except.ok.inj h
    refine ⟨hin, ?_, List.take_prefix _ _⟩
    rw [List.length_take, List.length_drop]
    omega

theorem load_eq_ok_iff {mem bs : Bytes} {o n : ℕ} :
    load mem o n = .ok bs ↔ slice mem o n = some bs := by
  unfold load
  cases slice mem o n with
  | none => simp
  | some cs => simp

theorem load_of_le {mem : Bytes} {o n : ℕ} (h : o + n ≤ mem.length) :
    load mem o n = .ok ((mem.drop o).take n) := by
  rw [load, slice, if_pos h]

theorem load_store {mem mem' bs : Bytes} {o : ℕ} (h : store mem o bs = .ok mem') :
    load mem' o bs.length = .ok bs := by
  have hp := store_eq_ok h
  have hlen := length_patch hp
  unfold patch at hp
  split_ifs at hp with hin
  rw [load_of_le (by omega), (at_patch (store_eq_ok h)).take_drop]

section changedIn
variable {S : Set ℕ} {mem mem' : Bytes} {o n : ℕ}

theorem store_changedIn {bs : Bytes} (h : store mem o bs = .ok mem') :
    ChangedIn (Set.Ico o (o + bs.length)) mem mem' := .of_patch (store_eq_ok h)

theorem load_changedIn (h : ChangedIn S mem mem') (hd : Disjoint (Set.Ico o (o + n)) S) :
    load mem' o n = load mem o n := by
  unfold load
  rw [h.slice_eq hd]

theorem loadU32_changedIn (h : ChangedIn S mem mem') (hd : Disjoint (Set.Ico o (o + 4)) S) :
    loadU32 mem' o = loadU32 mem o := by
  unfold loadU32
  rw [load_changedIn h hd]

theorem loadU64_changedIn (h : ChangedIn S mem mem') (hd : Disjoint (Set.Ico o (o + 8)) S) :
    loadU64 mem' o = loadU64 mem o := by
  unfold loadU64
  rw [load_changedIn h hd]

end changedIn

/-! ### Spans -/

/-- `buf[off]`. -/
def getByte (buf : Bytes) (off : ℕ) : Exec UInt8 :=
  match buf[off]? with
  | some b => .ok b
  | none => .error .outOfBounds

/-- `buf[off] = b`. -/
def putByte (buf : Bytes) (off : ℕ) (b : UInt8) : Exec Bytes :=
  if off < buf.length then .ok (buf.set off b) else .error .outOfBounds

/-- Increment of a `uint32_t`. -/
def inc32 (n : ℕ) : ℕ := (n + 1) % 2 ^ 32

theorem inc32_eq {n : ℕ} (h : n + 1 < 2 ^ 32) : inc32 n = n + 1 := Nat.mod_eq_of_lt h

theorem getByte_length (as : Bytes) : getByte as as.length = .error .outOfBounds := by
  simp [getByte]

/-- Writing one byte after those already written into a buffer. -/
theorem putByte_append {out buf : Bytes} (h : out.length < buf.length) (b : UInt8) :
    putByte (out ++ buf.drop out.length) out.length b =
      .ok ((out ++ [b]) ++ buf.drop (out ++ [b]).length) := by
  have hlt : out.length < (out ++ buf.drop out.length).length := by
    rw [List.length_append, List.length_drop]
    omega
  unfold putByte
  rw [if_pos hlt, List.drop_eq_getElem_cons h, List.set_append_right _ _ (Nat.le_refl _),
    Nat.sub_self, List.set_cons_zero, List.length_append, List.length_singleton]
  simp

theorem putByte_eq_ok {out buf : Bytes} {b : UInt8} {r : Bytes} (hle : out.length ≤ buf.length)
    (h : putByte (out ++ buf.drop out.length) out.length b = .ok r) :
    out.length < buf.length ∧ r = (out ++ [b]) ++ buf.drop (out ++ [b]).length := by
  have hlt : out.length < buf.length := by
    unfold putByte at h
    split_ifs at h with hlt
    rw [List.length_append, List.length_drop] at hlt
    omega
  rw [putByte_append hlt] at h
  exact ⟨hlt, (Except.ok.inj h).symm⟩

/-! ### C strings -/

/-- The bytes before the first NUL. -/
def untilNul (bs : Bytes) : Bytes := bs.takeWhile (· ≠ 0)

/-- `std::string_view{ptr}`: the bytes from `o` up to a NUL inside the image. -/
def cstr (mem : Bytes) (o : ℕ) : Exec Bytes :=
  if (0 : UInt8) ∈ mem.drop o then .ok (untilNul (mem.drop o)) else .error .outOfBounds

/-- The bytes in front of the first `c`. -/
theorem takeWhile_ne_append {c : UInt8} {as : Bytes} (h : c ∉ as) (bs : Bytes) :
    (as ++ c :: bs).takeWhile (· ≠ c) = as := by
  have hne : ∀ b ∈ as, decide (b ≠ c) = true := fun b hb => by
    rw [decide_eq_true_iff]
    rintro rfl
    exact h hb
  rw [List.takeWhile_append_of_pos hne, List.takeWhile_cons_of_neg (by simp), List.append_nil]

theorem untilNul_append {as bs : Bytes} (h : (0 : UInt8) ∈ as) :
    untilNul (as ++ bs) = untilNul as := by
  induction as with
  | nil => simp at h
  | cons a as ih =>
    by_cases ha : a = 0
    · simp [untilNul, ha]
    · have h' : (0 : UInt8) ∈ as := by simpa [Ne.symm ha] using h
      simpa [untilNul, ha] using ih h'

theorem untilNul_concat_nul (bs : Bytes) : untilNul (bs ++ [0]) = untilNul bs := by
  induction bs with
  | nil => rfl
  | cons b bs ih =>
    by_cases hb : b = 0
    · simp [untilNul, hb]
    · simpa [untilNul, hb] using ih

theorem cstr_of_at {mem : Bytes} {o : ℕ} {bs : Bytes} (h : At mem o bs)
    (h0 : (0 : UInt8) ∈ bs) : cstr mem o = .ok (untilNul bs) := by
  obtain ⟨rest, hr⟩ := h
  unfold cstr
  rw [← hr, if_pos (List.mem_append_left _ h0), untilNul_append h0]

theorem not_mem_untilNul (bs : Bytes) : (0 : UInt8) ∉ untilNul bs := fun h => by
  simpa using List.mem_takeWhile_imp h

theorem untilNul_of_not_mem {bs : Bytes} (h : (0 : UInt8) ∉ bs) : untilNul bs = bs :=
  List.takeWhile_eq_self_iff.mpr fun _ hb => decide_eq_true fun h0 => h (h0 ▸ hb)

/-- A C string is in memory with its NUL. -/
theorem cstr_eq_ok {mem s : Bytes} {o : ℕ} (h : cstr mem o = .ok s) :
    (0 : UInt8) ∉ s ∧ At mem o (s ++ [0]) := by
  unfold cstr at h
  split_ifs at h with h0
  obtain rfl := Except.ok.inj h
  refine ⟨not_mem_untilNul _, ?_⟩
  unfold At untilNul
  have hsplit := List.takeWhile_append_dropWhile (p := (· ≠ (0 : UInt8))) (l := mem.drop o)
  have hhead := List.head?_dropWhile_not (fun b : UInt8 => decide (b ≠ 0)) (mem.drop o)
  cases hrest : (mem.drop o).dropWhile (· ≠ 0) with
  | nil =>
    rw [hrest, List.append_nil] at hsplit
    rw [← hsplit] at h0
    exact absurd h0 (not_mem_untilNul _)
  | cons b rest =>
    rw [hrest] at hsplit hhead
    obtain rfl : b = 0 := by simpa using hhead
    refine ⟨rest, ?_⟩
    rw [List.append_assoc]
    exact hsplit

/-! ### Splitting -/

/-- `views::split`, an external library's view: the segments of a string at a delimiter. -/
abbrev SplitView := Bytes → UInt8 → List Bytes

/-- The view yields the delimiter-separated segments in order. Strings that are empty or end
in a delimiter are left open, since published versions of the view differ on them. -/
def SplitView.YieldsSegments (split : SplitView) : Prop :=
  ∀ (d : UInt8) (segs : List Bytes), segs ≠ [] → (∀ s ∈ segs, d ∉ s) →
    segs.getLast? ≠ some [] → split (List.intercalate [d] segs) d = segs

theorem splitOn_yieldsSegments :
    SplitView.YieldsSegments (fun s d => s.splitOn d) := fun d _ hne hd _ =>
  List.splitOn_intercalate d hd hne

/-- A leading delimiter before every segment is a join with an empty first segment. -/
theorem intercalate_nil_cons {d : UInt8} {segs : List Bytes} (h : segs ≠ []) :
    List.intercalate [d] ([] :: segs) = segs.flatMap (d :: ·) := by
  induction segs with
  | nil => exact absurd rfl h
  | cons s segs ih =>
    cases segs with
    | nil => simp [List.intercalate]
    | cons r segs =>
      have := ih (by simp)
      simp only [List.intercalate, List.intersperse, List.flatten_cons, List.flatMap_cons,
        List.nil_append, List.cons_append] at this ⊢
      rw [← this]

def stringSplitViewDelimitedBy (split : SplitView) (toSplit : Bytes) (delim : UInt8) :
    List Bytes := split toSplit delim

end JevMachO

import Mathlib.Data.List.Basic
import Mathlib.Order.Basic

/-! Address spaces as functions from pages to pages of files, and what mapping and unmapping a
range does to the ranges that show a file. -/
namespace Lib

variable {φ : Type}

/-- The page of a file that each page shows, if any. -/
abbrev Pages (φ : Type) := ℕ → Option (φ × ℕ)

/-- A page is one of the `n` from `start` on. -/
def InRange (start n q : ℕ) : Prop := start ≤ q ∧ q < start + n

instance (start n q : ℕ) : Decidable (InRange start n q) :=
  inferInstanceAs (Decidable (_ ∧ _))

namespace Pages

/-- The file from its beginning on, over whatever was there. -/
def map (pages : Pages φ) (start n : ℕ) (file : φ) : Pages φ := fun q =>
  if InRange start n q then some (file, q - start) else pages q

def unmap (pages : Pages φ) (start n : ℕ) : Pages φ := fun q =>
  if InRange start n q then none else pages q

def Free (pages : Pages φ) (start n : ℕ) : Prop := ∀ k < n, pages (start + k) = none

instance [DecidableEq φ] (pages : Pages φ) (start n : ℕ) : Decidable (pages.Free start n) :=
  inferInstanceAs (Decidable (∀ k < n, pages (start + k) = none))

/-- The range shows the beginning of a file. -/
def Shows (pages : Pages φ) (start n : ℕ) (file : φ) : Prop :=
  ∀ k < n, pages (start + k) = some (file, k)

/-- The two ranges have no page in common. -/
def Apart (start n start' n' : ℕ) : Prop := ∀ q, InRange start n q → ¬InRange start' n' q

variable {pages : Pages φ} {start n start' n' q : ℕ} {file file' : φ}

theorem map_of_inRange (h : InRange start n q) :
    pages.map start n file q = some (file, q - start) := if_pos h

theorem map_of_not_inRange (h : ¬InRange start n q) : pages.map start n file q = pages q :=
  if_neg h

theorem unmap_of_inRange (h : InRange start n q) : pages.unmap start n q = none := if_pos h

theorem unmap_of_not_inRange (h : ¬InRange start n q) : pages.unmap start n q = pages q :=
  if_neg h

theorem inRange_add {k : ℕ} (hk : k < n) : InRange start n (start + k) :=
  ⟨Nat.le_add_right start k, Nat.add_lt_add_left hk start⟩

theorem InRange.exists (h : InRange start n q) : ∃ k < n, q = start + k := by
  obtain ⟨hle, hlt⟩ := h
  exact ⟨q - start, by omega, by omega⟩

theorem Free.eq_none (h : pages.Free start n) (hq : InRange start n q) : pages q = none := by
  obtain ⟨k, hk, rfl⟩ := InRange.exists hq
  exact h k hk

theorem Shows.eq_some (h : pages.Shows start n file) (hq : InRange start n q) :
    pages q = some (file, q - start) := by
  obtain ⟨k, hk, rfl⟩ := InRange.exists hq
  rw [h k hk, Nat.add_sub_cancel_left]

theorem Apart.symm (h : Apart start n start' n') : Apart start' n' start n :=
  fun q hq' hq => h q hq hq'

theorem shows_map (pages : Pages φ) (start n : ℕ) (file : φ) :
    (pages.map start n file).Shows start n file := fun k hk => by
  rw [map_of_inRange (inRange_add hk), Nat.add_sub_cancel_left]

/-- Ranges apart from the one that is mapped or unmapped keep what they show. -/
theorem Shows.map (h : pages.Shows start n file) (hapart : Apart start n start' n') :
    (pages.map start' n' file').Shows start n file := fun k hk => by
  rw [map_of_not_inRange (hapart _ (inRange_add hk))]
  exact h k hk

theorem Shows.unmap (h : pages.Shows start n file) (hapart : Apart start n start' n') :
    (pages.unmap start' n').Shows start n file := fun k hk => by
  rw [unmap_of_not_inRange (hapart _ (inRange_add hk))]
  exact h k hk

/-- A range that shows one file is apart from those that show another. -/
theorem Shows.apart (h : pages.Shows start n file) (h' : pages.Shows start' n' file')
    (hne : file ≠ file') : Apart start n start' n' := fun q hq hq' => by
  have heq := (h.eq_some hq).symm.trans (h'.eq_some hq')
  exact hne (Prod.mk.inj (Option.some.inj heq)).1

theorem Shows.apart_free (h : pages.Shows start n file) (hfree : pages.Free start' n') :
    Apart start n start' n' := fun q hq hq' => by
  have heq := (h.eq_some hq).symm.trans (hfree.eq_none hq')
  cases heq

/-- A page that shows another file than the one mapped over it is lost. -/
theorem Shows.apart_of_map (h : (pages.map start' n' file').Shows start n file)
    (hne : file ≠ file') : Apart start n start' n' := fun q hq hq' => by
  have heq := (h.eq_some hq).symm.trans (map_of_inRange hq')
  exact hne (Prod.mk.inj (Option.some.inj heq)).1

theorem unmap_map (pages : Pages φ) (start n : ℕ) (file : φ) :
    (pages.map start n file).unmap start n = pages.unmap start n := by
  funext q
  by_cases hq : InRange start n q
  · rw [unmap_of_inRange hq, unmap_of_inRange hq]
  · rw [unmap_of_not_inRange hq, unmap_of_not_inRange hq, map_of_not_inRange hq]

/-- Unmapping changes nothing exactly when nothing was there. -/
theorem unmap_eq_self_iff : pages.unmap start n = pages ↔ pages.Free start n := by
  constructor
  · intro h k hk
    rw [← h, unmap_of_inRange (inRange_add hk)]
  · intro h
    funext q
    by_cases hq : InRange start n q
    · rw [unmap_of_inRange hq, h.eq_none hq]
    · exact unmap_of_not_inRange hq

/-- Mapping apart ranges and unmapping one of them can be exchanged. -/
theorem map_unmap_of_apart (pages : Pages φ) (hapart : Apart start n start' n') :
    (pages.map start' n' file).unmap start n = (pages.unmap start n).map start' n' file := by
  funext q
  by_cases hq : InRange start n q
  · rw [unmap_of_inRange hq, map_of_not_inRange (hapart q hq), unmap_of_inRange hq]
  · by_cases hq' : InRange start' n' q
    · rw [unmap_of_not_inRange hq, map_of_inRange hq', map_of_inRange hq']
    · rw [unmap_of_not_inRange hq, map_of_not_inRange hq', map_of_not_inRange hq',
        unmap_of_not_inRange hq]

/-- The byte of a file at an address, in pages of `sz` bytes. -/
def translate (pages : Pages φ) (sz addr : ℕ) : Option (φ × ℕ) :=
  (pages (addr / sz)).map fun page => (page.1, page.2 * sz + addr % sz)

/-- The bytes of a range are those of the file it shows. -/
theorem Shows.translate {sz x : ℕ} (h : pages.Shows start n file) (hx : x < n * sz) :
    pages.translate sz (start * sz + x) = some (file, x) := by
  have hsz : 0 < sz := Nat.pos_of_ne_zero fun h0 => by simp [h0] at hx
  have hpage : (start * sz + x) / sz = start + x / sz := by
    rw [Nat.mul_comm, Nat.mul_add_div hsz]
  have hlt : x / sz < n := Nat.div_lt_of_lt_mul (by rwa [Nat.mul_comm])
  rw [Pages.translate, hpage, h _ hlt, Nat.mul_add_mod', Option.map_some, Nat.div_add_mod']

end Pages
end Lib

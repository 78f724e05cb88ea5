import Mathlib.Data.List.Basic
import Mathlib.Logic.Function.Basic

/-! Rings of cells addressed by ever-growing indices. A window is the list of the values between
two indices; as long as it is shorter than the ring, its indices have different cells. -/
namespace Lib
namespace Ring

variable {α : Type}

/-- The cell of an index in a ring of `n`. -/
def write (n : ℕ) (cells : ℕ → α) (i : ℕ) (v : α) : ℕ → α := Function.update cells (i % n) v

/-- The values at the indices from `a` up to `b`. -/
def window (n : ℕ) (cells : ℕ → α) (a b : ℕ) : List α :=
  (List.range' a (b - a)).map fun i => cells (i % n)

variable {n a b i j : ℕ} {cells : ℕ → α} {v : α}

/-- Two indices less than a ring apart have different cells. -/
theorem mod_ne (hij : i < j) (hlt : j < i + n) : i % n ≠ j % n := by
  intro h
  have hmod : (j - i) % n = 0 := Nat.sub_mod_eq_zero_of_mod_eq h.symm
  rw [Nat.mod_eq_of_lt (by omega)] at hmod
  omega

theorem write_self : write n cells i v (i % n) = v := Function.update_self ..

theorem write_of_ne (h : j % n ≠ i % n) : write n cells i v (j % n) = cells (j % n) :=
  Function.update_of_ne h ..

@[simp] theorem length_window : (window n cells a b).length = b - a := by
  simp [window]

@[simp] theorem window_self : window n cells a a = [] := by
  simp [window]

theorem window_cons (h : a < b) :
    window n cells a b = cells (a % n) :: window n cells (a + 1) b := by
  obtain ⟨k, rfl⟩ := Nat.exists_eq_add_of_lt h
  rw [window, window, show a + k + 1 - a = k + 1 by omega, show a + k + 1 - (a + 1) = k by omega,
    List.range'_succ, List.map_cons]

theorem window_congr {cells' : ℕ → α} (h : ∀ i, a ≤ i → i < b → cells' (i % n) = cells (i % n)) :
    window n cells' a b = window n cells a b := by
  refine List.map_congr_left fun i hi => ?_
  rw [List.mem_range'_1] at hi
  exact h i hi.1 (by omega)

/-- A write at an index less than a ring past the start extends the window or misses it. -/
theorem window_write (hab : b ≤ i) (hlt : i < a + n) :
    window n (write n cells i v) a b = window n cells a b :=
  window_congr fun _ ha hb => write_of_ne (mod_ne (by omega) (by omega))

theorem window_write_before (hi : i < a) (hlt : b ≤ i + n) :
    window n (write n cells i v) a b = window n cells a b :=
  window_congr fun _ ha hb => write_of_ne (mod_ne (by omega) (by omega)).symm

theorem window_push (hab : a ≤ b) (hlt : b < a + n) :
    window n (write n cells b v) a (b + 1) = window n cells a b ++ [v] := by
  have hlen : b + 1 - a = (b - a) + 1 := by omega
  rw [← window_write (i := b) (v := v) (Nat.le_refl b) hlt, window, window, hlen,
    List.range'_1_concat, List.map_append, List.map_singleton, show a + (b - a) = b by omega,
    write_self]

/-- A window is a slice of a list when every index holds the list's element. -/
theorem window_eq_drop {xs : List α} (hb : b = xs.length)
    (h : ∀ i, a ≤ i → i < b → xs[i]? = some (cells (i % n))) :
    window n cells a b = xs.drop a := by
  refine List.ext_getElem? fun k => ?_
  rw [List.getElem?_drop]
  by_cases hk : a + k < b
  · rw [h (a + k) (by omega) hk, window, List.getElem?_map, List.getElem?_range' (by omega)]
    simp
  · rw [List.getElem?_eq_none (by rw [length_window]; omega), List.getElem?_eq_none (by omega)]

end Ring
end Lib

import JevMachO.Lib.Except
import Mathlib.Data.List.Basic

/-! Arrays of a fixed capacity, filled from the front. -/
namespace Lib

variable {ε α β γ : Type} {n : ℕ}

/-- An array, and where the next element goes. -/
structure Filling (n : ℕ) (α : Type) where
  res : Vector α n
  idx : ℕ

namespace Filling

def empty (n : ℕ) (d : α) : Filling n α := ⟨.replicate n d, 0⟩

/-- `res[idx] = x`, and the index moves on; `full` where the array has no such element. -/
def put (next : ℕ → ℕ) (full : ε) (f : Filling n α) (x : α) : Except ε (Filling n α) :=
  if h : f.idx < n then .ok ⟨f.res.set f.idx x h, next f.idx⟩ else .error full

/-- What has been put in stands at the front, each in its place, and the default behind it. -/
structure Holds (f : Filling n α) (d : α) (xs : List α) : Prop where
  idx : f.idx = xs.length
  res : f.res.toList = xs ++ List.replicate (n - xs.length) d

variable {f : Filling n α} {d : α} {xs : List α} {next : ℕ → ℕ} {e : ε}

theorem holds_empty (n : ℕ) (d : α) : (empty n d).Holds d [] := ⟨rfl, rfl⟩

theorem Holds.length_le (h : f.Holds d xs) : xs.length ≤ n := by
  have hlen := congrArg List.length h.res
  rw [Vector.length_toList, List.length_append, List.length_replicate] at hlen
  omega

theorem Holds.put (h : f.Holds d xs) (hnext : ∀ i < n, next i = i + 1) (hlt : xs.length < n)
    (x : α) : ∃ f', f.put next e x = .ok f' ∧ f'.Holds d (xs ++ [x]) := by
  have hidx : f.idx < n := by rwa [h.idx]
  refine ⟨_, dif_pos hidx, ?_, ?_⟩
  · dsimp only
    rw [hnext _ hidx, h.idx, List.length_append, List.length_singleton]
  · have hrest : n - xs.length = (n - (xs ++ [x]).length) + 1 := by
      rw [List.length_append, List.length_singleton]
      omega
    rw [Vector.toList_set, h.res, h.idx, hrest, List.replicate_succ,
      List.set_append_right _ _ (Nat.le_refl _), Nat.sub_self, List.set_cons_zero,
      List.append_assoc]
    rfl

theorem Holds.foldlM_put (h : f.Holds d xs) (hnext : ∀ i < n, next i = i + 1) (ys : List α)
    (hle : xs.length + ys.length ≤ n) :
    ∃ f', ys.foldlM (Filling.put next e) f = .ok f' ∧ f'.Holds d (xs ++ ys) := by
  induction ys generalizing f xs with
  | nil => exact ⟨f, rfl, by rwa [List.append_nil]⟩
  | cons y ys ih =>
    rw [List.length_cons] at hle
    obtain ⟨f₁, hf₁, h₁⟩ := h.put hnext (e := e) (by omega) y
    have hle₁ : (xs ++ [y]).length + ys.length ≤ n := by
      rw [List.length_append, List.length_singleton]
      omega
    obtain ⟨f', hf', h'⟩ := ih h₁ hle₁
    refine ⟨f', by rw [List.foldlM_cons, hf₁, ok_bind, hf'], ?_⟩
    rwa [List.append_assoc] at h'

end Filling

/-- A loop whose rounds are loops of their own. -/
theorem foldlM_flatMap {f : β → α → Except ε β} {body : β → γ → Except ε β} {g : γ → List α}
    {cs : List γ} (h : ∀ c ∈ cs, ∀ b, body b c = (g c).foldlM f b) (b : β) :
    cs.foldlM body b = (cs.flatMap g).foldlM f b := by
  induction cs generalizing b with
  | nil => rfl
  | cons c cs ih =>
    obtain ⟨hc, hcs⟩ := List.forall_mem_cons.mp h
    rw [List.foldlM_cons, List.flatMap_cons, List.foldlM_append, hc]
    congr 1
    funext b'
    exact ih hcs b'

theorem foldlM_map_of {f : β → α → Except ε β} {body : β → γ → Except ε β} {g : γ → α}
    {cs : List γ} (h : ∀ c ∈ cs, ∀ b, body b c = f b (g c)) (b : β) :
    cs.foldlM body b = (cs.map g).foldlM f b := by
  rw [List.map_eq_flatMap]
  refine foldlM_flatMap (fun c hc b => ?_) b
  rw [h c hc b, List.foldlM_cons]
  exact (bind_pure _).symm

end Lib

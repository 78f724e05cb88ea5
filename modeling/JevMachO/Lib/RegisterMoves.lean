import Mathlib.Data.List.Basic
import Mathlib.Logic.Function.Basic

/-! Straight-line code that moves registers to and from the words of one area. The interpreter is
generic in the values, so a run on numbers is a run on symbols with the symbols evaluated. -/
namespace Lib
namespace RegisterMoves

/-- A move between the registers `ρ` and the words of the area. -/
inductive Move (ρ : Type) where
  | save (r : ρ) (k : ℕ)
  | restore (r : ρ) (k : ℕ)
  | copy (dst src : ρ)
  | set (dst : ρ) (v : UInt64)

structure State (ρ V : Type) where
  reg : ρ → V
  word : ℕ → V

variable {ρ V W : Type}

namespace State

def map (f : V → W) (s : State ρ V) : State ρ W := ⟨fun r => f (s.reg r), fun k => f (s.word k)⟩

end State

variable [DecidableEq ρ]

/-- One move, with `lit` giving the value of a literal. -/
def Move.exec (lit : UInt64 → V) (s : State ρ V) : Move ρ → State ρ V
  | .save r k => { s with word := Function.update s.word k (s.reg r) }
  | .restore r k => { s with reg := Function.update s.reg r (s.word k) }
  | .copy dst src => { s with reg := Function.update s.reg dst (s.reg src) }
  | .set dst v => { s with reg := Function.update s.reg dst (lit v) }

def run (lit : UInt64 → V) (ms : List (Move ρ)) (s : State ρ V) : State ρ V :=
  ms.foldl (Move.exec lit) s

theorem exec_map {lit : UInt64 → V} {lit' : UInt64 → W} {f : V → W} (hf : ∀ v, f (lit v) = lit' v)
    (m : Move ρ) (s : State ρ V) : m.exec lit' (s.map f) = (m.exec lit s).map f := by
  have hupd : ∀ {ι : Type} [DecidableEq ι] (g : ι → V) (i : ι) (v : V),
      Function.update (fun j => f (g j)) i (f v) = fun j => f (Function.update g i v j) :=
    fun g i v => (Function.comp_update f g i v).symm
  cases m with
  | save r k => simp only [Move.exec, State.map, hupd]
  | restore r k => simp only [Move.exec, State.map, hupd]
  | copy dst src => simp only [Move.exec, State.map, hupd]
  | set dst v => simp only [Move.exec, State.map, ← hf, hupd]

theorem run_map {lit : UInt64 → V} {lit' : UInt64 → W} {f : V → W} (hf : ∀ v, f (lit v) = lit' v)
    (ms : List (Move ρ)) (s : State ρ V) : run lit' ms (s.map f) = (run lit ms s).map f := by
  induction ms generalizing s with
  | nil => rfl
  | cons m ms ih =>
    simp only [run, List.foldl_cons] at ih ⊢
    rw [exec_map hf, ih]

/-- Where a value comes from: a register or a word at entry, or a literal. -/
inductive Origin (ρ : Type) where
  | reg (r : ρ)
  | word (k : ℕ)
  | lit (v : UInt64)
  deriving DecidableEq

namespace Origin

def eval (s : State ρ UInt64) : Origin ρ → UInt64
  | .reg r => s.reg r
  | .word k => s.word k
  | .lit v => v

end Origin

/-- Where every register and word comes from after the moves. -/
def origins (ms : List (Move ρ)) : State ρ (Origin ρ) := run Origin.lit ms ⟨Origin.reg, Origin.word⟩

/-- Running on numbers evaluates the origins at entry. -/
theorem run_eq_eval_origins (ms : List (Move ρ)) (s : State ρ UInt64) :
    run id ms s = (origins ms).map (Origin.eval s) := by
  have hlit : ∀ v, Origin.eval s (Origin.lit v) = id v := fun _ => rfl
  exact run_map hlit ms ⟨Origin.reg, Origin.word⟩

theorem run_reg {ms : List (Move ρ)} {r : ρ} {o : Origin ρ} (h : (origins ms).reg r = o)
    (s : State ρ UInt64) : (run id ms s).reg r = o.eval s := by
  rw [run_eq_eval_origins, ← h]
  rfl

theorem run_word {ms : List (Move ρ)} {k : ℕ} {o : Origin ρ} (h : (origins ms).word k = o)
    (s : State ρ UInt64) : (run id ms s).word k = o.eval s := by
  rw [run_eq_eval_origins, ← h]
  rfl

theorem run_append (lit : UInt64 → V) (ms ns : List (Move ρ)) (s : State ρ V) :
    run lit (ms ++ ns) s = run lit ns (run lit ms s) := List.foldl_append ..

end RegisterMoves
end Lib

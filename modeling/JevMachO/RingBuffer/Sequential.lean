import JevMachO.Common
import JevMachO.RingBuffer.Index

/-! The ring buffer used from a single thread. It refines a queue of `static_size` values: the
window of the cells between the two raw indices is the queue. -/
namespace JevMachO
open Lib

/-- Operations on a queue. -/
inductive QueueOp (α : Type) where
  | push (v : α)
  | pop
  | peek
  | clear
  deriving DecidableEq

def QueueOp.isPush {α : Type} : QueueOp α → Bool
  | .push _ => true
  | _ => false

/-- What a caller sees after an operation. -/
structure Report (α : Type) where
  value : Option α
  size : ℕ
  remaining : ℕ
  empty : Bool
  full : Bool
  deriving DecidableEq

/-! ### The queue -/

namespace Queue
variable {α : Type}

/-- The queue after an operation, and the value it returns: `push` gives the value pushed. -/
def step (q : List α) : QueueOp α → List α × Option α
  | .push v => (q ++ [v], some v)
  | .pop => (q.tail, q.head?)
  | .peek => (q, q.head?)
  | .clear => ([], none)

def report (capacity : ℕ) (q : List α) (value : Option α) : Report α where
  value := value
  size := q.length
  remaining := capacity - q.length
  empty := q.length == 0
  full := q.length == capacity

def run (capacity : ℕ) : List α → List (QueueOp α) → List (Report α)
  | _, [] => []
  | q, op :: ops =>
    report capacity (step q op).1 (step q op).2 :: run capacity (step q op).1 ops

end Queue

/-! ### The buffer -/

/-- `RingBuffer`: neither producers nor consumers share it, so its indices are plain. -/
structure RingBuffer (α : Type) where
  mBuf : ℕ → α
  rdIdxRaw : UInt64
  wrIdxRaw : UInt64
  done : Bool

namespace RingBuffer
variable {α : Type} (g : Geometry)

/-- The buffer after construction, whatever the fresh cells hold. -/
def ctor (mBuf : ℕ → α) : RingBuffer α := ⟨mBuf, 0, 0, false⟩

def size (rb : RingBuffer α) : UInt64 :=
  let rd := rb.rdIdxRaw
  let wr := rb.wrIdxRaw
  wr - rd

def remaining (rb : RingBuffer α) : UInt64 := g.staticSize - rb.size

def full (rb : RingBuffer α) : Exec Bool := do
  let wr := rb.wrIdxRaw
  let rd := rb.rdIdxRaw
  assertThat (rd ≤ wr)
  return rd == g.rdFullVal wr

def empty (rb : RingBuffer α) : Exec Bool := do
  let rd := rb.rdIdxRaw
  let wr := rb.wrIdxRaw
  assertThat (rd ≤ wr)
  return rd == wr

/-- `emplace`, and the value its reference shows. -/
def emplace (rb : RingBuffer α) (v : α) : Exec (RingBuffer α × α) := do
  assertThat (!(← rb.full g))
  let mBuf := Function.update rb.mBuf (g.slot rb.wrIdxRaw) v
  return ({ rb with mBuf, wrIdxRaw := rb.wrIdxRaw + 1 }, mBuf (g.slot rb.wrIdxRaw))

/-- `peek`, as the value behind the pointer it returns. -/
def peek (rb : RingBuffer α) : Exec (Option α) := do
  if ← rb.empty then return none
  return some (rb.mBuf (g.slot rb.rdIdxRaw))

/-- `pop`; the move out of the cell leaves `movedFrom` of the value there. -/
def pop (movedFrom : α → α) (rb : RingBuffer α) : Exec (RingBuffer α × Option α) := do
  if ← rb.empty then return (rb, none)
  let v := rb.mBuf (g.slot rb.rdIdxRaw)
  let mBuf := Function.update rb.mBuf (g.slot rb.rdIdxRaw) (movedFrom v)
  return ({ rb with mBuf, rdIdxRaw := rb.rdIdxRaw + 1 }, some v)

/-- `clear`, with the value of all-zero bytes. -/
def clear (zeroed : α) (_ : RingBuffer α) : RingBuffer α := ⟨fun _ => zeroed, 0, 0, false⟩

variable (movedFrom : α → α) (zeroed : α)

def step (rb : RingBuffer α) : QueueOp α → Exec (RingBuffer α × Option α)
  | .push v => do
    let r ← rb.emplace g v
    return (r.1, some r.2)
  | .pop => rb.pop g movedFrom
  | .peek => do return (rb, ← rb.peek g)
  | .clear => .ok (rb.clear zeroed, none)

def report (rb : RingBuffer α) (value : Option α) : Exec (Report α) := do
  return {
    value
    size := rb.size.toNat
    remaining := (rb.remaining g).toNat
    empty := ← rb.empty
    full := ← rb.full g }

/-- A sequence of operations, with a report after each one. -/
def run : RingBuffer α → List (QueueOp α) → Exec (List (Report α))
  | _, [] => return []
  | rb, op :: ops => do
    let r ← rb.step g movedFrom zeroed op
    let seen ← report g r.1 r.2
    return seen :: (← run r.1 ops)

/-- Pushes happen only when `full()` is false. -/
def PushesWhenNotFull : RingBuffer α → List (QueueOp α) → Prop
  | _, [] => True
  | rb, op :: ops =>
    (op.isPush → rb.full g = .ok false) ∧
      match rb.step g movedFrom zeroed op with
      | .ok r => PushesWhenNotFull r.1 ops
      | .error _ => True

instance decidablePushesWhenNotFull :
    ∀ (rb : RingBuffer α) (ops : List (QueueOp α)),
      Decidable (PushesWhenNotFull g movedFrom zeroed rb ops)
  | _, [] => .isTrue trivial
  | rb, op :: ops =>
    have : Decidable (match rb.step g movedFrom zeroed op with
        | .ok r => PushesWhenNotFull g movedFrom zeroed r.1 ops
        | .error _ => True) :=
      match rb.step g movedFrom zeroed op with
      | .ok r => decidablePushesWhenNotFull r.1 ops
      | .error _ => .isTrue trivial
    inferInstanceAs (Decidable (_ ∧ _))

/-- Pushes since construction or the last `clear`, `n` before the operations. -/
def pushCount (n : ℕ) (ops : List (QueueOp α)) : ℕ :=
  ops.foldl (fun n op => match op with
    | .push _ => n + 1
    | .clear => 0
    | _ => n) n

/-- The 64-bit write index never wraps. -/
def PushesBounded (n : ℕ) (ops : List (QueueOp α)) : Prop :=
  ∀ seen, seen <+: ops → pushCount n seen < 2 ^ 64

theorem pushCount_le (n : ℕ) (ops : List (QueueOp α)) : pushCount n ops ≤ n + ops.length := by
  induction ops generalizing n with
  | nil => exact Nat.le_refl n
  | cons op ops ih =>
    have hstep := ih (pushCount n [op])
    have hone : pushCount n [op] ≤ n + 1 := by
      cases op <;> simp [pushCount]
    change pushCount (pushCount n [op]) ops ≤ _
    rw [List.length_cons]
    omega

/-- Short sequences cannot wrap the write index. -/
theorem pushesBounded_of_length {n : ℕ} {ops : List (QueueOp α)} (h : n + ops.length < 2 ^ 64) :
    PushesBounded n ops := by
  intro seen hseen
  have hle := hseen.length_le
  have hcount := pushCount_le n seen
  omega

/-! ### Refinement -/

/-- The buffer holds the queue, after `n` pushes since it was last empty from the start. -/
structure Holds (rb : RingBuffer α) (q : List α) (n : ℕ) : Prop where
  wr : rb.wrIdxRaw.toNat = n
  rd : rb.rdIdxRaw.toNat + q.length = n
  room : q.length < g.cellCount
  window : Ring.window g.cellCount rb.mBuf rb.rdIdxRaw.toNat n = q

variable {g movedFrom zeroed} {rb : RingBuffer α} {q : List α} {n : ℕ}

theorem holds_ctor (mBuf : ℕ → α) : Holds g (ctor mBuf) [] 0 :=
  ⟨rfl, rfl, g.cellCount_pos, Ring.window_self⟩

theorem holds_clear : Holds g (rb.clear zeroed) [] 0 :=
  ⟨rfl, rfl, g.cellCount_pos, Ring.window_self⟩

namespace Holds

theorem rd_le_wr (h : Holds g rb q n) : rb.rdIdxRaw ≤ rb.wrIdxRaw := by
  have hrd := h.rd
  have hwr := h.wr
  rw [UInt64.le_iff_toNat_le]
  omega

theorem toNat_size (h : Holds g rb q n) : rb.size.toNat = q.length := by
  have hrd := h.rd
  have hwr := h.wr
  unfold size
  rw [UInt64.toNat_sub_of_le _ _ h.rd_le_wr]
  omega

theorem toNat_remaining (h : Holds g rb q n) :
    (rb.remaining g).toNat = g.cellCount - 1 - q.length := by
  have hroom := h.room
  have hle : rb.size ≤ g.staticSize := by
    rw [UInt64.le_iff_toNat_le, h.toNat_size, g.toNat_staticSize]
    omega
  unfold remaining
  rw [UInt64.toNat_sub_of_le _ _ hle, g.toNat_staticSize, h.toNat_size]

theorem full_eq (h : Holds g rb q n) : rb.full g = .ok (q.length == g.cellCount - 1) := by
  have hrd := h.rd
  have hwr := h.wr
  have hroom := h.room
  have hle : rb.rdIdxRaw.toNat ≤ rb.wrIdxRaw.toNat := by omega
  have hiff := g.eq_rdFullVal_iff hle (by omega)
  have hlen : rb.wrIdxRaw.toNat - rb.rdIdxRaw.toNat = q.length := by omega
  rw [hlen] at hiff
  have hbeq : (rb.rdIdxRaw == g.rdFullVal rb.wrIdxRaw) = (q.length == g.cellCount - 1) := by
    rw [Bool.eq_iff_iff, beq_iff_eq, beq_iff_eq, hiff]
  simp only [full, h.rd_le_wr, decide_true, assertThat_true, ok_bind, pure_eq_ok, hbeq]

theorem empty_eq (h : Holds g rb q n) : rb.empty = .ok (q.length == 0) := by
  have hrd := h.rd
  have hwr := h.wr
  have hbeq : (rb.rdIdxRaw == rb.wrIdxRaw) = (q.length == 0) := by
    rw [Bool.eq_iff_iff, beq_iff_eq, beq_iff_eq, ← UInt64.toNat_inj]
    omega
  simp only [empty, h.rd_le_wr, decide_true, assertThat_true, ok_bind, pure_eq_ok, hbeq]

theorem report_eq (h : Holds g rb q n) (value : Option α) :
    rb.report g value = .ok (Queue.report (g.cellCount - 1) q value) := by
  simp only [report, h.empty_eq, h.full_eq, h.toNat_size, h.toNat_remaining, ok_bind, pure_eq_ok]
  rfl

theorem emplace (h : Holds g rb q n) (hfull : rb.full g = .ok false) (hn : n + 1 < 2 ^ 64)
    (v : α) : ∃ rb', rb.emplace g v = .ok (rb', v) ∧ Holds g rb' (q ++ [v]) (n + 1) := by
  have hrd := h.rd
  have hwr := h.wr
  have hroom := h.room
  have hlen : q.length ≠ g.cellCount - 1 := by
    have heq := Except.ok.inj (h.full_eq.symm.trans hfull)
    simpa using heq
  have hslot : g.slot rb.wrIdxRaw = n % g.cellCount := by rw [g.slot_eq, hwr]
  refine ⟨{ rb with mBuf := Ring.write g.cellCount rb.mBuf n v, wrIdxRaw := rb.wrIdxRaw + 1 },
    ?_, ?_⟩
  · simp only [RingBuffer.emplace, hfull, ok_bind, Bool.not_false, assertThat_true, pure_eq_ok,
      hslot, Function.update_self]
    rfl
  · refine ⟨?_, ?_, ?_, ?_⟩
    · rw [Geometry.toNat_add_one (by omega), hwr]
    · rw [List.length_append, List.length_singleton]
      dsimp only
      omega
    · rw [List.length_append, List.length_singleton]
      omega
    · dsimp only
      rw [Ring.window_push (by omega) (by omega), h.window]

theorem head?_eq (h : Holds g rb q n) (hq : q.length ≠ 0) :
    some (rb.mBuf (g.slot rb.rdIdxRaw)) = q.head? := by
  have hrd := h.rd
  rw [← h.window, Ring.window_cons (by omega), List.head?_cons, g.slot_eq]

theorem peek (h : Holds g rb q n) : rb.peek g = .ok q.head? := by
  simp only [RingBuffer.peek, h.empty_eq, ok_bind, pure_eq_ok, beq_iff_eq]
  split
  · rename_i h0
    rw [List.length_eq_zero_iff.mp h0]
    rfl
  · rename_i h0
    rw [h.head?_eq h0]

theorem pop (h : Holds g rb q n) :
    ∃ rb', rb.pop g movedFrom = .ok (rb', q.head?) ∧ Holds g rb' q.tail n := by
  have hrd := h.rd
  have hwr := h.wr
  have hroom := h.room
  have hlt := rb.wrIdxRaw.toNat_lt
  simp only [RingBuffer.pop, h.empty_eq, ok_bind, pure_eq_ok, beq_iff_eq]
  split
  · rename_i h0
    obtain rfl := List.length_eq_zero_iff.mp h0
    exact ⟨rb, rfl, h⟩
  · rename_i h0
    have hrd1 : (rb.rdIdxRaw + 1).toNat = rb.rdIdxRaw.toNat + 1 :=
      Geometry.toNat_add_one (by omega)
    refine ⟨{ rb with
      mBuf := Ring.write g.cellCount rb.mBuf rb.rdIdxRaw.toNat
        (movedFrom (rb.mBuf (g.slot rb.rdIdxRaw)))
      rdIdxRaw := rb.rdIdxRaw + 1 }, ?_, hwr, ?_, ?_, ?_⟩
    · rw [h.head?_eq h0, Ring.write, g.slot_eq]
    · rw [hrd1, List.length_tail]
      omega
    · rw [List.length_tail]
      omega
    · have hcons : Ring.window g.cellCount rb.mBuf rb.rdIdxRaw.toNat n =
          rb.mBuf (rb.rdIdxRaw.toNat % g.cellCount) ::
            Ring.window g.cellCount rb.mBuf (rb.rdIdxRaw.toNat + 1) n :=
        Ring.window_cons (by omega)
      have hmiss : Ring.window g.cellCount (Ring.write g.cellCount rb.mBuf rb.rdIdxRaw.toNat
          (movedFrom (rb.mBuf (g.slot rb.rdIdxRaw)))) (rb.rdIdxRaw.toNat + 1) n =
            Ring.window g.cellCount rb.mBuf (rb.rdIdxRaw.toNat + 1) n :=
        Ring.window_write_before (by omega) (by omega)
      rw [hrd1, ← h.window, hcons, List.tail_cons, hmiss]

end Holds

/-- One operation: the buffer reports what the queue does and holds the queue after it. -/
theorem step_refines (movedFrom : α → α) (zeroed : α) (h : Holds g rb q n) {op : QueueOp α}
    (hfull : op.isPush → rb.full g = .ok false) (hn : pushCount n [op] < 2 ^ 64) :
    ∃ rb', rb.step g movedFrom zeroed op = .ok (rb', (Queue.step q op).2) ∧
      Holds g rb' (Queue.step q op).1 (pushCount n [op]) := by
  cases op with
  | push v =>
    obtain ⟨rb', heq, h'⟩ := h.emplace (hfull rfl) hn v
    exact ⟨rb', by simp only [step, heq, ok_bind, pure_eq_ok]; rfl, h'⟩
  | pop => exact h.pop
  | peek => exact ⟨rb, by simp only [step, h.peek, ok_bind, pure_eq_ok]; rfl, h⟩
  | clear => exact ⟨rb.clear zeroed, rfl, holds_clear⟩

theorem run_refines (h : Holds g rb q n) {ops : List (QueueOp α)}
    (hfull : PushesWhenNotFull g movedFrom zeroed rb ops) (hn : PushesBounded n ops) :
    rb.run g movedFrom zeroed ops = .ok (Queue.run (g.cellCount - 1) q ops) := by
  induction ops generalizing rb q n with
  | nil => rfl
  | cons op ops ih =>
    have hop := hn [op] (by simp)
    obtain ⟨rb', heq, h'⟩ := step_refines movedFrom zeroed h hfull.1 hop
    have hrest := hfull.2
    rw [heq] at hrest
    have hn' : PushesBounded (pushCount n [op]) ops := by
      intro seen hseen
      exact hn (op :: seen) (List.cons_prefix_cons.mpr ⟨rfl, hseen⟩)
    simp only [run, heq, ok_bind, h'.report_eq, ih h' hrest hn', pure_eq_ok]
    rfl

theorem refines_queue (g : Geometry) (movedFrom : α → α) (zeroed : α) (mBuf : ℕ → α)
    (ops : List (QueueOp α)) (hfull : PushesWhenNotFull g movedFrom zeroed (ctor mBuf) ops)
    (hn : PushesBounded 0 ops) :
    (ctor mBuf).run g movedFrom zeroed ops = .ok (Queue.run g.staticSize.toNat [] ops) := by
  rw [g.toNat_staticSize]
  exact run_refines (holds_ctor mBuf) hfull hn

/-- Two values through a buffer of two cells, so that the second wraps. -/
def twoRounds : List (QueueOp ℕ) := [.push 7, .peek, .pop, .push 8, .pop, .pop, .clear]

theorem refines_queue_twoRounds :
    (ctor fun _ => 0).run ⟨2, 1, rfl⟩ id 0 twoRounds =
      .ok (Queue.run (Geometry.staticSize ⟨2, 1, rfl⟩).toNat [] twoRounds) :=
  refines_queue ⟨2, 1, rfl⟩ id 0 (fun _ => 0) twoRounds
    (by decide) (pushesBounded_of_length (by decide))

end RingBuffer
end JevMachO

import JevMachO.Common
import JevMachO.Lib.Transition
import JevMachO.RingBuffer.Index
import Mathlib.Data.Fintype.Basic

/-! Several producers on one ring buffer. A producer writes its element before it wins the
compare-exchange on the write index, so a slow producer can overwrite an element that another
one has pushed. Every load, element access, index update and compare-exchange is one step. -/
namespace JevMachO
open Lib

namespace MultiProd

/-- Where a producer is inside `emplace`. -/
inductive ProdPc (α : Type) where
  | idle
  | loading (v : α)
  | writing (v : α) (wrRaw : UInt64)
  | exchanging (v : α) (wrRaw : UInt64)
  | assertFailed
  deriving DecidableEq

/-- Where a consumer is inside `pop`: `advancing` and `taking` for a single consumer, `reading`
and `exchanging` for several. -/
inductive ConsPc (α : Type) where
  | idle
  | loading
  | advancing
  | taking (rdRaw : UInt64)
  | reading (rdRaw : UInt64)
  | exchanging (rdRaw : UInt64) (res : α)
  | assertFailed
  deriving DecidableEq

/-- The buffer and two histories: the values whose `emplace` completed, in the order of their
compare-exchanges, and the values pops returned. -/
structure Shared (α : Type) where
  mBuf : ℕ → α
  rdIdxRaw : UInt64
  wrIdxRaw : UInt64
  completed : List α
  popped : List α

structure State (ι κ α : Type) extends Shared α where
  prod : ι → ProdPc α
  cons : κ → ConsPc α

inductive Action (ι κ α : Type) where
  | callEmplace (p : ι) (v : α)
  | producer (p : ι)
  | callPop (c : κ)
  | consumer (c : κ)
  deriving DecidableEq

variable {ι κ α : Type}

section step
variable [DecidableEq ι] [DecidableEq κ]

namespace State

def setProd (s : State ι κ α) (p : ι) (pc : ProdPc α) : State ι κ α :=
  { s with prod := Function.update s.prod p pc }

def setCons (s : State ι κ α) (c : κ) (pc : ConsPc α) : State ι κ α :=
  { s with cons := Function.update s.cons c pc }

end State

variable (g : Geometry)

/-- One step of `emplace`. -/
def producerStep (s : State ι κ α) (p : ι) : Option (State ι κ α) :=
  match s.prod p with
  | .idle => none
  | .loading v =>
    if ¬s.rdIdxRaw ≤ s.wrIdxRaw then some (s.setProd p .assertFailed)
    -- full, try again
    else if s.rdIdxRaw = g.rdFullVal s.wrIdxRaw then some s
    else some (s.setProd p (.writing v s.wrIdxRaw))
  | .writing v wrRaw =>
    some { s.setProd p (.exchanging v wrRaw) with
      mBuf := Function.update s.mBuf (g.slot wrRaw) v }
  | .exchanging v wrRaw =>
    if s.wrIdxRaw = wrRaw then
      some { s.setProd p .idle with wrIdxRaw := wrRaw + 1, completed := s.completed ++ [v] }
    else some (s.setProd p (.loading v))
  | .assertFailed => none

/-- One step of `pop`, for a single consumer or for several. -/
def consumerStep (multiCons : Bool) (s : State ι κ α) (c : κ) : Option (State ι κ α) :=
  match s.cons c with
  | .idle => none
  | .loading =>
    if ¬s.rdIdxRaw ≤ s.wrIdxRaw then some (s.setCons c .assertFailed)
    else if s.rdIdxRaw = s.wrIdxRaw then some (s.setCons c .idle)
    else if multiCons then some (s.setCons c (.reading s.rdIdxRaw))
    else some (s.setCons c .advancing)
  | .advancing =>
    some { s.setCons c (.taking s.rdIdxRaw) with rdIdxRaw := s.rdIdxRaw + 1 }
  | .taking rdRaw =>
    some { s.setCons c .idle with popped := s.popped ++ [s.mBuf (g.slot rdRaw)] }
  | .reading rdRaw => some (s.setCons c (.exchanging rdRaw (s.mBuf (g.slot rdRaw))))
  | .exchanging rdRaw res =>
    if s.rdIdxRaw = rdRaw then
      some { s.setCons c .idle with rdIdxRaw := rdRaw + 1, popped := s.popped ++ [res] }
    else some (s.setCons c .loading)
  | .assertFailed => none

def step (multiCons : Bool) (s : State ι κ α) : Action ι κ α → Option (State ι κ α)
  | .callEmplace p v =>
    match s.prod p with
    | .idle => some (s.setProd p (.loading v))
    | _ => none
  | .producer p => producerStep g s p
  | .callPop c =>
    match s.cons c with
    | .idle => some (s.setCons c .loading)
    | _ => none
  | .consumer c => consumerStep g multiCons s c

end step

variable (g : Geometry)

/-- An empty buffer and no thread in an operation. -/
def init (mBuf : ℕ → α) : State ι κ α where
  mBuf := mBuf
  rdIdxRaw := 0
  wrIdxRaw := 0
  completed := []
  popped := []
  prod _ := .idle
  cons _ := .idle

/-- The index a single consumer has moved past and not read yet. -/
def ConsPc.taken : ConsPc α → Option UInt64
  | .taking rdRaw => some rdRaw
  | _ => none

/-- The values in the slots between the two indices. -/
def State.live (s : State ι κ α) : List α :=
  Ring.window g.cellCount s.mBuf s.rdIdxRaw.toNat s.wrIdxRaw.toNat

/-- No `emplace` and no `pop` is in progress. -/
def State.Quiescent (s : State ι κ α) : Prop := (∀ p, s.prod p = .idle) ∧ ∀ c, s.cons c = .idle

/-- Popped and live values are the values whose `emplace` completed, each as often. -/
def State.Conserved (s : State ι κ α) : Prop := (s.popped ++ s.live g).Perm s.completed

instance [Fintype ι] [Fintype κ] [DecidableEq α] (s : State ι κ α) : Decidable s.Quiescent :=
  inferInstanceAs (Decidable (_ ∧ _))

instance [DecidableEq α] (s : State ι κ α) : Decidable (s.Conserved g) :=
  inferInstanceAs (Decidable (List.Perm _ _))

/-- Writing `v` at a raw index changes no element that is pushed and not yet popped, nor the one
a single consumer has moved past and not read yet. -/
def WriteKeeps (s : State ι κ α) (v : α) (wrRaw : UInt64) : Prop :=
  (∀ i < s.wrIdxRaw.toNat, s.rdIdxRaw.toNat ≤ i → i % g.cellCount = g.slot wrRaw →
    s.mBuf (g.slot wrRaw) = v) ∧
  ∀ c, ∀ rdRaw ∈ (s.cons c).taken, g.slot rdRaw = g.slot wrRaw → s.mBuf (g.slot wrRaw) = v

/-- A producer's write keeps all elements not yet popped, and a compare-exchange that will succeed
finds the producer's own value in its slot. -/
def StepOk (s : State ι κ α) : Action ι κ α → Prop
  | .producer p =>
    match s.prod p with
    | .writing v wrRaw => WriteKeeps g s v wrRaw
    | .exchanging v wrRaw => s.wrIdxRaw = wrRaw → s.mBuf (g.slot wrRaw) = v
    | _ => True
  | _ => True

instance [Fintype κ] [DecidableEq α] (s : State ι κ α) (v : α) (wrRaw : UInt64) :
    Decidable (WriteKeeps g s v wrRaw) :=
  -- the at most one index taken is looked at, not every word
  have (c : κ) : Decidable (∀ rdRaw ∈ (s.cons c).taken,
      g.slot rdRaw = g.slot wrRaw → s.mBuf (g.slot wrRaw) = v) :=
    Option.decidableForallMem _
  inferInstanceAs (Decidable (_ ∧ _))

instance [Fintype κ] [DecidableEq α] (s : State ι κ α) :
    ∀ a : Action ι κ α, Decidable (StepOk g s a)
  | .producer p =>
    match h : s.prod p with
    | .writing v wrRaw => decidable_of_iff (WriteKeeps g s v wrRaw) (by simp [StepOk, h])
    | .exchanging v wrRaw =>
      decidable_of_iff (s.wrIdxRaw = wrRaw → s.mBuf (g.slot wrRaw) = v) (by simp [StepOk, h])
    | .idle | .loading _ | .assertFailed => .isTrue (by simp [StepOk, h])
  | .callEmplace _ _ | .callPop _ | .consumer _ => .isTrue trivial

/-! ### The invariant -/

/-- What a producer knows of the index it loaded: nobody has filled the buffer up to it. -/
def ProdOk (m : Shared α) : ProdPc α → Prop
  | .writing _ wrRaw => wrRaw.toNat ≤ m.wrIdxRaw.toNat ∧
      (wrRaw = m.wrIdxRaw → m.wrIdxRaw.toNat + 1 < m.rdIdxRaw.toNat + g.cellCount)
  | .exchanging _ wrRaw => wrRaw.toNat ≤ m.wrIdxRaw.toNat ∧
      (wrRaw = m.wrIdxRaw → m.wrIdxRaw.toNat + 1 < m.rdIdxRaw.toNat + g.cellCount)
  | _ => True

/-- What a consumer knows: while the read index is the one it loaded, its element is unread. -/
def ConsOk (multiCons : Bool) (m : Shared α) : ConsPc α → Prop
  | .advancing => multiCons = false ∧ m.rdIdxRaw.toNat < m.wrIdxRaw.toNat
  | .taking rdRaw => multiCons = false ∧ rdRaw.toNat + 1 = m.rdIdxRaw.toNat ∧
      m.completed[rdRaw.toNat]? = some (m.mBuf (g.slot rdRaw)) ∧
      m.popped = m.completed.take rdRaw.toNat
  | .reading rdRaw => multiCons = true ∧ rdRaw.toNat ≤ m.rdIdxRaw.toNat ∧
      (rdRaw = m.rdIdxRaw → m.rdIdxRaw.toNat < m.wrIdxRaw.toNat)
  | .exchanging rdRaw res => multiCons = true ∧ rdRaw.toNat ≤ m.rdIdxRaw.toNat ∧
      (rdRaw = m.rdIdxRaw → m.rdIdxRaw.toNat < m.wrIdxRaw.toNat ∧
        m.completed[rdRaw.toNat]? = some res)
  | _ => True

/-- The indices count what was pushed and popped, and the live cells hold what was pushed. -/
structure BufferOk (m : Shared α) : Prop where
  wr_eq : m.wrIdxRaw.toNat = m.completed.length
  rd_le : m.rdIdxRaw.toNat ≤ m.wrIdxRaw.toNat
  room : m.wrIdxRaw.toNat < m.rdIdxRaw.toNat + g.cellCount
  live : ∀ i, m.rdIdxRaw.toNat ≤ i → i < m.wrIdxRaw.toNat →
    m.completed[i]? = some (m.mBuf (i % g.cellCount))

structure Inv (multiCons : Bool) (s : State ι κ α) : Prop extends BufferOk g s.toShared where
  producers : ∀ p, ProdOk g s.toShared (s.prod p)
  consumers : ∀ c, ConsOk g multiCons s.toShared (s.cons c)
  popped : (∀ c, (s.cons c).taken = none) → s.popped = s.completed.take s.rdIdxRaw.toNat

variable {g} {multiCons : Bool} {s s' : State ι κ α} {p : ι} {c : κ} {v : α}

theorem inv_init (mBuf : ℕ → α) : Inv g multiCons (init mBuf : State ι κ α) where
  wr_eq := rfl
  rd_le := Nat.le_refl 0
  room := by
    have hpos := g.cellCount_pos
    simpa [init] using hpos
  live i _ hi := absurd hi (Nat.not_lt_zero i)
  producers _ := trivial
  consumers _ := trivial
  popped _ := rfl

namespace Inv

theorem quiescent (h : Inv g multiCons s) (hq : s.Quiescent) : s.Conserved g := by
  have hpop := h.popped fun c => by rw [hq.2 c]; rfl
  have hlive : s.live g = s.completed.drop s.rdIdxRaw.toNat :=
    Ring.window_eq_drop h.wr_eq h.live
  unfold State.Conserved
  rw [hpop, hlive, List.take_append_drop]

end Inv

/-- A step of one producer keeps the invariant if it keeps what every thread knows. -/
theorem Inv.ofProd [DecidableEq ι] (h : Inv g multiCons s) {m : Shared α} {pc : ProdPc α}
    (hbuf : BufferOk g m) (hpc : ProdOk g m pc)
    (hprod : ∀ q ≠ p, ProdOk g s.toShared (s.prod q) → ProdOk g m (s.prod q))
    (hcons : ∀ c, ConsOk g multiCons s.toShared (s.cons c) → ConsOk g multiCons m (s.cons c))
    (hpop : s.popped = s.completed.take s.rdIdxRaw.toNat →
      m.popped = m.completed.take m.rdIdxRaw.toNat) :
    Inv g multiCons ({ m with prod := Function.update s.prod p pc, cons := s.cons } :
      State ι κ α) where
  toBufferOk := hbuf
  producers q := by
    by_cases hq : q = p
    · subst hq
      simpa using hpc
    · simpa [hq] using hprod q hq (h.producers q)
  consumers c := hcons c (h.consumers c)
  popped hnone := hpop (h.popped hnone)

/-- A step of one consumer, likewise. -/
theorem Inv.ofCons [DecidableEq κ] (h : Inv g multiCons s) {m : Shared α} {pc : ConsPc α}
    (hbuf : BufferOk g m) (hpc : ConsOk g multiCons m pc)
    (hprod : ∀ q, ProdOk g s.toShared (s.prod q) → ProdOk g m (s.prod q))
    (hcons : ∀ d ≠ c, ConsOk g multiCons s.toShared (s.cons d) → ConsOk g multiCons m (s.cons d))
    (hpop : pc.taken = none → (∀ d ≠ c, (s.cons d).taken = none) →
      m.popped = m.completed.take m.rdIdxRaw.toNat) :
    Inv g multiCons ({ m with prod := s.prod, cons := Function.update s.cons c pc } :
      State ι κ α) where
  toBufferOk := hbuf
  producers q := hprod q (h.producers q)
  consumers d := by
    by_cases hd : d = c
    · subst hd
      simpa using hpc
    · simpa [hd] using hcons d hd (h.consumers d)
  popped hnone := by
    refine hpop ?_ fun d hd => ?_
    · simpa using hnone c
    · simpa [hd] using hnone d

/-! ### Memory steps -/

namespace BufferOk
variable {m : Shared α} {wrRaw rdRaw : UInt64} {res : α}

theorem write (h : BufferOk g m) (hkeep : ∀ i < m.wrIdxRaw.toNat, m.rdIdxRaw.toNat ≤ i →
    i % g.cellCount = g.slot wrRaw → m.mBuf (g.slot wrRaw) = v) :
    BufferOk g { m with mBuf := Function.update m.mBuf (g.slot wrRaw) v } := by
  refine ⟨h.wr_eq, h.rd_le, h.room, fun i hlo hhi => ?_⟩
  dsimp only at hlo hhi ⊢
  rw [h.live i hlo hhi]
  by_cases hi : i % g.cellCount = g.slot wrRaw
  · rw [hi, Function.update_self, hkeep i hhi hlo hi]
  · rw [Function.update_of_ne hi]

theorem commit (h : BufferOk g m) (hroom : m.wrIdxRaw.toNat + 1 < m.rdIdxRaw.toNat + g.cellCount)
    (hval : m.mBuf (g.slot m.wrIdxRaw) = v) (hlen : m.completed.length + 1 < 2 ^ 64) :
    BufferOk g { m with wrIdxRaw := m.wrIdxRaw + 1, completed := m.completed ++ [v] } := by
  have hwr := h.wr_eq
  have hadd : (m.wrIdxRaw + 1).toNat = m.wrIdxRaw.toNat + 1 :=
    Geometry.toNat_add_one (by omega)
  have hrd := h.rd_le
  refine ⟨?_, ?_, ?_, ?_⟩
  · rw [hadd, List.length_append, List.length_singleton, hwr]
  · rw [hadd]
    exact hrd.trans (Nat.le_succ _)
  · rw [hadd]
    exact hroom
  · intro i hlo hhi
    rw [hadd] at hhi
    by_cases hi : i < m.wrIdxRaw.toNat
    · rw [List.getElem?_append_left (by omega)]
      exact h.live i hlo hi
    · obtain rfl : i = m.wrIdxRaw.toNat := by omega
      rw [← g.slot_eq, hval, hwr, List.getElem?_concat_length]

theorem advance (h : BufferOk g m) (hlt : m.rdIdxRaw.toNat < m.wrIdxRaw.toNat)
    (popped : List α) :
    BufferOk g { m with rdIdxRaw := m.rdIdxRaw + 1, popped := popped } := by
  have hadd := Geometry.toNat_add_one (Geometry.add_one_lt hlt)
  have hroom := h.room
  refine ⟨h.wr_eq, ?_, ?_, ?_⟩
  · rw [hadd]
    exact hlt
  · rw [hadd]
    dsimp only
    omega
  · intro i hlo hhi
    rw [hadd] at hlo
    exact h.live i (by omega) hhi

/-- The element at the read index, when there is one. -/
theorem live_rd (h : BufferOk g m) (hlt : m.rdIdxRaw.toNat < m.wrIdxRaw.toNat) :
    m.completed[m.rdIdxRaw.toNat]? = some (m.mBuf (g.slot m.rdIdxRaw)) := by
  rw [g.slot_eq]
  exact h.live _ (Nat.le_refl _) hlt

end BufferOk

/-! ### Steps -/

/-- Pushing one more element keeps what the other threads know. -/
theorem prodOk_commit {m : Shared α} {pc : ProdPc α} (hadd : m.wrIdxRaw.toNat + 1 < 2 ^ 64)
    (h : ProdOk g m pc) (v : α) :
    ProdOk g { m with wrIdxRaw := m.wrIdxRaw + 1, completed := m.completed ++ [v] } pc := by
  cases pc with
  | writing v w =>
    obtain ⟨hle, hne⟩ := Geometry.stale hadd h.1
    exact ⟨hle, fun he => absurd he hne⟩
  | exchanging v w =>
    obtain ⟨hle, hne⟩ := Geometry.stale hadd h.1
    exact ⟨hle, fun he => absurd he hne⟩
  | _ => trivial

theorem consOk_commit {m : Shared α} {pc : ConsPc α} (hbuf : BufferOk g m)
    (hadd : m.wrIdxRaw.toNat + 1 < 2 ^ 64) (h : ConsOk g multiCons m pc) (v : α) :
    ConsOk g multiCons
      { m with wrIdxRaw := m.wrIdxRaw + 1, completed := m.completed ++ [v] } pc := by
  have hto := Geometry.toNat_add_one hadd
  have hwr := hbuf.wr_eq
  have hrd := hbuf.rd_le
  cases pc with
  | advancing =>
    refine ⟨h.1, ?_⟩
    rw [hto]
    exact h.2.trans (Nat.lt_succ_self _)
  | taking rdRaw =>
    obtain ⟨hm, hrd1, hval, hpop⟩ := h
    have hlt : rdRaw.toNat < m.completed.length := by omega
    refine ⟨hm, hrd1, ?_, ?_⟩
    · rw [List.getElem?_append_left hlt]
      exact hval
    · change m.popped = (m.completed ++ [v]).take rdRaw.toNat
      rw [List.take_append_of_le_length hlt.le]
      exact hpop
  | reading rdRaw =>
    obtain ⟨hm, hle, hlt⟩ := h
    refine ⟨hm, hle, fun he => ?_⟩
    rw [hto]
    exact (hlt he).trans (Nat.lt_succ_self _)
  | exchanging rdRaw res =>
    obtain ⟨hm, hle, hlt⟩ := h
    refine ⟨hm, hle, fun he => ?_⟩
    obtain ⟨hlt', hval⟩ := hlt he
    have hlen : rdRaw.toNat < m.completed.length := by omega
    constructor
    · rw [hto]
      exact hlt'.trans (Nat.lt_succ_self _)
    · rw [List.getElem?_append_left hlen]
      exact hval
  | _ => trivial

theorem prodOk_advance {m : Shared α} {pc : ProdPc α} (hadd : m.rdIdxRaw.toNat + 1 < 2 ^ 64)
    (h : ProdOk g m pc) (popped : List α) :
    ProdOk g { m with rdIdxRaw := m.rdIdxRaw + 1, popped := popped } pc := by
  have hto := Geometry.toNat_add_one hadd
  cases pc with
  | writing v w =>
    refine ⟨h.1, fun he => ?_⟩
    have hroom := h.2 he
    rw [hto]
    dsimp only
    omega
  | exchanging v w =>
    refine ⟨h.1, fun he => ?_⟩
    have hroom := h.2 he
    rw [hto]
    dsimp only
    omega
  | _ => trivial

/-- A write that keeps the elements claimed by consumers keeps what these know. -/
theorem consOk_write {m : Shared α} {pc : ConsPc α} {wrRaw : UInt64}
    (hkeep : ∀ rdRaw ∈ pc.taken, g.slot rdRaw = g.slot wrRaw → m.mBuf (g.slot wrRaw) = v)
    (h : ConsOk g multiCons m pc) :
    ConsOk g multiCons { m with mBuf := Function.update m.mBuf (g.slot wrRaw) v } pc := by
  cases pc with
  | taking rdRaw =>
    obtain ⟨hm, hrd, hval, hpop⟩ := h
    refine ⟨hm, hrd, ?_, hpop⟩
    dsimp only
    by_cases hslot : g.slot rdRaw = g.slot wrRaw
    · rw [hslot, Function.update_self, ← hkeep rdRaw rfl hslot, ← hslot]
      exact hval
    · rw [Function.update_of_ne hslot]
      exact hval
  | _ => exact h

/-- Several consumers: after one of them has popped, the others' indices are stale. -/
theorem consOk_advance {m : Shared α} {pc : ConsPc α} (hadd : m.rdIdxRaw.toNat + 1 < 2 ^ 64)
    (h : ConsOk g true m pc) (popped : List α) :
    ConsOk g true { m with rdIdxRaw := m.rdIdxRaw + 1, popped := popped } pc := by
  cases pc with
  | reading rdRaw =>
    obtain ⟨hle, hne⟩ := Geometry.stale hadd h.2.1
    exact ⟨rfl, hle, fun he => absurd he hne⟩
  | exchanging rdRaw res =>
    obtain ⟨hle, hne⟩ := Geometry.stale hadd h.2.1
    exact ⟨rfl, hle, fun he => absurd he hne⟩
  | advancing => exact absurd h.1 (by decide)
  | taking rdRaw => exact absurd h.1 (by decide)
  | _ => trivial

/-- A thread that moves without touching the buffer. -/
theorem Inv.setProd [DecidableEq ι] (h : Inv g multiCons s) {pc : ProdPc α}
    (hpc : ProdOk g s.toShared pc) :
    Inv g multiCons (s.setProd p pc) :=
  h.ofProd h.toBufferOk hpc (fun _ _ => id) (fun _ => id) id

theorem Inv.setCons [DecidableEq κ] (h : Inv g multiCons s) {pc : ConsPc α}
    (hpc : ConsOk g multiCons s.toShared pc) (hold : (s.cons c).taken = none) :
    Inv g multiCons (s.setCons c pc) :=
  h.ofCons h.toBufferOk hpc (fun _ => id) (fun _ _ => id) fun _ hrest => h.popped fun d => by
    by_cases hd : d = c
    · rw [hd, hold]
    · exact hrest d hd

theorem Inv.producerStep [DecidableEq ι] (h : Inv g multiCons s) (hok : StepOk g s (.producer p))
    (hs : producerStep g s p = some s') (hlen : s'.completed.length < 2 ^ 64) :
    Inv g multiCons s' := by
  have hpc := h.producers p
  unfold MultiProd.producerStep at hs
  unfold StepOk at hok
  cases hprod : s.prod p with
  | idle => simp [hprod] at hs
  | assertFailed => simp [hprod] at hs
  | loading v =>
    simp only [hprod] at hs
    split_ifs at hs with hle hfull <;> obtain rfl := Option.some.inj hs
    · exact h
    · exact h.setProd ⟨Nat.le_refl _, fun _ => g.room_of_ne_rdFullVal h.rd_le h.room hfull⟩
    · exact h.setProd trivial
  | writing v wrRaw =>
    simp only [hprod] at hs hok
    rw [hprod] at hpc
    obtain rfl := Option.some.inj hs
    exact h.ofProd (h.toBufferOk.write hok.1) hpc (fun _ _ => id)
      (fun c hc => consOk_write (hok.2 c) hc) id
  | exchanging v wrRaw =>
    simp only [hprod] at hs hok
    rw [hprod] at hpc
    split_ifs at hs with hwr <;> obtain rfl := Option.some.inj hs
    · subst hwr
      have hadd : s.completed.length + 1 < 2 ^ 64 := by simpa using hlen
      have hadd' : s.wrIdxRaw.toNat + 1 < 2 ^ 64 := by rw [h.wr_eq]; exact hadd
      have hle : s.rdIdxRaw.toNat ≤ s.completed.length := h.wr_eq ▸ h.rd_le
      refine h.ofProd (h.toBufferOk.commit (hpc.2 rfl) (hok rfl) hadd) trivial
        (fun _ _ hq => prodOk_commit hadd' hq v)
        (fun _ hc => consOk_commit h.toBufferOk hadd' hc v) fun hpop => ?_
      change s.popped = (s.completed ++ [v]).take s.rdIdxRaw.toNat
      rw [List.take_append_of_le_length hle]
      exact hpop
    · exact h.setProd trivial

/-- Several consumers read an element before they claim it. -/
theorem Inv.popped_of_multiCons (h : Inv g true s) :
    s.popped = s.completed.take s.rdIdxRaw.toNat :=
  h.popped fun d => by
    have hd := h.consumers d
    cases hcons : s.cons d with
    | taking rdRaw =>
      rw [hcons] at hd
      exact absurd hd.1 (by decide)
    | _ => rfl

theorem Inv.popped_of_subsingleton [Subsingleton κ] (h : Inv g multiCons s)
    (hnone : (s.cons c).taken = none) : s.popped = s.completed.take s.rdIdxRaw.toNat :=
  h.popped fun d => by rw [Subsingleton.elim d c, hnone]

theorem Inv.consumerStep [DecidableEq κ] (hκ : multiCons = true ∨ Subsingleton κ)
    (h : Inv g multiCons s) (hs : consumerStep g multiCons s c = some s') :
    Inv g multiCons s' := by
  have hpc := h.consumers c
  unfold MultiProd.consumerStep at hs
  cases hcons : s.cons c with
  | idle => simp [hcons] at hs
  | assertFailed => simp [hcons] at hs
  | loading =>
    have htaken : (s.cons c).taken = none := by rw [hcons]; rfl
    have hrd := h.rd_le
    simp only [hcons] at hs
    split_ifs at hs with hle hempty hmulti <;> obtain rfl := Option.some.inj hs
    · exact h.setCons trivial htaken
    · refine h.setCons ⟨hmulti, Nat.le_refl _, fun _ => ?_⟩ htaken
      have hne := mt UInt64.toNat_inj.mp hempty
      omega
    · refine h.setCons ⟨by simpa using hmulti, ?_⟩ htaken
      have hne := mt UInt64.toNat_inj.mp hempty
      omega
    · exact h.setCons trivial htaken
  | advancing =>
    simp only [hcons] at hs
    rw [hcons] at hpc
    obtain rfl := Option.some.inj hs
    obtain ⟨hm, hlt⟩ := hpc
    have hsub : Subsingleton κ := hκ.resolve_left (by rw [hm]; decide)
    have hadd := Geometry.add_one_lt hlt
    have hpop := h.popped_of_subsingleton (c := c) (by rw [hcons]; rfl)
    refine h.ofCons (h.toBufferOk.advance hlt s.popped)
      ⟨hm, (Geometry.toNat_add_one hadd).symm, h.toBufferOk.live_rd hlt, hpop⟩
      (fun _ hq => prodOk_advance hadd hq s.popped)
      (fun d hd => absurd (Subsingleton.elim d c) hd) fun hnone => ?_
    simp [ConsPc.taken] at hnone
  | taking rdRaw =>
    simp only [hcons] at hs
    rw [hcons] at hpc
    obtain rfl := Option.some.inj hs
    obtain ⟨hm, hrd, hval, hpop⟩ := hpc
    have hsub : Subsingleton κ := hκ.resolve_left (by rw [hm]; decide)
    refine h.ofCons { h.toBufferOk with } trivial (fun _ => id)
      (fun d hd => absurd (Subsingleton.elim d c) hd) fun _ _ => ?_
    change s.popped ++ [s.mBuf (g.slot rdRaw)] = s.completed.take s.rdIdxRaw.toNat
    rw [← hrd, List.take_add_one, hval, hpop]
    rfl
  | reading rdRaw =>
    have htaken : (s.cons c).taken = none := by rw [hcons]; rfl
    simp only [hcons] at hs
    rw [hcons] at hpc
    obtain rfl := Option.some.inj hs
    obtain ⟨hm, hle, hlt⟩ := hpc
    refine h.setCons ⟨hm, hle, fun he => ⟨hlt he, ?_⟩⟩ htaken
    rw [he]
    exact h.toBufferOk.live_rd (hlt he)
  | exchanging rdRaw res =>
    have htaken : (s.cons c).taken = none := by rw [hcons]; rfl
    simp only [hcons] at hs
    rw [hcons] at hpc
    obtain ⟨rfl, hle, hlt⟩ := hpc
    split_ifs at hs with hrd <;> obtain rfl := Option.some.inj hs
    · subst hrd
      obtain ⟨hlt, hval⟩ := hlt rfl
      have hadd := Geometry.add_one_lt hlt
      refine h.ofCons (h.toBufferOk.advance hlt _) trivial
        (fun _ hq => prodOk_advance hadd hq _) (fun _ _ hd => consOk_advance hadd hd _)
        fun _ _ => ?_
      change s.popped ++ [res] = s.completed.take (s.rdIdxRaw + 1).toNat
      rw [Geometry.toNat_add_one hadd, List.take_add_one, hval, h.popped_of_multiCons]
      rfl
    · exact h.setCons trivial htaken

variable [DecidableEq ι] [DecidableEq κ]

theorem Inv.step (hκ : multiCons = true ∨ Subsingleton κ) (h : Inv g multiCons s)
    {a : Action ι κ α} (hok : StepOk g s a) (hs : step g multiCons s a = some s')
    (hlen : s'.completed.length < 2 ^ 64) : Inv g multiCons s' := by
  cases a with
  | callEmplace p v =>
    simp only [MultiProd.step] at hs
    split at hs
    · obtain rfl := Option.some.inj hs
      exact h.setProd trivial
    · simp at hs
  | producer p => exact h.producerStep hok hs hlen
  | callPop c =>
    simp only [MultiProd.step] at hs
    split at hs
    · rename_i hidle
      obtain rfl := Option.some.inj hs
      exact h.setCons trivial (by rw [hidle]; rfl)
    · simp at hs
  | consumer c => exact h.consumerStep hκ hs

/-- Completed pushes stay completed. -/
theorem completed_grows {a : Action ι κ α} (hs : step g multiCons s a = some s') :
    s.completed <+: s'.completed := by
  cases a with
  | callEmplace p v =>
    simp only [step] at hs
    split at hs
    · exact Option.some.inj hs ▸ List.prefix_refl _
    · simp at hs
  | callPop c =>
    simp only [step] at hs
    split at hs
    · exact Option.some.inj hs ▸ List.prefix_refl _
    · simp at hs
  | producer p =>
    unfold step producerStep at hs
    cases hprod : s.prod p with
    | idle => simp [hprod] at hs
    | assertFailed => simp [hprod] at hs
    | loading v =>
      simp only [hprod] at hs
      split_ifs at hs <;> exact Option.some.inj hs ▸ List.prefix_refl _
    | writing v wrRaw =>
      simp only [hprod] at hs
      exact Option.some.inj hs ▸ List.prefix_refl _
    | exchanging v wrRaw =>
      simp only [hprod] at hs
      split_ifs at hs
      · exact Option.some.inj hs ▸ List.prefix_append _ _
      · exact Option.some.inj hs ▸ List.prefix_refl _
  | consumer c =>
    unfold step consumerStep at hs
    cases hcons : s.cons c with
    | idle => simp [hcons] at hs
    | assertFailed => simp [hcons] at hs
    | _ =>
      simp only [hcons] at hs
      try split_ifs at hs
      all_goals exact Option.some.inj hs ▸ List.prefix_refl _

theorem conserved_of_runsWithin (g : Geometry) (hκ : multiCons = true ∨ Subsingleton κ)
    (mBuf : ℕ → α) {as : List (Action ι κ α)} {s : State ι κ α}
    (hok : RunsWithin (step g multiCons) (StepOk g) (init mBuf) as)
    (hrun : run (step g multiCons) (init mBuf) as = some s)
    (hlen : s.completed.length < 2 ^ 64) (hq : s.Quiescent) : s.Conserved g := by
  have hinv : s.completed.length < 2 ^ 64 → Inv g multiCons s := by
    refine hok.invariant (P := fun s => s.completed.length < 2 ^ 64 → Inv g multiCons s) ?_
      (fun _ => inv_init mBuf) hrun
    intro s a s' hs hstep hs' hlen'
    exact (hs ((completed_grows hs').length_le.trans_lt hlen')).step hκ hstep hs' hlen'
  exact (hinv hlen).quiescent hq

def pushed (p : ι) (v : α) : List (Action ι κ α) :=
  [.callEmplace p v, .producer p, .producer p, .producer p]

/-- Two producers load the empty buffer's index and both write there. The second, whose value is
left, wins; the first loads the next index. Two consumers read the element, one of them pops it
and the other one the next. Three more pushes follow, the last one into the first slot again. -/
def contended : List (Action Bool Bool ℕ) :=
  [.callEmplace false 1, .callEmplace true 2, .producer false, .producer true,
    .producer false, .producer true, .producer true, .producer false, .producer false,
    .callPop false, .callPop true, .consumer false, .consumer true, .consumer false,
    .consumer true, .producer false, .consumer true, .producer false, .consumer false,
    .consumer false, .consumer false, .consumer false] ++
  pushed true 3 ++ pushed false 4 ++ pushed true 5

theorem conserved_contended : ∃ s : State Bool Bool ℕ,
    run (step ⟨4, 2, rfl⟩ true) (init fun _ => 0) contended = some s ∧
      s.completed = [2, 1, 3, 4, 5] ∧ s.popped = [2, 1] ∧ s.Conserved ⟨4, 2, rfl⟩ :=
  ⟨_, rfl, rfl, rfl, conserved_of_runsWithin ⟨4, 2, rfl⟩ (Or.inl rfl) (fun _ => 0)
    (by decide : RunsWithin (step ⟨4, 2, rfl⟩ true) (StepOk ⟨4, 2, rfl⟩) _ contended) rfl
    (by decide) (by decide)⟩

/-- Both producers load the empty buffer. The second pushes 2; then the first writes 1 over it,
fails its compare-exchange and pushes 1 again. -/
def staleWrite : List (Action Bool Unit ℕ) :=
  [.callEmplace false 1, .callEmplace true 2, .producer false, .producer true,
    .producer true, .producer true, .producer false, .producer false,
    .producer false, .producer false, .producer false]

theorem not_conserved_staleWrite : ∃ s : State Bool Unit ℕ,
    run (step ⟨4, 2, rfl⟩ true) (init fun _ => 0) staleWrite = some s ∧
      s.completed = [2, 1] ∧ s.live ⟨4, 2, rfl⟩ = [1, 1] ∧ s.Quiescent ∧
      ¬s.Conserved ⟨4, 2, rfl⟩ :=
  ⟨_, rfl, rfl, by decide, by decide, by decide⟩

end MultiProd
end JevMachO

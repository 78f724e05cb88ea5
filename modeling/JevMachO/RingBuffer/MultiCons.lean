import JevMachO.Common
import JevMachO.Lib.Transition
import JevMachO.RingBuffer.Index

/-! One producer and several consumers on one ring buffer. A consumer copies its element before
its compare-exchange; the exchange succeeds only if the read index has not moved since it was
loaded, and until it moves the one free slot keeps the producer off the element. -/
namespace JevMachO
open Lib

namespace MultiCons

/-- Where the producer is: pushing the values it still has, calling `finish`, or finished. -/
inductive ProdPc (α : Type) where
  | loading (v : α) (rest : List α)
  | writing (v : α) (rest : List α) (wrRaw : UInt64)
  | reading (v : α) (rest : List α) (wrRaw : UInt64)
  | storing (v : α) (rest : List α) (wrRaw : UInt64) (res : α)
  | checkingDone
  | settingDone
  | finished
  | assertFailed
  deriving DecidableEq

/-- Where a consumer is in `while (!(is_done() && empty())) pop();`. -/
inductive ConsPc (α : Type) where
  | checkingDone
  | checkingEmpty
  | loading
  | reading (rdRaw : UInt64)
  | exchanging (rdRaw : UInt64) (res : α)
  | left
  | assertFailed
  deriving DecidableEq

/-- The buffer, and the values popped in the order of their compare-exchanges. -/
structure Shared (α : Type) where
  mBuf : ℕ → α
  rdIdxRaw : UInt64
  wrIdxRaw : UInt64
  done : Bool
  popped : List α

structure State (κ α : Type) extends Shared α where
  prod : ProdPc α
  cons : κ → ConsPc α

inductive Action (κ : Type) where
  | producer
  | consumer (c : κ)
  deriving DecidableEq

variable {κ α : Type} (g : Geometry)

/-- The next `emplace`, or `finish` when there is nothing left to push. -/
def nextPush : List α → ProdPc α
  | [] => .checkingDone
  | v :: rest => .loading v rest

def producerStep (s : State κ α) : Option (State κ α) :=
  match s.prod with
  | .loading v rest =>
    -- full, try again
    if s.rdIdxRaw = g.rdFullVal s.wrIdxRaw then some s
    else some { s with prod := .writing v rest s.wrIdxRaw }
  | .writing v rest wrRaw =>
    some { s with
      mBuf := Function.update s.mBuf (g.slot wrRaw) v
      prod := .reading v rest wrRaw }
  | .reading v rest wrRaw =>
    some { s with prod := .storing v rest wrRaw (s.mBuf (g.slot wrRaw)) }
  | .storing _ rest wrRaw _ =>
    some { s with wrIdxRaw := wrRaw + 1, prod := nextPush rest }
  | .checkingDone => some { s with prod := if s.done then .assertFailed else .settingDone }
  | .settingDone => some { s with done := true, prod := .finished }
  | .finished => none
  | .assertFailed => none

def State.setCons [DecidableEq κ] (s : State κ α) (c : κ) (pc : ConsPc α) : State κ α :=
  { s with cons := Function.update s.cons c pc }

def consumerStep [DecidableEq κ] (s : State κ α) (c : κ) : Option (State κ α) :=
  match s.cons c with
  | .checkingDone => some (s.setCons c (if s.done then .checkingEmpty else .loading))
  | .checkingEmpty =>
    if ¬s.rdIdxRaw ≤ s.wrIdxRaw then some (s.setCons c .assertFailed)
    else if s.rdIdxRaw = s.wrIdxRaw then some (s.setCons c .left)
    else some (s.setCons c .loading)
  | .loading =>
    if ¬s.rdIdxRaw ≤ s.wrIdxRaw then some (s.setCons c .assertFailed)
    -- empty condition
    else if s.rdIdxRaw = s.wrIdxRaw then some (s.setCons c .checkingDone)
    else some (s.setCons c (.reading s.rdIdxRaw))
  | .reading rdRaw => some (s.setCons c (.exchanging rdRaw (s.mBuf (g.slot rdRaw))))
  | .exchanging rdRaw res =>
    if s.rdIdxRaw = rdRaw then
      some { s.setCons c .checkingDone with
        rdIdxRaw := rdRaw + 1
        popped := s.popped ++ [res] }
    else some (s.setCons c .loading)
  | .left => none
  | .assertFailed => none

def step [DecidableEq κ] (s : State κ α) : Action κ → Option (State κ α)
  | .producer => producerStep g s
  | .consumer c => consumerStep g s c

/-- An empty buffer, the producer about to push the values, the consumers about to loop. -/
def init (mBuf : ℕ → α) (vs : List α) : State κ α where
  mBuf := mBuf
  rdIdxRaw := 0
  wrIdxRaw := 0
  done := false
  popped := []
  prod := nextPush vs
  cons _ := .checkingDone

/-! ### The invariant -/

/-- The write index counts the values pushed, the read index the values popped, and the cells
between them hold the values pushed and not popped. -/
structure BufferOk (vs : List α) (m : Shared α) : Prop where
  wr_le : m.wrIdxRaw.toNat ≤ vs.length
  rd_le : m.rdIdxRaw.toNat ≤ m.wrIdxRaw.toNat
  room : m.wrIdxRaw.toNat < m.rdIdxRaw.toNat + g.cellCount
  live : ∀ i, m.rdIdxRaw.toNat ≤ i → i < m.wrIdxRaw.toNat →
    vs[i]? = some (m.mBuf (i % g.cellCount))
  popped : m.popped = vs.take m.rdIdxRaw.toNat

/-- The producer has the values from the write index on still to push, and room for one while it
is past the load. -/
def ProdOk (vs : List α) (m : Shared α) : ProdPc α → Prop
  | .loading v rest => vs.drop m.wrIdxRaw.toNat = v :: rest
  | .writing v rest wrRaw => vs.drop m.wrIdxRaw.toNat = v :: rest ∧ wrRaw = m.wrIdxRaw ∧
      m.wrIdxRaw.toNat + 1 < m.rdIdxRaw.toNat + g.cellCount
  | .reading v rest wrRaw => vs.drop m.wrIdxRaw.toNat = v :: rest ∧ wrRaw = m.wrIdxRaw ∧
      m.wrIdxRaw.toNat + 1 < m.rdIdxRaw.toNat + g.cellCount ∧ m.mBuf (g.slot wrRaw) = v
  | .storing v rest wrRaw _ => vs.drop m.wrIdxRaw.toNat = v :: rest ∧ wrRaw = m.wrIdxRaw ∧
      m.wrIdxRaw.toNat + 1 < m.rdIdxRaw.toNat + g.cellCount ∧ m.mBuf (g.slot wrRaw) = v
  | .assertFailed => False
  | _ => m.wrIdxRaw.toNat = vs.length

/-- While the read index is the one a consumer loaded, its element is unread and its copy
right. A consumer leaves only a buffer that is done and empty. -/
def ConsOk (vs : List α) (m : Shared α) : ConsPc α → Prop
  | .checkingEmpty => m.done = true
  | .reading rdRaw => rdRaw.toNat ≤ m.rdIdxRaw.toNat ∧
      (rdRaw = m.rdIdxRaw → m.rdIdxRaw.toNat < m.wrIdxRaw.toNat)
  | .exchanging rdRaw res => rdRaw.toNat ≤ m.rdIdxRaw.toNat ∧
      (rdRaw = m.rdIdxRaw → m.rdIdxRaw.toNat < m.wrIdxRaw.toNat ∧
        vs[rdRaw.toNat]? = some res)
  | .left => m.done = true ∧ m.rdIdxRaw.toNat = m.wrIdxRaw.toNat
  | .assertFailed => False
  | _ => True

structure Inv (vs : List α) (s : State κ α) : Prop extends BufferOk g vs s.toShared where
  done : s.done = true → s.prod = .finished
  producer : ProdOk g vs s.toShared s.prod
  consumers : ∀ c, ConsOk vs s.toShared (s.cons c)

variable {g} {vs rest : List α} {m : Shared α} {s s' : State κ α} {c : κ} {v res : α}

theorem prodOk_nextPush (hwr : m.wrIdxRaw.toNat ≤ vs.length)
    (h : vs.drop m.wrIdxRaw.toNat = rest) : ProdOk g vs m (nextPush rest) := by
  cases rest with
  | nil => exact Nat.le_antisymm hwr (List.drop_eq_nil_iff.mp h)
  | cons v rest => exact h

theorem inv_init (g : Geometry) (mBuf : ℕ → α) (vs : List α) :
    Inv g vs (init mBuf vs : State κ α) where
  wr_le := Nat.zero_le _
  rd_le := Nat.le_refl 0
  room := by
    have hpos := g.cellCount_pos
    simpa [init] using hpos
  live i _ hi := absurd hi (Nat.not_lt_zero i)
  popped := rfl
  done h := absurd h Bool.false_ne_true
  producer := prodOk_nextPush (Nat.zero_le _) rfl
  consumers _ := trivial

/-! ### Memory steps -/

/-- A list whose tail from `n` on starts with `v` holds `v` at `n`. -/
theorem getElem?_of_drop {n : ℕ} (h : vs.drop n = v :: rest) : vs[n]? = some v := by
  rw [← List.head?_drop, h]
  rfl

theorem drop_succ_of_drop {n : ℕ} (h : vs.drop n = v :: rest) : vs.drop (n + 1) = rest := by
  rw [← List.tail_drop, h]
  rfl

theorem lt_length_of_drop {n : ℕ} (h : vs.drop n = v :: rest) : n < vs.length :=
  (List.getElem?_eq_some_iff.mp (getElem?_of_drop h)).1

namespace BufferOk

theorem write (h : BufferOk g vs m)
    (hroom : m.wrIdxRaw.toNat + 1 < m.rdIdxRaw.toNat + g.cellCount) (v : α) :
    BufferOk g vs { m with mBuf := Function.update m.mBuf (g.slot m.wrIdxRaw) v } := by
  refine ⟨h.wr_le, h.rd_le, h.room, fun i hlo hhi => ?_, h.popped⟩
  dsimp only at hlo hhi ⊢
  have hne : i % g.cellCount ≠ m.wrIdxRaw.toNat % g.cellCount :=
    Ring.mod_ne hhi (by omega)
  rw [h.live i hlo hhi, g.slot_eq, Function.update_of_ne hne]

theorem commit (h : BufferOk g vs m) (hdrop : vs.drop m.wrIdxRaw.toNat = v :: rest)
    (hroom : m.wrIdxRaw.toNat + 1 < m.rdIdxRaw.toNat + g.cellCount)
    (hval : m.mBuf (g.slot m.wrIdxRaw) = v) (hadd : m.wrIdxRaw.toNat + 1 < 2 ^ 64) :
    BufferOk g vs { m with wrIdxRaw := m.wrIdxRaw + 1 } := by
  have hto := Geometry.toNat_add_one hadd
  refine ⟨?_, ?_, ?_, fun i hlo hhi => ?_, h.popped⟩
  · rw [hto]
    exact lt_length_of_drop hdrop
  · rw [hto]
    exact h.rd_le.trans (Nat.le_succ _)
  · rw [hto]
    exact hroom
  · rw [hto] at hhi
    by_cases hi : i < m.wrIdxRaw.toNat
    · exact h.live i hlo hi
    · obtain rfl : i = m.wrIdxRaw.toNat := by omega
      rw [getElem?_of_drop hdrop, ← g.slot_eq, hval]

theorem advance (h : BufferOk g vs m) (hlt : m.rdIdxRaw.toNat < m.wrIdxRaw.toNat)
    (hval : vs[m.rdIdxRaw.toNat]? = some res) :
    BufferOk g vs { m with rdIdxRaw := m.rdIdxRaw + 1, popped := m.popped ++ [res] } := by
  have hto := Geometry.toNat_add_one (Geometry.add_one_lt hlt)
  have hroom := h.room
  refine ⟨h.wr_le, ?_, ?_, fun i hlo hhi => ?_, ?_⟩
  · rw [hto]
    exact hlt
  · rw [hto]
    dsimp only
    omega
  · rw [hto] at hlo
    exact h.live i (by omega) hhi
  · dsimp only
    rw [hto, List.take_add_one, hval, h.popped]
    rfl

end BufferOk

/-- One more element pushed leaves the consumers' knowledge: none of them has left yet. -/
theorem consOk_commit {pc : ConsPc α} (hadd : m.wrIdxRaw.toNat + 1 < 2 ^ 64)
    (hdone : m.done = false) (h : ConsOk vs m pc) :
    ConsOk vs { m with wrIdxRaw := m.wrIdxRaw + 1 } pc := by
  have hto := Geometry.toNat_add_one hadd
  cases pc with
  | reading rdRaw =>
    refine ⟨h.1, fun he => ?_⟩
    rw [hto]
    exact (h.2 he).trans (Nat.lt_succ_self _)
  | exchanging rdRaw res =>
    refine ⟨h.1, fun he => ⟨?_, (h.2 he).2⟩⟩
    rw [hto]
    exact (h.2 he).1.trans (Nat.lt_succ_self _)
  | left => exact absurd h.1 (by rw [hdone]; decide)
  | checkingEmpty => exact h
  | assertFailed => exact h
  | _ => trivial

theorem consOk_advance {pc : ConsPc α} (hlt : m.rdIdxRaw.toNat < m.wrIdxRaw.toNat)
    (h : ConsOk vs m pc) (popped : List α) :
    ConsOk vs { m with rdIdxRaw := m.rdIdxRaw + 1, popped := popped } pc := by
  have hadd := Geometry.add_one_lt hlt
  cases pc with
  | reading rdRaw =>
    obtain ⟨hle, hne⟩ := Geometry.stale hadd h.1
    exact ⟨hle, fun he => absurd he hne⟩
  | exchanging rdRaw res =>
    obtain ⟨hle, hne⟩ := Geometry.stale hadd h.1
    exact ⟨hle, fun he => absurd he hne⟩
  | left => exact absurd h.2 hlt.ne
  | checkingEmpty => exact h
  | assertFailed => exact h
  | _ => trivial

theorem prodOk_advance {pc : ProdPc α} (hadd : m.rdIdxRaw.toNat + 1 < 2 ^ 64)
    (h : ProdOk g vs m pc) (popped : List α) :
    ProdOk g vs { m with rdIdxRaw := m.rdIdxRaw + 1, popped := popped } pc := by
  have hto := Geometry.toNat_add_one hadd
  have hroom : m.wrIdxRaw.toNat + 1 < m.rdIdxRaw.toNat + g.cellCount →
      m.wrIdxRaw.toNat + 1 < (m.rdIdxRaw + 1).toNat + g.cellCount := by
    rw [hto]
    omega
  cases pc with
  | writing v rest w => exact ⟨h.1, h.2.1, hroom h.2.2⟩
  | reading v rest w => exact ⟨h.1, h.2.1, hroom h.2.2.1, h.2.2.2⟩
  | storing v rest w r => exact ⟨h.1, h.2.1, hroom h.2.2.1, h.2.2.2⟩
  | _ => exact h

/-! ### Steps -/

theorem Inv.done_eq_false (h : Inv g vs s) (hne : s.prod ≠ .finished) : s.done = false := by
  cases hd : s.done with
  | false => rfl
  | true => exact absurd (h.done hd) hne

/-- Before the producer is done it may be anywhere. -/
theorem Inv.ofNotDone (hd : s.done = false) (hbuf : BufferOk g vs s.toShared)
    (hprod : ProdOk g vs s.toShared s.prod) (hcons : ∀ c, ConsOk vs s.toShared (s.cons c)) :
    Inv g vs s where
  toBufferOk := hbuf
  done ht := absurd (hd.symm.trans ht) (by decide)
  producer := hprod
  consumers := hcons

/-- No consumer has left before the producer is done. -/
theorem consOk_settingDone {pc : ConsPc α} (hd : m.done = false) (h : ConsOk vs m pc) :
    ConsOk vs { m with done := true } pc := by
  cases pc with
  | left => exact absurd (hd.symm.trans h.1) (by decide)
  | checkingEmpty => rfl
  | _ => exact h

theorem Inv.producerStep (hvs : vs.length < 2 ^ 64) (h : Inv g vs s)
    (hs : producerStep g s = some s') : Inv g vs s' := by
  have hp := h.producer
  have hdone := h.done_eq_false
  unfold MultiCons.producerStep at hs
  cases hprod : s.prod with
  | finished => simp [hprod] at hs
  | assertFailed => simp [hprod] at hs
  | loading v rest =>
    simp only [hprod] at hs
    rw [hprod] at hp hdone
    split_ifs at hs with hfull <;> obtain rfl := Option.some.inj hs
    · exact h
    · exact .ofNotDone (hdone (by simp)) h.toBufferOk
        ⟨hp, rfl, g.room_of_ne_rdFullVal h.rd_le h.room hfull⟩ h.consumers
  | writing v rest wrRaw =>
    simp only [hprod] at hs
    rw [hprod] at hp hdone
    obtain ⟨hdrop, rfl, hroom⟩ := hp
    obtain rfl := Option.some.inj hs
    exact .ofNotDone (hdone (by simp)) (h.toBufferOk.write hroom v)
      ⟨hdrop, rfl, hroom, Function.update_self ..⟩ h.consumers
  | reading v rest wrRaw =>
    simp only [hprod] at hs
    rw [hprod] at hp hdone
    obtain rfl := Option.some.inj hs
    exact .ofNotDone (hdone (by simp)) h.toBufferOk hp h.consumers
  | storing v rest wrRaw res =>
    simp only [hprod] at hs
    rw [hprod] at hp hdone
    have hd := hdone (by simp)
    obtain ⟨hdrop, rfl, hroom, hval⟩ := hp
    have hlt := lt_length_of_drop hdrop
    have hadd : s.wrIdxRaw.toNat + 1 < 2 ^ 64 := by omega
    have hbuf := h.toBufferOk.commit hdrop hroom hval hadd
    obtain rfl := Option.some.inj hs
    refine .ofNotDone hd hbuf (prodOk_nextPush hbuf.wr_le ?_)
      fun c => consOk_commit hadd hd (h.consumers c)
    dsimp only
    rw [Geometry.toNat_add_one hadd]
    exact drop_succ_of_drop hdrop
  | checkingDone =>
    simp only [hprod] at hs
    rw [hprod] at hp hdone
    have hd := hdone (by simp)
    simp only [hd] at hs
    obtain rfl := Option.some.inj hs
    exact .ofNotDone hd h.toBufferOk hp h.consumers
  | settingDone =>
    simp only [hprod] at hs
    rw [hprod] at hp hdone
    have hd := hdone (by simp)
    obtain rfl := Option.some.inj hs
    exact { h with
      done := fun _ => rfl
      producer := hp
      consumers := fun c => consOk_settingDone hd (h.consumers c) }

theorem Inv.setCons [DecidableEq κ] (h : Inv g vs s) {pc : ConsPc α}
    (hpc : ConsOk vs s.toShared pc) : Inv g vs (s.setCons c pc) :=
  { h with
    consumers := fun d => by
      change ConsOk vs s.toShared (Function.update s.cons c pc d)
      by_cases hd : d = c
      · subst hd
        rw [Function.update_self]
        exact hpc
      · rw [Function.update_of_ne hd]
        exact h.consumers d }

theorem Inv.consumerStep [DecidableEq κ] (h : Inv g vs s)
    (hs : consumerStep g s c = some s') : Inv g vs s' := by
  have hpc := h.consumers c
  have hle : s.rdIdxRaw ≤ s.wrIdxRaw := UInt64.le_iff_toNat_le.mpr h.rd_le
  unfold MultiCons.consumerStep at hs
  cases hcons : s.cons c with
  | left => simp [hcons] at hs
  | assertFailed => simp [hcons] at hs
  | checkingDone =>
    simp only [hcons] at hs
    obtain rfl := Option.some.inj hs
    split
    · rename_i hd
      exact h.setCons hd
    · exact h.setCons trivial
  | checkingEmpty =>
    rw [hcons] at hpc
    simp only [hcons, hle, not_true_eq_false, if_false] at hs
    split_ifs at hs with hempty <;> obtain rfl := Option.some.inj hs
    · exact h.setCons ⟨hpc, congrArg UInt64.toNat hempty⟩
    · exact h.setCons trivial
  | loading =>
    have hrd := h.rd_le
    simp only [hcons, hle, not_true_eq_false, if_false] at hs
    split_ifs at hs with hempty <;> obtain rfl := Option.some.inj hs
    · exact h.setCons trivial
    · refine h.setCons ⟨Nat.le_refl _, fun _ => ?_⟩
      have hne := mt UInt64.toNat_inj.mp hempty
      omega
  | reading rdRaw =>
    simp only [hcons] at hs
    rw [hcons] at hpc
    obtain rfl := Option.some.inj hs
    refine h.setCons ⟨hpc.1, fun he => ⟨hpc.2 he, ?_⟩⟩
    rw [he, g.slot_eq]
    exact h.live _ (Nat.le_refl _) (hpc.2 he)
  | exchanging rdRaw res =>
    simp only [hcons] at hs
    rw [hcons] at hpc
    split_ifs at hs with hrd <;> obtain rfl := Option.some.inj hs
    · subst hrd
      obtain ⟨hlt, hval⟩ := hpc.2 rfl
      exact {
        h.toBufferOk.advance hlt hval with
        done := h.done
        producer := prodOk_advance (Geometry.add_one_lt hlt) h.producer _
        consumers := fun d => by
          by_cases hd : d = c
          · subst hd
            simp [State.setCons, ConsOk]
          · simpa [State.setCons, hd] using consOk_advance hlt (h.consumers d) _ }
    · exact h.setCons trivial

theorem Inv.step [DecidableEq κ] (hvs : vs.length < 2 ^ 64) {a : Action κ} (h : Inv g vs s)
    (hs : step g s a = some s') : Inv g vs s' := by
  cases a with
  | producer => exact h.producerStep hvs hs
  | consumer c => exact h.consumerStep hs

/-- Whatever has been popped is a prefix of what has been pushed so far, the indices stay within
one buffer, no assertion fails, and a consumer has left its loop only when everything has been
popped. -/
structure PopsInOrder (g : Geometry) (vs : List α) (s : State κ α) : Prop where
  popped_prefix : s.popped <+: vs.take s.wrIdxRaw.toNat
  rd_le_wr : s.rdIdxRaw.toNat ≤ s.wrIdxRaw.toNat
  size_le : s.wrIdxRaw.toNat - s.rdIdxRaw.toNat ≤ g.staticSize.toNat
  producer_ok : s.prod ≠ .assertFailed
  consumers_ok : ∀ c, s.cons c ≠ .assertFailed
  popped_all : ∀ c, s.cons c = .left → s.popped = vs

theorem popsInOrder_of_reachable [DecidableEq κ] (g : Geometry) (mBuf : ℕ → α) (vs : List α)
    (hvs : vs.length < 2 ^ 64) {s : State κ α}
    (hs : Reachable (step g) (init mBuf vs) s) : PopsInOrder g vs s := by
  have h : Inv g vs s := hs.invariant (fun _ _ _ hi hstep => hi.step hvs hstep) (inv_init g mBuf vs)
  have hroom := h.room
  refine ⟨?_, h.rd_le, ?_, ?_, ?_, ?_⟩
  · rw [h.popped]
    exact List.take_prefix_take_left h.rd_le
  · rw [g.toNat_staticSize]
    omega
  · intro he
    have hp := h.producer
    rw [he] at hp
    exact hp
  · intro c he
    have hc := h.consumers c
    rw [he] at hc
    exact hc
  · intro c he
    have hc := h.consumers c
    have hp := h.producer
    rw [he] at hc
    rw [h.done hc.1] at hp
    rw [h.popped, hc.2, show s.wrIdxRaw.toNat = vs.length from hp, List.take_length]

/-- The producer pushes two values and finishes; one consumer pops both and leaves. -/
def twoValues : List (Action Bool) :=
  List.replicate 10 .producer ++ List.replicate 12 (.consumer true)

theorem popsInOrder_twoValues : ∃ s : State Bool ℕ,
    run (step ⟨4, 2, rfl⟩) (init (fun _ => 0) [7, 8]) twoValues = some s ∧
      s.cons true = .left ∧ PopsInOrder ⟨4, 2, rfl⟩ [7, 8] s :=
  ⟨_, rfl, rfl, popsInOrder_of_reachable ⟨4, 2, rfl⟩ (fun _ => 0) [7, 8] (by decide)
    ⟨twoValues, rfl⟩⟩

end MultiCons
end JevMachO

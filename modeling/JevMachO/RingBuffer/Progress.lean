import JevMachO.Lib.Schedule
import JevMachO.RingBuffer.MultiCons

/-! How the consumers of one ring buffer get on. A compare-exchange that fails has been overtaken
by another consumer's, so the consumers together always make progress. Under a schedule in which
the producer and one consumer come up again and again the values run out, whatever the other
consumers do, and that consumer leaves its loop. -/
namespace JevMachO
open Lib

namespace MultiCons

variable {κ α : Type} {g : Geometry} {vs : List α} {s s' : State κ α} {c d : κ} {n : ℕ}

/-! ### What a step changes -/

theorem Inv.length_popped (h : Inv g vs s) : s.popped.length = s.rdIdxRaw.toNat := by
  rw [h.popped, List.length_take, Nat.min_eq_left (h.rd_le.trans h.wr_le)]

theorem Inv.rd_lt_of_exchanging (h : Inv g vs s) {res : α}
    (hc : s.cons c = .exchanging s.rdIdxRaw res) : s.rdIdxRaw.toNat < s.wrIdxRaw.toNat := by
  have hok := h.consumers c
  rw [hc] at hok
  exact (hok.2 rfl).1

theorem Inv.toNat_rd_succ (h : Inv g vs s) {res : α}
    (hc : s.cons c = .exchanging s.rdIdxRaw res) :
    (s.rdIdxRaw + 1).toNat = s.rdIdxRaw.toNat + 1 :=
  Geometry.toNat_add_one (Geometry.add_one_lt (h.rd_lt_of_exchanging hc))

/-- The producer leaves the read index, the consumers and what they have popped alone. -/
theorem producerStep_frame (hs : producerStep g s = some s') :
    s'.rdIdxRaw = s.rdIdxRaw ∧ s'.cons = s.cons ∧ s'.popped = s.popped := by
  unfold producerStep at hs
  split at hs
  · split_ifs at hs <;> obtain rfl := Option.some.inj hs <;> exact ⟨rfl, rfl, rfl⟩
  all_goals first
    | (obtain rfl := Option.some.inj hs; exact ⟨rfl, rfl, rfl⟩)
    | exact absurd hs (Option.some_ne_none _).symm

section
variable [DecidableEq κ]

/-- A consumer's step moves the consumer, or pops the element at the read index. -/
theorem consumerStep_cases (hs : consumerStep g s c = some s') :
    ((∀ res, s.cons c ≠ .exchanging s.rdIdxRaw res) ∧ ∃ pc, s' = s.setCons c pc) ∨
      ∃ res, s.cons c = .exchanging s.rdIdxRaw res ∧
        s' = { s.setCons c .checkingDone with
          rdIdxRaw := s.rdIdxRaw + 1
          popped := s.popped ++ [res] } := by
  unfold consumerStep at hs
  cases hcons : s.cons c with
  | exchanging rdRaw res =>
    simp only [hcons] at hs
    split_ifs at hs with hrd <;> obtain rfl := Option.some.inj hs
    · subst hrd
      exact .inr ⟨res, rfl, rfl⟩
    · exact .inl ⟨fun res' h => hrd (ConsPc.exchanging.inj h).1.symm, _, rfl⟩
  | checkingEmpty =>
    simp only [hcons] at hs
    split_ifs at hs <;> exact .inl ⟨by simp, _, (Option.some.inj hs).symm⟩
  | loading =>
    simp only [hcons] at hs
    split_ifs at hs <;> exact .inl ⟨by simp, _, (Option.some.inj hs).symm⟩
  | checkingDone =>
    simp only [hcons] at hs
    exact .inl ⟨by simp, _, (Option.some.inj hs).symm⟩
  | reading rdRaw =>
    simp only [hcons] at hs
    exact .inl ⟨by simp, _, (Option.some.inj hs).symm⟩
  | left => simp [hcons] at hs
  | assertFailed => simp [hcons] at hs

@[simp] theorem setCons_cons_self {pc : ConsPc α} : (s.setCons c pc).cons c = pc :=
  Function.update_self ..

theorem setCons_cons_of_ne {pc : ConsPc α} (h : d ≠ c) : (s.setCons c pc).cons d = s.cons d :=
  Function.update_of_ne h ..

/-- A consumer's step is no other consumer's. -/
theorem consumerStep_cons (hs : consumerStep g s c = some s') (h : d ≠ c) :
    s'.cons d = s.cons d := by
  obtain ⟨-, pc, rfl⟩ | ⟨res, -, rfl⟩ := consumerStep_cases hs
  · exact setCons_cons_of_ne h
  · exact setCons_cons_of_ne (s := s) h

@[simp] theorem setCons_rdIdxRaw {pc : ConsPc α} : (s.setCons c pc).rdIdxRaw = s.rdIdxRaw := rfl

theorem Inv.rd_le_of_consumerStep (h : Inv g vs s)
    (hs : MultiCons.consumerStep g s c = some s') :
    s.rdIdxRaw.toNat ≤ s'.rdIdxRaw.toNat := by
  obtain ⟨-, pc, rfl⟩ | ⟨res, hc, rfl⟩ := consumerStep_cases hs
  · exact Nat.le_refl _
  · exact (h.toNat_rd_succ hc).symm ▸ Nat.le_succ _

end

/-! ### Compare-exchanges -/

section

/-- The read index is at least the number of a consumer's compare-exchanges so far, and so is the
index that the consumer has loaded. -/
structure ExchangesLe (g : Geometry) (vs : List α) (c : κ) (n : ℕ) (s : State κ α) : Prop extends
    Inv g vs s where
  le_rd : n ≤ s.rdIdxRaw.toNat
  le_reading : ∀ rdRaw, s.cons c = .reading rdRaw → n ≤ rdRaw.toNat
  le_exchanging : ∀ rdRaw res, s.cons c = .exchanging rdRaw res → n ≤ rdRaw.toNat

/-- The steps of the others. -/
theorem ExchangesLe.of_cons_eq (h : ExchangesLe g vs c n s) (hinv : Inv g vs s')
    (hrd : s.rdIdxRaw.toNat ≤ s'.rdIdxRaw.toNat) (hcons : s'.cons c = s.cons c) :
    ExchangesLe g vs c n s' where
  toInv := hinv
  le_rd := h.le_rd.trans hrd
  le_reading rdRaw hpc := h.le_reading rdRaw (hcons.symm.trans hpc)
  le_exchanging rdRaw res hpc := h.le_exchanging rdRaw res (hcons.symm.trans hpc)

/-- The consumer has loaded nothing. -/
theorem ExchangesLe.of_notLoaded (hinv : Inv g vs s') (hle : n ≤ s'.rdIdxRaw.toNat)
    (hreading : ∀ rdRaw, s'.cons c ≠ .reading rdRaw)
    (hexchanging : ∀ rdRaw res, s'.cons c ≠ .exchanging rdRaw res) :
    ExchangesLe g vs c n s' where
  toInv := hinv
  le_rd := hle
  le_reading rdRaw hpc := absurd hpc (hreading rdRaw)
  le_exchanging rdRaw res hpc := absurd hpc (hexchanging rdRaw res)

variable [DecidableEq κ] {a : Action κ}

/-- The compare-exchange of a consumer's `pop`, whether it succeeds or not. -/
def exchanges (c : κ) (s : State κ α) : Action κ → Bool
  | .producer => false
  | .consumer d => d = c && match s.cons c with
    | .exchanging _ _ => true
    | _ => false

theorem ExchangesLe.consumerStep (h : ExchangesLe g vs c n s)
    (hs : MultiCons.consumerStep g s c = some s') :
    ExchangesLe g vs c (n + (exchanges c s (.consumer c)).toNat) s' := by
  have hinv := h.toInv.consumerStep hs
  have hok := h.consumers c
  have hle := h.le_rd
  have hreading := h.le_reading
  have hexchanging := h.le_exchanging
  unfold MultiCons.consumerStep at hs
  cases hcons : s.cons c with
  | left => simp [hcons] at hs
  | assertFailed => simp [hcons] at hs
  | checkingDone =>
    simp only [hcons] at hs
    obtain rfl := Option.some.inj hs
    refine .of_notLoaded hinv (by simpa [exchanges, hcons] using hle) ?_ ?_
    all_goals intros; rw [setCons_cons_self]; split <;> simp
  | checkingEmpty =>
    simp only [hcons] at hs
    split_ifs at hs <;> obtain rfl := Option.some.inj hs
    all_goals exact .of_notLoaded hinv (by simpa [exchanges, hcons] using hle) (by simp) (by simp)
  | loading =>
    simp only [hcons] at hs
    split_ifs at hs <;> obtain rfl := Option.some.inj hs
    · exact .of_notLoaded hinv (by simpa [exchanges, hcons] using hle) (by simp) (by simp)
    · refine ⟨hinv, by simpa [exchanges, hcons] using hle, ?_, by simp⟩
      intro rdRaw hpc
      obtain rfl := ConsPc.reading.inj (setCons_cons_self.symm.trans hpc)
      simpa [exchanges, hcons] using hle
    · exact .of_notLoaded hinv (by simpa [exchanges, hcons] using hle) (by simp) (by simp)
  | reading rdRaw =>
    simp only [hcons] at hs
    obtain rfl := Option.some.inj hs
    refine ⟨hinv, by simpa [exchanges, hcons] using hle, by simp, ?_⟩
    intro rdRaw' res hpc
    obtain ⟨rfl, -⟩ := ConsPc.exchanging.inj (setCons_cons_self.symm.trans hpc)
    simpa [exchanges, hcons] using hreading rdRaw hcons
  | exchanging rdRaw res =>
    have hloaded := hexchanging rdRaw res hcons
    have hcount : n + (exchanges c s (.consumer c)).toNat = n + 1 := by simp [exchanges, hcons]
    rw [hcount]
    rw [hcons] at hok
    simp only [hcons] at hs
    split_ifs at hs with hrd <;> obtain rfl := Option.some.inj hs
    · subst hrd
      refine .of_notLoaded hinv ?_ (by simp) (by simp)
      rw [h.toNat_rd_succ hcons]
      exact Nat.succ_le_succ hloaded
    · -- overtaken since its load
      refine .of_notLoaded hinv ?_ (by simp) (by simp)
      have hne := mt UInt64.toNat_inj.mp hrd
      have hbehind := hok.1
      show n + 1 ≤ s.rdIdxRaw.toNat
      omega

theorem ExchangesLe.step (hvs : vs.length < 2 ^ 64) (h : ExchangesLe g vs c n s)
    (hs : step g s a = some s') : ExchangesLe g vs c (n + (exchanges c s a).toNat) s' := by
  cases a with
  | producer =>
    obtain ⟨hrd, hcons, -⟩ := producerStep_frame hs
    exact h.of_cons_eq (h.toInv.producerStep hvs hs) (hrd ▸ Nat.le_refl _) (congrFun hcons c)
  | consumer d =>
    by_cases hd : d = c
    · subst hd
      exact h.consumerStep hs
    · have hcount : (exchanges c s (.consumer d)).toNat = 0 := by simp [exchanges, hd]
      rw [hcount]
      exact h.of_cons_eq (h.toInv.consumerStep hs) (h.toInv.rd_le_of_consumerStep hs)
        (consumerStep_cons hs (Ne.symm hd))

/-- From a moment at which a consumer has loaded nothing, as after a failed compare-exchange, it
tries no more of them than values are popped from then on: it never tries again without another
one having popped meanwhile. -/
theorem exchanges_le_popped_since (hvs : vs.length < 2 ^ 64) (h : Inv g vs s)
    (hreading : ∀ rdRaw, s.cons c ≠ .reading rdRaw)
    (hexchanging : ∀ rdRaw res, s.cons c ≠ .exchanging rdRaw res) {as : List (Action κ)}
    (hrun : run (step g) s as = some s') :
    s.popped.length + countSteps (step g) (exchanges c) s as ≤ s'.popped.length := by
  have hs : ExchangesLe g vs c s.rdIdxRaw.toNat s :=
    .of_notLoaded h (Nat.le_refl _) hreading hexchanging
  have h' := count_invariant (fun n s a s' h hs => ExchangesLe.step hvs h hs) hs hrun
  rw [h.length_popped, h'.toInv.length_popped]
  exact h'.le_rd

/-- A consumer tries no more compare-exchanges than values have been popped. -/
theorem exchanges_le_popped (g : Geometry) (mBuf : ℕ → α) {vs : List α}
    (hvs : vs.length < 2 ^ 64) (c : κ) {as : List (Action κ)} {s : State κ α}
    (hrun : run (step g) (init mBuf vs) as = some s) :
    countSteps (step g) (exchanges c) (init mBuf vs) as ≤ s.popped.length := by
  have h := exchanges_le_popped_since (c := c) hvs (inv_init g mBuf vs) (by simp [init])
    (by simp [init]) hrun
  exact (Nat.le_add_left _ _).trans h

/-- Two consumers load the same index, and the second one's compare-exchange fails. -/
def contended : List (Action Bool) :=
  List.replicate 6 .producer ++ List.replicate 4 (.consumer true) ++
    List.replicate 4 (.consumer false) ++ [.consumer true, .consumer false]

theorem exchanges_contended : ∃ s : State Bool ℕ,
    run (step ⟨4, 2, rfl⟩) (init (fun _ => 0) [7]) contended = some s ∧
      countSteps (step ⟨4, 2, rfl⟩) (exchanges false) (init (fun _ => 0) [7]) contended = 1 ∧
      countSteps (step ⟨4, 2, rfl⟩) (exchanges false) (init (fun _ => 0) [7]) contended ≤
        s.popped.length :=
  ⟨_, rfl, rfl, exchanges_le_popped ⟨4, 2, rfl⟩ (fun _ => 0) (by decide) false rfl⟩

end

/-! ### Work -/

/-- What is left to pop, to push and to finish. -/
def work (vs : List α) (s : State κ α) : ℕ :=
  (vs.length - s.rdIdxRaw.toNat) + (vs.length - s.wrIdxRaw.toNat) + (!s.done).toNat

/-- Both indices and the flag are as in another state. -/
structure Unmoved (s s' : State κ α) : Prop where
  rdIdxRaw : s'.rdIdxRaw = s.rdIdxRaw
  wrIdxRaw : s'.wrIdxRaw = s.wrIdxRaw
  done : s'.done = s.done

theorem Unmoved.refl (s : State κ α) : Unmoved s s := ⟨rfl, rfl, rfl⟩

/-- How far the producer is from pushing its value or from finishing. -/
def pushRank : ProdPc α → ℕ
  | .loading _ _ => 6
  | .writing _ _ _ => 5
  | .reading _ _ _ => 4
  | .storing _ _ _ _ => 3
  | .checkingDone => 2
  | .settingDone => 1
  | .finished => 0
  | .assertFailed => 0

/-- How far a consumer is from popping an element when there is one. An index it has loaded may be
out of date. -/
def popRank (rdIdxRaw : UInt64) : ConsPc α → ℕ
  | .checkingDone => 5
  | .checkingEmpty => 4
  | .loading => 3
  | .reading rdRaw => if rdRaw = rdIdxRaw then 2 else 5
  | .exchanging rdRaw _ => if rdRaw = rdIdxRaw then 1 else 4
  | .left => 0
  | .assertFailed => 0

/-- How far a consumer is from leaving its loop when nothing is left. -/
def leaveRank : ConsPc α → ℕ
  | .reading _ => 5
  | .exchanging _ _ => 4
  | .loading => 3
  | .checkingDone => 2
  | .checkingEmpty => 1
  | .left => 0
  | .assertFailed => 0

/-- The producer has a value to push and the buffer is full. -/
def Stuck (g : Geometry) (s : State κ α) : Prop :=
  s.rdIdxRaw = g.rdFullVal s.wrIdxRaw ∧ ∃ v rest, s.prod = .loading v rest

/-- A step of the producer does some work, or brings it closer unless it is stuck. -/
theorem Inv.producerStep_work (hvs : vs.length < 2 ^ 64) (h : Inv g vs s)
    (hs : MultiCons.producerStep g s = some s') :
    work vs s' < work vs s ∨ Unmoved s s' ∧
      (¬Stuck g s → pushRank s'.prod < pushRank s.prod) := by
  have hp := h.producer
  have hdone := h.done_eq_false
  unfold MultiCons.producerStep at hs
  cases hprod : s.prod with
  | finished => simp [hprod] at hs
  | assertFailed => simp [hprod] at hs
  | loading v rest =>
    simp only [hprod] at hs
    split_ifs at hs with hfull <;> obtain rfl := Option.some.inj hs
    · exact .inr ⟨⟨rfl, rfl, rfl⟩, fun hne => absurd ⟨hfull, v, rest, hprod⟩ hne⟩
    · exact .inr ⟨⟨rfl, rfl, rfl⟩, fun _ => by simp [pushRank]⟩
  | writing v rest wrRaw =>
    simp only [hprod] at hs
    obtain rfl := Option.some.inj hs
    exact .inr ⟨⟨rfl, rfl, rfl⟩, fun _ => by simp [pushRank]⟩
  | reading v rest wrRaw =>
    simp only [hprod] at hs
    obtain rfl := Option.some.inj hs
    exact .inr ⟨⟨rfl, rfl, rfl⟩, fun _ => by simp [pushRank]⟩
  | storing v rest wrRaw res =>
    simp only [hprod] at hs
    rw [hprod] at hp
    obtain ⟨hdrop, rfl, -⟩ := hp
    have hlt := lt_length_of_drop hdrop
    have hto := Geometry.toNat_add_one (i := s.wrIdxRaw) (by omega)
    obtain rfl := Option.some.inj hs
    left
    simp only [work, hto]
    omega
  | checkingDone =>
    simp only [hprod] at hs
    rw [hprod] at hdone
    simp only [hdone (by simp)] at hs
    obtain rfl := Option.some.inj hs
    exact .inr ⟨⟨rfl, rfl, rfl⟩, fun _ => by simp [pushRank]⟩
  | settingDone =>
    simp only [hprod] at hs
    rw [hprod] at hdone
    obtain rfl := Option.some.inj hs
    left
    simp [work, hdone (by simp)]

/-- Only a buffer of one cell, which never has room for a value, is full while it is empty. -/
theorem Inv.not_stuck (hn : vs = [] ∨ 2 ≤ g.cellCount) (h : Inv g vs s)
    (heq : s.rdIdxRaw = s.wrIdxRaw) : ¬Stuck g s := by
  rintro ⟨hfull, v, rest, hprod⟩
  have hp := h.producer
  rw [hprod] at hp
  cases hn with
  | inl hnil =>
    have hlt := lt_length_of_drop (show vs.drop _ = v :: rest from hp)
    rw [hnil] at hlt
    exact Nat.not_lt_zero _ hlt
  | inr hcells =>
    have hlen := (g.eq_rdFullVal_iff h.rd_le (by rw [heq]; omega)).mp hfull
    rw [heq] at hlen
    omega

/-- The producer is finished only once it has set the flag. -/
structure Live (g : Geometry) (vs : List α) (s : State κ α) : Prop extends Inv g vs s where
  finished : s.prod = .finished → s.done = true

theorem live_init (g : Geometry) (mBuf : ℕ → α) (vs : List α) :
    Live g vs (init mBuf vs : State κ α) where
  toInv := inv_init g mBuf vs
  finished h := by cases vs <;> simp [init, nextPush] at h

/-- From some time on the producer has finished, the consumer has left its loop and every value
has been popped. -/
structure RunsOut (g : Geometry) (vs : List α) (c : κ) (s : State κ α) : Prop where
  prod : s.prod = .finished
  cons : s.cons c = .left
  popped : s.popped = vs

theorem runsOut_of_left (h : Live g vs s) (hc : s.cons c = .left) : RunsOut g vs c s := by
  have hok := h.consumers c
  have hp := h.producer
  rw [hc] at hok
  have hfin := h.done hok.1
  rw [hfin] at hp
  refine ⟨hfin, hc, ?_⟩
  rw [h.popped, hok.2, show s.wrIdxRaw.toNat = vs.length from hp, List.take_length]

variable [DecidableEq κ] {a : Action κ}

/-- A step of a consumer does some work or leaves indices and flag. -/
theorem Inv.consumerStep_work (h : Inv g vs s)
    (hs : MultiCons.consumerStep g s c = some s') : work vs s' < work vs s ∨ Unmoved s s' := by
  obtain ⟨-, pc, rfl⟩ | ⟨res, hc, rfl⟩ := consumerStep_cases hs
  · exact .inr ⟨rfl, rfl, rfl⟩
  · have hlt := h.rd_lt_of_exchanging hc
    have hle := h.wr_le
    left
    simp only [work, h.toNat_rd_succ hc]
    change _ + (vs.length - s.wrIdxRaw.toNat) + (!s.done).toNat < _
    omega

/-- While there is an element, a step of a consumer does some work or brings it closer. -/
theorem Inv.consumerStep_pops (h : Inv g vs s) (hne : s.rdIdxRaw ≠ s.wrIdxRaw) :
    ∃ s', MultiCons.consumerStep g s c = some s' ∧ (work vs s' < work vs s ∨ Unmoved s s' ∧
      popRank s'.rdIdxRaw (s'.cons c) < popRank s.rdIdxRaw (s.cons c)) := by
  have hok := h.consumers c
  have hle : s.rdIdxRaw ≤ s.wrIdxRaw := UInt64.le_iff_toNat_le.mpr h.rd_le
  obtain ⟨s', hs'⟩ : ∃ s', MultiCons.consumerStep g s c = some s' := by
    cases hc : s.cons c with
    | left =>
      rw [hc] at hok
      exact absurd (UInt64.toNat_inj.mp hok.2) hne
    | assertFailed =>
      rw [hc] at hok
      exact hok.elim
    | checkingEmpty | loading | exchanging =>
      simp only [MultiCons.consumerStep, hc]
      split_ifs <;> exact ⟨_, rfl⟩
    | checkingDone | reading => simp [MultiCons.consumerStep, hc]
  refine ⟨s', hs', ?_⟩
  cases h.consumerStep_work hs' with
  | inl hwork => exact .inl hwork
  | inr hunmoved =>
    refine .inr ⟨hunmoved, ?_⟩
    rw [hunmoved.rdIdxRaw]
    unfold MultiCons.consumerStep at hs'
    cases hc : s.cons c with
    | left => simp [hc] at hs'
    | assertFailed => simp [hc] at hs'
    | checkingDone =>
      simp only [hc] at hs'
      obtain rfl := Option.some.inj hs'
      rw [setCons_cons_self]
      split <;> simp [popRank]
    | checkingEmpty =>
      simp only [hc, hle, hne, not_true_eq_false, if_false] at hs'
      obtain rfl := Option.some.inj hs'
      simp [popRank]
    | loading =>
      simp only [hc, hle, hne, not_true_eq_false, if_false] at hs'
      obtain rfl := Option.some.inj hs'
      simp [popRank]
    | reading rdRaw =>
      simp only [hc] at hs'
      obtain rfl := Option.some.inj hs'
      rw [setCons_cons_self]
      simp only [popRank]
      split <;> decide
    | exchanging rdRaw res =>
      simp only [hc] at hs'
      split_ifs at hs' with hrd <;> obtain rfl := Option.some.inj hs'
      · -- the read index would have moved
        subst hrd
        have hto := congrArg UInt64.toNat hunmoved.rdIdxRaw
        rw [h.toNat_rd_succ hc] at hto
        omega
      · rw [setCons_cons_self]
        simp [popRank, Ne.symm hrd]

/-- Once everything is pushed and popped, a step of a consumer brings it closer to the end. -/
theorem Inv.consumerStep_leaves (h : Inv g vs s) (heq : s.rdIdxRaw = s.wrIdxRaw)
    (hdone : s.done = true) (hc : s.cons c ≠ .left) :
    ∃ s', MultiCons.consumerStep g s c = some s' ∧
      leaveRank (s'.cons c) < leaveRank (s.cons c) := by
  have hok := h.consumers c
  cases hpc : s.cons c with
  | left => exact absurd hpc hc
  | assertFailed =>
    rw [hpc] at hok
    exact hok.elim
  | checkingDone =>
    refine ⟨s.setCons c .checkingEmpty, ?_, by simp [leaveRank]⟩
    simp [MultiCons.consumerStep, hpc, hdone]
  | checkingEmpty =>
    refine ⟨s.setCons c .left, ?_, by simp [leaveRank]⟩
    simp [MultiCons.consumerStep, hpc, heq]
  | loading =>
    refine ⟨s.setCons c .checkingDone, ?_, by simp [leaveRank]⟩
    simp [MultiCons.consumerStep, hpc, heq]
  | reading rdRaw =>
    refine ⟨s.setCons c (.exchanging rdRaw (s.mBuf (g.slot rdRaw))), ?_, by simp [leaveRank]⟩
    simp [MultiCons.consumerStep, hpc]
  | exchanging rdRaw res =>
    rw [hpc] at hok
    have hne : s.rdIdxRaw ≠ rdRaw := by
      intro hrd
      have hlt := (hok.2 hrd.symm).1
      rw [heq] at hlt
      exact Nat.lt_irrefl _ hlt
    refine ⟨s.setCons c .loading, ?_, by simp [leaveRank]⟩
    simp [MultiCons.consumerStep, hpc, hne]

/-! ### Schedules -/

theorem Live.step (hvs : vs.length < 2 ^ 64) (h : Live g vs s) (hs : step g s a = some s') :
    Live g vs s' := by
  refine ⟨h.toInv.step hvs hs, ?_⟩
  cases a with
  | consumer c =>
    intro hfin
    obtain ⟨-, pc, rfl⟩ | ⟨res, -, rfl⟩ := consumerStep_cases hs
    · exact h.finished hfin
    · exact h.finished hfin
  | producer =>
    intro hfin
    change MultiCons.producerStep g s = some s' at hs
    unfold MultiCons.producerStep at hs
    cases hprod : s.prod with
    | finished => simp [hprod] at hs
    | assertFailed => simp [hprod] at hs
    | settingDone =>
      simp only [hprod] at hs
      obtain rfl := Option.some.inj hs
      rfl
    | loading v rest =>
      simp only [hprod] at hs
      split_ifs at hs <;> obtain rfl := Option.some.inj hs
      · exact h.finished hfin
      · cases hfin
    | storing v rest wrRaw res =>
      simp only [hprod] at hs
      obtain rfl := Option.some.inj hs
      cases rest <;> cases hfin
    | checkingDone =>
      simp only [hprod] at hs
      obtain rfl := Option.some.inj hs
      revert hfin
      dsimp only
      split <;> simp
    | writing | reading =>
      simp only [hprod] at hs
      obtain rfl := Option.some.inj hs
      cases hfin

theorem Live.step_work (hvs : vs.length < 2 ^ 64) (h : Live g vs s)
    (hs : MultiCons.step g s a = some s') : work vs s' < work vs s ∨ Unmoved s s' := by
  cases a with
  | producer => exact (h.toInv.producerStep_work hvs hs).imp_right And.left
  | consumer c => exact h.toInv.consumerStep_work hs

/-- A recurring thread gets to its goal or does some work, if it comes closer to one of the two
with every step of its own and to neither with the steps of others. -/
theorem leadsTo_work {acts : ℕ → Action κ} {s₀ s₁ : State κ α} {t : ℕ} (goal : State κ α → Prop)
    (rank : State κ α → ℕ) (hvs : vs.length < 2 ^ 64) (hfair : Recurs acts a)
    (hact : ∀ s, Live g vs s → Unmoved s₁ s → ¬goal s → ∃ s', step g s a = some s' ∧
      (work vs s' < work vs s ∨ rank s' < rank s))
    (hother : ∀ s b s', b ≠ a → step g s b = some s' → Unmoved s s' → rank s' = rank s)
    (ht : Live g vs (stateAt (step g) s₀ acts t))
    (hunmoved : Unmoved s₁ (stateAt (step g) s₀ acts t)) :
    ∃ u, t ≤ u ∧ (work vs (stateAt (step g) s₀ acts u) < work vs s₁ ∨
      goal (stateAt (step g) s₀ acts u)) := by
  have hwork : ∀ {s : State κ α}, Unmoved s₁ s → work vs s = work vs s₁ := by
    intro s hu
    rw [work, work, hu.rdIdxRaw, hu.wrIdxRaw, hu.done]
  by_cases hgoal : goal (stateAt (step g) s₀ acts t)
  · exact ⟨t, Nat.le_refl t, .inr hgoal⟩
  -- a step does some work, reaches the goal, or leaves everything as it was
  have hstep : ∀ s b s', (Live g vs s ∧ Unmoved s₁ s ∧ ¬goal s) → step g s b = some s' →
      (work vs s' < work vs s₁ ∨ goal s') ∨
        (Live g vs s' ∧ Unmoved s₁ s' ∧ ¬goal s') ∧ Unmoved s s' := by
    rintro s b s' ⟨hlive, hu, -⟩ hs
    rw [← hwork hu]
    cases hlive.step_work hvs hs with
    | inl hless => exact .inl (.inl hless)
    | inr hsame =>
      by_cases hg : goal s'
      · exact .inl (.inr hg)
      · have hu' : Unmoved s₁ s' := ⟨hsame.rdIdxRaw.trans hu.rdIdxRaw,
          hsame.wrIdxRaw.trans hu.wrIdxRaw, hsame.done.trans hu.done⟩
        exact .inr ⟨⟨hlive.step hvs hs, hu', hg⟩, hsame⟩
  refine leadsTo_of_rank (P := fun s => Live g vs s ∧ Unmoved s₁ s ∧ ¬goal s)
    (Q := fun s => work vs s < work vs s₁ ∨ goal s) rank hfair ?_ ?_ ⟨ht, hunmoved, hgoal⟩
  · intro s b s' hs hb
    refine (hstep s b s' hs hb).imp_right fun hkept => ⟨hkept.1, ?_⟩
    by_cases hba : b = a
    · subst hba
      obtain ⟨r, hr, hcloser⟩ := hact s hs.1 hs.2.1 hs.2.2
      obtain rfl := Option.some.inj (hb.symm.trans hr)
      cases hcloser with
      | inl hless => exact absurd hless (by rw [hwork hkept.1.2.1, hwork hs.2.1]; exact lt_irrefl _)
      | inr hless => exact hless.le
    · exact (hother s b s' hba hb hkept.2).le
  · intro s hs
    obtain ⟨r, hr, hcloser⟩ := hact s hs.1 hs.2.1 hs.2.2
    refine ⟨r, hr, ?_⟩
    rw [hwork hs.2.1] at hcloser
    cases hcloser with
    | inl hless => exact .inl (.inl hless)
    | inr hless => exact (hstep s a r hs hr).imp_right fun hkept => ⟨hkept.1, hless⟩

theorem cons_of_step_other {b : Action κ} (hb : b ≠ .consumer c)
    (hs : step g s b = some s') : s'.cons c = s.cons c := by
  cases b with
  | producer => exact congrFun (producerStep_frame hs).2.1 c
  | consumer d => exact consumerStep_cons hs fun hcd => hb (congrArg Action.consumer hcd.symm)

theorem prod_of_step_other {b : Action κ} (hb : b ≠ .producer)
    (hs : step g s b = some s') : s'.prod = s.prod := by
  cases b with
  | producer => exact absurd rfl hb
  | consumer d =>
    obtain ⟨-, pc, rfl⟩ | ⟨res, -, rfl⟩ := consumerStep_cases hs
    · rfl
    · rfl

section
variable {acts : ℕ → Action κ} {s₀ : State κ α} {t : ℕ}

theorem work_of_nonempty (hvs : vs.length < 2 ^ 64) (hcons : Recurs acts (.consumer c))
    (ht : Live g vs (stateAt (step g) s₀ acts t))
    (hne : (stateAt (step g) s₀ acts t).rdIdxRaw ≠ (stateAt (step g) s₀ acts t).wrIdxRaw) :
    ∃ u, t ≤ u ∧ work vs (stateAt (step g) s₀ acts u) < work vs (stateAt (step g) s₀ acts t) := by
  have hleads := leadsTo_work (fun _ => False) (fun s => popRank s.rdIdxRaw (s.cons c)) hvs hcons
    (fun s hlive hu _ => ?_) (fun s b s' hb hs hsame => ?_) ht (.refl _)
  · obtain ⟨u, hu, hless⟩ := hleads
    exact ⟨u, hu, hless.resolve_right id⟩
  · have hne' : s.rdIdxRaw ≠ s.wrIdxRaw := by
      rw [hu.rdIdxRaw, hu.wrIdxRaw]
      exact hne
    obtain ⟨s', hs', hprogress⟩ := hlive.consumerStep_pops hne'
    exact ⟨s', hs', hprogress.imp_right And.right⟩
  · rw [hsame.rdIdxRaw, cons_of_step_other hb hs]

/-- It is the producer's turn when the buffer is empty. -/
theorem work_of_notDone (hn : vs = [] ∨ 2 ≤ g.cellCount) (hvs : vs.length < 2 ^ 64)
    (hprod : Recurs acts .producer) (ht : Live g vs (stateAt (step g) s₀ acts t))
    (heq : (stateAt (step g) s₀ acts t).rdIdxRaw = (stateAt (step g) s₀ acts t).wrIdxRaw)
    (hdone : (stateAt (step g) s₀ acts t).done = false) :
    ∃ u, t ≤ u ∧ work vs (stateAt (step g) s₀ acts u) < work vs (stateAt (step g) s₀ acts t) := by
  have hleads := leadsTo_work (fun _ => False) (fun s => pushRank s.prod) hvs hprod
    (fun s hlive hu _ => ?_) (fun s b s' hb hs _ => ?_) ht (.refl _)
  · obtain ⟨u, hu, hless⟩ := hleads
    exact ⟨u, hu, hless.resolve_right id⟩
  · have hstuck : ¬Stuck g s := hlive.not_stuck hn (by rw [hu.rdIdxRaw, hu.wrIdxRaw, heq])
    have hok := hlive.producer
    obtain ⟨s', hs'⟩ : ∃ s', producerStep g s = some s' := by
      cases hpc : s.prod with
      | finished =>
        have hset := hlive.finished hpc
        rw [hu.done, hdone] at hset
        cases hset
      | assertFailed =>
        rw [hpc] at hok
        exact hok.elim
      | loading v rest =>
        have hfull : s.rdIdxRaw ≠ g.rdFullVal s.wrIdxRaw := fun h => hstuck ⟨h, v, rest, hpc⟩
        simp [producerStep, hpc, hfull]
      | _ => simp [producerStep, hpc]
    refine ⟨s', hs', ?_⟩
    exact (hlive.producerStep_work hvs hs').imp_right fun hkept => hkept.2 hstuck
  · rw [prod_of_step_other hb hs]

/-- The consumer leaves the empty buffer that the producer is done with. -/
theorem leaves_of_done (hvs : vs.length < 2 ^ 64) (hcons : Recurs acts (.consumer c))
    (ht : Live g vs (stateAt (step g) s₀ acts t))
    (heq : (stateAt (step g) s₀ acts t).rdIdxRaw = (stateAt (step g) s₀ acts t).wrIdxRaw)
    (hdone : (stateAt (step g) s₀ acts t).done = true) :
    ∃ u, t ≤ u ∧ (work vs (stateAt (step g) s₀ acts u) < work vs (stateAt (step g) s₀ acts t) ∨
      (stateAt (step g) s₀ acts u).cons c = .left) := by
  refine leadsTo_work (fun s : State κ α => s.cons c = .left) (fun s => leaveRank (s.cons c))
    hvs hcons (fun s hlive hu hgoal => ?_) (fun s b s' hb hs _ => ?_) ht (.refl _)
  · have heq' : s.rdIdxRaw = s.wrIdxRaw := by rw [hu.rdIdxRaw, hu.wrIdxRaw, heq]
    obtain ⟨s', hs', hless⟩ := hlive.consumerStep_leaves heq' (hu.done.trans hdone) hgoal
    exact ⟨s', hs', .inr hless⟩
  · rw [cons_of_step_other hb hs]

theorem exists_left (hn : vs = [] ∨ 2 ≤ g.cellCount) (hvs : vs.length < 2 ^ 64)
    (hprod : Recurs acts .producer) (hcons : Recurs acts (.consumer c)) (h : Live g vs s₀) :
    ∃ t, (stateAt (step g) s₀ acts t).cons c = .left := by
  have hdescent : ∀ t, Live g vs (stateAt (step g) s₀ acts t) → ∃ u, t ≤ u ∧
      ((stateAt (step g) s₀ acts u).cons c = .left ∨ Live g vs (stateAt (step g) s₀ acts u) ∧
        work vs (stateAt (step g) s₀ acts u) < work vs (stateAt (step g) s₀ acts t)) := by
    intro t ht
    have hlive : ∀ {u}, t ≤ u → Live g vs (stateAt (step g) s₀ acts u) :=
      stateAt_stays (fun _ _ _ hs hstep => hs.step hvs hstep) ht
    by_cases heq : (stateAt (step g) s₀ acts t).rdIdxRaw = (stateAt (step g) s₀ acts t).wrIdxRaw
    · cases hdone : (stateAt (step g) s₀ acts t).done with
      | true =>
        obtain ⟨u, hu, hless | hleft⟩ := leaves_of_done hvs hcons ht heq hdone
        · exact ⟨u, hu, .inr ⟨hlive hu, hless⟩⟩
        · exact ⟨u, hu, .inl hleft⟩
      | false =>
        obtain ⟨u, hu, hless⟩ := work_of_notDone hn hvs hprod ht heq hdone
        exact ⟨u, hu, .inr ⟨hlive hu, hless⟩⟩
    · obtain ⟨u, hu, hless⟩ := work_of_nonempty hvs hcons ht heq
      exact ⟨u, hu, .inr ⟨hlive hu, hless⟩⟩
  obtain ⟨t, -, hleft⟩ := leadsTo_of_descent (P := Live g vs)
    (Q := fun s : State κ α => s.cons c = .left)
    (work vs) hdescent (t := 0) h
  exact ⟨t, hleft⟩

/-- A producer that has a value for a buffer of one cell goes on finding it full. -/
theorem loading_of_one (hone : g.cellCount = 1) (hvs : vs.length < 2 ^ 64)
    (h : Live g vs s₀) (hprod : ∃ v rest, s₀.prod = .loading v rest) (t : ℕ) :
    ∃ v rest, (stateAt (step g) s₀ acts t).prod = .loading v rest := by
  refine (stateAt_stays (P := fun s : State κ α => Live g vs s ∧ ∃ v rest, s.prod = .loading v rest)
    (fun s a s' hs hstep => ?_) (t := 0) ⟨h, hprod⟩ (Nat.zero_le t)).2
  obtain ⟨hlive, v, rest, hpc⟩ := hs
  refine ⟨hlive.step hvs hstep, ?_⟩
  by_cases ha : a = .producer
  · subst ha
    have hrd := hlive.rd_le
    have hroom := hlive.room
    have hfull : s.rdIdxRaw = g.rdFullVal s.wrIdxRaw :=
      (g.eq_rdFullVal_iff hrd (by omega)).mpr (by omega)
    change producerStep g s = some s' at hstep
    simp only [producerStep, hpc, hfull, if_true] at hstep
    obtain rfl := Option.some.inj hstep
    exact ⟨v, rest, hpc⟩
  · exact ⟨v, rest, (prod_of_step_other ha hstep).trans hpc⟩

theorem exists_runsOut (hn : vs = [] ∨ 2 ≤ g.cellCount) (hvs : vs.length < 2 ^ 64)
    (hprod : Recurs acts .producer) (hcons : Recurs acts (.consumer c)) (h : Live g vs s₀) :
    ∃ t, ∀ u, t ≤ u → RunsOut g vs c (stateAt (step g) s₀ acts u) := by
  obtain ⟨t, hleft⟩ := exists_left hn hvs hprod hcons h
  refine ⟨t, fun u hu => runsOut_of_left
    (stateAt_stays (fun _ _ _ hs hstep => hs.step hvs hstep) h (Nat.zero_le u)) ?_⟩
  refine stateAt_stays (P := fun s : State κ α => s.cons c = .left) (fun s a s' hs hstep => ?_)
    hleft hu
  by_cases ha : a = .consumer c
  · subst ha
    change consumerStep g s c = some s' at hstep
    simp [consumerStep, hs] at hstep
  · rw [cons_of_step_other ha hstep, hs]

end

/-- The other consumers may stop anywhere, or never start. -/
theorem runsOut_iff (g : Geometry) (mBuf : ℕ → α) (hvs : vs.length < 2 ^ 64) {acts : ℕ → Action κ}
    (hprod : Recurs acts .producer) (hcons : Recurs acts (.consumer c)) :
    (∃ t, ∀ u, t ≤ u → RunsOut g vs c (stateAt (step g) (init mBuf vs) acts u)) ↔
      vs = [] ∨ 2 ≤ g.cellCount := by
  constructor
  · rintro ⟨t, hout⟩
    by_contra hno
    obtain ⟨hvs', hcells⟩ := not_or.mp hno
    have hone : g.cellCount = 1 := by
      have hpos := g.cellCount_pos
      omega
    obtain ⟨v, rest, rfl⟩ := List.exists_cons_of_ne_nil hvs'
    have hlive : Live g (v :: rest) (init mBuf (v :: rest) : State κ α) :=
      live_init g mBuf (v :: rest)
    obtain ⟨w, ws, hloading⟩ := loading_of_one hone hvs hlive ⟨v, rest, rfl⟩ t
    have hfin := (hout t (Nat.le_refl t)).prod
    rw [hloading] at hfin
    cases hfin
  · exact fun hn => exists_runsOut hn hvs hprod hcons (live_init g mBuf vs)

/-- The producer and one consumer take turns, while a second consumer stands still. -/
def takingTurns (t : ℕ) : Action Bool := if t % 2 = 0 then .producer else .consumer true

theorem recurs_takingTurns :
    Recurs takingTurns .producer ∧ Recurs takingTurns (.consumer true) := by
  constructor
  · intro t
    refine ⟨2 * t, by omega, ?_⟩
    simp [takingTurns]
  · intro t
    refine ⟨2 * t + 1, by omega, ?_⟩
    simp [takingTurns, Nat.add_mod]

theorem runsOut_takingTurns : ∃ t, ∀ u, t ≤ u →
    RunsOut ⟨4, 2, rfl⟩ [7, 8] true
      (stateAt (step ⟨4, 2, rfl⟩) (init (fun _ => 0) [7, 8]) takingTurns u) :=
  (runsOut_iff ⟨4, 2, rfl⟩ (fun _ => 0) (by decide) recurs_takingTurns.1
    recurs_takingTurns.2).mpr (.inr (by decide))

end MultiCons
end JevMachO

import JevMachO.Common
import JevMachO.Lib.Transition
import JevMachO.RingBuffer.Index

/-! One producer and one consumer on a plain ring buffer. Both advance their index before they
touch the element: the spare cell keeps the producer off an element that is still being moved out,
but nothing keeps the consumer off an element that is still to be constructed. -/
namespace JevMachO
open Lib

namespace SingleProd

/-- Where the producer is: in `full()`, until it is false, and then in `emplace`. -/
inductive ProdPc (α : Type) where
  | fullWr
  | fullRd (wr : UInt64)
  | assertWr (v : α)
  | assertRd (v : α) (wr : UInt64)
  | loadingWr (v : α)
  | storingWr (v : α) (wrRaw : UInt64)
  | constructing (v : α) (wrRaw : UInt64)
  | assertFailed
  deriving DecidableEq

/-- Where the consumer is inside `pop`. -/
inductive ConsPc where
  | emptyRd
  | emptyWr (rd : UInt64)
  | loadingRd
  | storingRd (rdRaw : UInt64)
  | moving (rdRaw : UInt64)
  | assertFailed
  deriving DecidableEq

/-- The buffer and three histories: the values `emplace` was called with, those whose construction
completed, and those pops returned. -/
structure State (α : Type) where
  mBuf : ℕ → α
  rdIdxRaw : UInt64
  wrIdxRaw : UInt64
  emplaced : List α
  constructed : List α
  popped : List α
  prod : ProdPc α
  cons : ConsPc

/-- A step of the producer, with the value it emplaces when it finds the buffer not full, or a
step of the consumer. -/
inductive Action (α : Type) where
  | producer (v : α)
  | consumer
  deriving DecidableEq

variable {α : Type} (g : Geometry) (movedFrom : α → α)

def producerStep (s : State α) (v : α) : Option (State α) :=
  match s.prod with
  | .fullWr => some { s with prod := .fullRd s.wrIdxRaw }
  | .fullRd wr =>
    if ¬s.rdIdxRaw ≤ wr then some { s with prod := .assertFailed }
    else if s.rdIdxRaw = g.rdFullVal wr then some { s with prod := .fullWr }
    else some { s with prod := .assertWr v, emplaced := s.emplaced ++ [v] }
  | .assertWr v => some { s with prod := .assertRd v s.wrIdxRaw }
  | .assertRd v wr =>
    if ¬s.rdIdxRaw ≤ wr then some { s with prod := .assertFailed }
    else if s.rdIdxRaw = g.rdFullVal wr then some { s with prod := .assertFailed }
    else some { s with prod := .loadingWr v }
  | .loadingWr v => some { s with prod := .storingWr v s.wrIdxRaw }
  | .storingWr v wrRaw => some { s with wrIdxRaw := wrRaw + 1, prod := .constructing v wrRaw }
  | .constructing v wrRaw =>
    some { s with
      mBuf := Function.update s.mBuf (g.slot wrRaw) v
      constructed := s.constructed ++ [v]
      prod := .fullWr }
  | .assertFailed => none

def consumerStep (s : State α) : Option (State α) :=
  match s.cons with
  | .emptyRd => some { s with cons := .emptyWr s.rdIdxRaw }
  | .emptyWr rd =>
    if ¬rd ≤ s.wrIdxRaw then some { s with cons := .assertFailed }
    else if rd = s.wrIdxRaw then some { s with cons := .emptyRd }
    else some { s with cons := .loadingRd }
  | .loadingRd => some { s with cons := .storingRd s.rdIdxRaw }
  | .storingRd rdRaw => some { s with rdIdxRaw := rdRaw + 1, cons := .moving rdRaw }
  | .moving rdRaw =>
    let v := s.mBuf (g.slot rdRaw)
    some { s with
      mBuf := Function.update s.mBuf (g.slot rdRaw) (movedFrom v)
      popped := s.popped ++ [v]
      cons := .emptyRd }
  | .assertFailed => none

/-- A failed assertion has ended the process. -/
def State.aborted (s : State α) : Bool :=
  match s.prod, s.cons with
  | .assertFailed, _ => true
  | _, .assertFailed => true
  | _, _ => false

def step (s : State α) (a : Action α) : Option (State α) :=
  if s.aborted then none
  else
    match a with
    | .producer v => producerStep g s v
    | .consumer => consumerStep g movedFrom s

/-- A buffer after construction, the two threads about to use it. -/
def init (mBuf : ℕ → α) : State α where
  mBuf := mBuf
  rdIdxRaw := 0
  wrIdxRaw := 0
  emplaced := []
  constructed := []
  popped := []
  prod := .fullWr
  cons := .emptyRd

/-- Pops have returned, in order, values of completed constructions, and these are the values
emplaced first. -/
def PopsConstructed (s : State α) : Prop :=
  s.popped <+: s.constructed ∧ s.constructed <+: s.emplaced

/-- The consumer does not move out the element whose index the producer has published and whose
construction it has still to do. -/
def StepOk (s : State α) : Action α → Prop
  | .producer _ => True
  | .consumer =>
    match s.cons, s.prod with
    | .moving rdRaw, .constructing _ wrRaw => rdRaw ≠ wrRaw
    | _, _ => True

instance (s : State α) : ∀ a : Action α, Decidable (StepOk s a)
  | .producer _ => .isTrue trivial
  | .consumer =>
    match hc : s.cons, hp : s.prod with
    | .moving rdRaw, .constructing _ wrRaw =>
      decidable_of_iff (rdRaw ≠ wrRaw) (by simp [StepOk, hc, hp])
    | .moving _, .fullWr | .moving _, .fullRd _ | .moving _, .assertWr _
    | .moving _, .assertRd _ _ | .moving _, .loadingWr _ | .moving _, .storingWr _ _
    | .moving _, .assertFailed | .emptyRd, _ | .emptyWr _, _ | .loadingRd, _ | .storingRd _, _
    | .assertFailed, _ => .isTrue (by simp [StepOk, hc, hp])

/-! ### The invariant -/

/-- How often the write index has been incremented. -/
def State.wrCount (s : State α) : ℕ :=
  s.constructed.length +
    match s.prod with
    | .constructing _ _ => 1
    | _ => 0

/-- How often the read index has been incremented. -/
def State.rdCount (s : State α) : ℕ :=
  s.popped.length +
    match s.cons with
    | .moving _ => 1
    | _ => 0

/-- What the producer knows: the value it emplaces is the last one, the write index is the one it
has read, and past its checks there is room for one more. -/
def ProdOk (s : State α) : Prop :=
  match s.prod with
  | .fullWr => s.emplaced = s.constructed
  | .fullRd wr => s.emplaced = s.constructed ∧ wr = s.wrIdxRaw
  | .assertWr v => s.emplaced = s.constructed ++ [v]
  | .assertRd v wr => s.emplaced = s.constructed ++ [v] ∧ wr = s.wrIdxRaw
  | .loadingWr v => s.emplaced = s.constructed ++ [v] ∧ s.wrCount + 1 < s.rdCount + g.cellCount
  | .storingWr v wrRaw => s.emplaced = s.constructed ++ [v] ∧ wrRaw = s.wrIdxRaw ∧
      s.wrCount + 1 < s.rdCount + g.cellCount
  | .constructing v wrRaw => s.emplaced = s.constructed ++ [v] ∧
      wrRaw = UInt64.ofNat s.constructed.length
  | .assertFailed => s.constructed <+: s.emplaced

/-- What the consumer knows: the read index is the one it has read, and past its check there is an
element behind it. -/
def ConsOk (s : State α) : Prop :=
  match s.cons with
  | .emptyWr rd => rd = s.rdIdxRaw
  | .loadingRd => s.rdCount < s.wrCount
  | .storingRd rdRaw => rdRaw = s.rdIdxRaw ∧ s.rdCount < s.wrCount
  | .moving rdRaw => rdRaw = UInt64.ofNat s.popped.length
  | _ => True

/-- The raw indices count, wrapping, what was published and claimed; the constructed values not
yet popped are in their cells. -/
structure Inv (s : State α) : Prop where
  wr : s.wrIdxRaw = UInt64.ofNat s.wrCount
  rd : s.rdIdxRaw = UInt64.ofNat s.rdCount
  rd_le : s.rdCount ≤ s.wrCount
  room : s.wrCount < s.rdCount + g.cellCount
  live : ∀ i, s.popped.length ≤ i → i < s.constructed.length →
    s.constructed[i]? = some (s.mBuf (i % g.cellCount))
  popped : s.popped <+: s.constructed
  producer : ProdOk g s
  consumer : ConsOk s

variable {g movedFrom} {s s' : State α}

theorem Inv.init (mBuf : ℕ → α) : Inv g (init mBuf) where
  wr := rfl
  rd := rfl
  rd_le := Nat.le_refl 0
  room := by
    have hpos := g.cellCount_pos
    simpa [SingleProd.init, State.wrCount, State.rdCount] using hpos
  live i _ hi := absurd hi (Nat.not_lt_zero i)
  popped := List.nil_prefix
  producer := rfl
  consumer := trivial

theorem Inv.emplaced (h : Inv g s) : s.constructed <+: s.emplaced := by
  have hp := h.producer
  unfold ProdOk at hp
  split at hp
  case h_1 => exact hp ▸ List.prefix_rfl
  case h_2 => exact hp.1 ▸ List.prefix_rfl
  case h_3 => exact hp ▸ List.prefix_append _ _
  case h_8 => exact hp
  all_goals exact hp.1 ▸ List.prefix_append _ _

theorem Inv.popsConstructed (h : Inv g s) : PopsConstructed s := ⟨h.popped, h.emplaced⟩

/-! ### Frames -/

theorem ProdOk.mono (h : ProdOk g s) (hprod : s'.prod = s.prod) (hemp : s'.emplaced = s.emplaced)
    (hcon : s'.constructed = s.constructed) (hwr : s'.wrIdxRaw = s.wrIdxRaw)
    (hrd : s.rdCount ≤ s'.rdCount) : ProdOk g s' := by
  have hcount : s'.wrCount = s.wrCount := by
    unfold State.wrCount
    rw [hprod, hcon]
  unfold ProdOk at h ⊢
  rw [hprod, hemp, hcon, hwr, hcount]
  cases hp : s.prod with
  | loadingWr v =>
    simp only [hp] at h ⊢
    exact ⟨h.1, by omega⟩
  | storingWr v wrRaw =>
    simp only [hp] at h ⊢
    exact ⟨h.1, h.2.1, by omega⟩
  | _ => simpa only [hp] using h

theorem ConsOk.mono (h : ConsOk s) (hcons : s'.cons = s.cons) (hpop : s'.popped = s.popped)
    (hrd : s'.rdIdxRaw = s.rdIdxRaw) (hwr : s.wrCount ≤ s'.wrCount) : ConsOk s' := by
  have hcount : s'.rdCount = s.rdCount := by
    unfold State.rdCount
    rw [hcons, hpop]
  unfold ConsOk at h ⊢
  rw [hcons, hpop, hrd, hcount]
  cases hc : s.cons with
  | loadingRd =>
    simp only [hc] at h ⊢
    omega
  | storingRd rdRaw =>
    simp only [hc] at h ⊢
    exact ⟨h.1, by omega⟩
  | emptyRd => trivial
  | assertFailed => trivial
  | _ => simpa only [hc] using h

/-- A step of the producer that publishes and constructs nothing. -/
theorem Inv.setProd (h : Inv g s) {pc : ProdPc α} {vs : List α}
    (hcount : State.wrCount { s with prod := pc, emplaced := vs } = s.wrCount)
    (hpc : ProdOk g { s with prod := pc, emplaced := vs }) :
    Inv g { s with prod := pc, emplaced := vs } where
  wr := by rw [hcount]; exact h.wr
  rd := h.rd
  rd_le := by rw [hcount]; exact h.rd_le
  room := by rw [hcount]; exact h.room
  live := h.live
  popped := h.popped
  producer := hpc
  consumer := h.consumer.mono rfl rfl rfl (Nat.le_of_eq hcount.symm)

/-- A step of the consumer that claims and moves nothing. -/
theorem Inv.setCons (h : Inv g s) {pc : ConsPc}
    (hcount : State.rdCount { s with cons := pc } = s.rdCount)
    (hpc : ConsOk { s with cons := pc }) : Inv g { s with cons := pc } where
  wr := h.wr
  rd := by rw [hcount]; exact h.rd
  rd_le := by rw [hcount]; exact h.rd_le
  room := by rw [hcount]; exact h.room
  live := h.live
  popped := h.popped
  producer := h.producer.mono rfl rfl rfl rfl (Nat.le_of_eq hcount.symm)
  consumer := hpc

/-! ### The steps -/

/-- The producer's checks against a read index that has not been seen full. -/
theorem Inv.room_of_not_full (h : Inv g s) (hfull : s.rdIdxRaw ≠ g.rdFullVal s.wrIdxRaw) :
    s.wrCount + 1 < s.rdCount + g.cellCount := by
  rw [h.wr, h.rd] at hfull
  exact g.room_of_count h.rd_le h.room hfull

theorem Inv.some_of_not_empty (h : Inv g s) (hempty : s.rdIdxRaw ≠ s.wrIdxRaw) :
    s.rdCount < s.wrCount := by
  rw [h.wr, h.rd] at hempty
  have hne : s.rdCount ≠ s.wrCount := fun heq => hempty (congrArg _ heq)
  have hle := h.rd_le
  omega

/-- Publishing: the write index counts the element that is about to be constructed. -/
theorem Inv.storeWr (h : Inv g s) {v : α} {wrRaw : UInt64} (hp : s.prod = .storingWr v wrRaw) :
    Inv g { s with wrIdxRaw := wrRaw + 1, prod := .constructing v wrRaw } := by
  have hprod := h.producer
  simp only [ProdOk, hp] at hprod
  obtain ⟨hemp, rfl, hroom⟩ := hprod
  have hold : s.wrCount = s.constructed.length := by
    unfold State.wrCount
    rw [hp, Nat.add_zero]
  have hwr := h.wr
  have hle := h.rd_le
  rw [hold] at hroom hwr hle
  exact {
    wr := by
      change s.wrIdxRaw + 1 = UInt64.ofNat (s.constructed.length + 1)
      rw [hwr, UInt64.ofNat_add]
      rfl
    rd := h.rd
    rd_le := Nat.le_succ_of_le hle
    room := hroom
    live := h.live
    popped := h.popped
    producer := ⟨hemp, hwr⟩
    consumer := h.consumer.mono rfl rfl rfl (hold ▸ Nat.le_succ _) }

/-- Constructing: the cell is not one of those behind the read index, by the spare cell. -/
theorem Inv.construct (h : Inv g s) {v : α} {wrRaw : UInt64}
    (hp : s.prod = .constructing v wrRaw) :
    Inv g { s with
      mBuf := Function.update s.mBuf (g.slot wrRaw) v
      constructed := s.constructed ++ [v]
      prod := .fullWr } := by
  have hprod := h.producer
  simp only [ProdOk, hp] at hprod
  obtain ⟨hemp, rfl⟩ := hprod
  have hold : s.wrCount = s.constructed.length + 1 := by
    unfold State.wrCount
    rw [hp]
  have hnew : State.wrCount { s with
      mBuf := Function.update s.mBuf (g.slot (UInt64.ofNat s.constructed.length)) v
      constructed := s.constructed ++ [v]
      prod := .fullWr } = s.wrCount := by
    rw [hold]
    simp [State.wrCount]
  have hpoplen : s.rdCount ≤ s.popped.length + 1 := by
    unfold State.rdCount
    split <;> omega
  have hroom := h.room
  refine ⟨hnew ▸ h.wr, h.rd, hnew ▸ h.rd_le, hnew ▸ h.room, fun i hlo hi => ?_,
    h.popped.trans (List.prefix_append _ _), hemp,
    h.consumer.mono rfl rfl rfl (hnew ▸ Nat.le_refl _)⟩
  dsimp only at hlo hi ⊢
  rw [g.slot_ofNat]
  rw [List.length_append, List.length_singleton] at hi
  rcases Nat.lt_or_eq_of_le (Nat.le_of_lt_succ hi) with hlt | rfl
  · rw [List.getElem?_append_left hlt, h.live i hlo hlt]
    exact congrArg some (Ring.write_of_ne (Ring.mod_ne hlt (by omega))).symm
  · rw [List.getElem?_concat_length]
    exact congrArg some Ring.write_self.symm

theorem Inv.producerStep (h : Inv g s) {v : α} (hs : producerStep g s v = some s') :
    Inv g s' := by
  have hprod := h.producer
  unfold ProdOk at hprod
  unfold SingleProd.producerStep at hs
  cases hp : s.prod with
  | fullWr =>
    simp only [hp, Option.some.injEq] at hs hprod
    subst hs
    exact h.setProd (by simp [State.wrCount, hp]) ⟨hprod, rfl⟩
  | fullRd wr =>
    simp only [hp] at hs hprod
    obtain ⟨hemp, rfl⟩ := hprod
    split_ifs at hs
    · obtain rfl := Option.some.inj hs
      exact h.setProd (by simp [State.wrCount, hp]) hemp
    · obtain rfl := Option.some.inj hs
      exact h.setProd (by simp [State.wrCount, hp]) (congrArg (· ++ [v]) hemp)
    · obtain rfl := Option.some.inj hs
      exact h.setProd (by simp [State.wrCount, hp]) h.emplaced
  | assertWr w =>
    simp only [hp, Option.some.injEq] at hs hprod
    subst hs
    exact h.setProd (by simp [State.wrCount, hp]) ⟨hprod, rfl⟩
  | assertRd w wr =>
    simp only [hp] at hs hprod
    obtain ⟨hemp, rfl⟩ := hprod
    split_ifs at hs with _ hfull
    · obtain rfl := Option.some.inj hs
      exact h.setProd (by simp [State.wrCount, hp]) h.emplaced
    · obtain rfl := Option.some.inj hs
      have hcount : State.wrCount { s with prod := .loadingWr w } = s.wrCount := by
        simp [State.wrCount, hp]
      refine h.setProd hcount ⟨hemp, ?_⟩
      rw [hcount]
      exact h.room_of_not_full hfull
    · obtain rfl := Option.some.inj hs
      exact h.setProd (by simp [State.wrCount, hp]) h.emplaced
  | loadingWr w =>
    simp only [hp, Option.some.injEq] at hs hprod
    subst hs
    have hcount : State.wrCount { s with prod := .storingWr w s.wrIdxRaw } = s.wrCount := by
      simp [State.wrCount, hp]
    refine h.setProd hcount ⟨hprod.1, rfl, ?_⟩
    rw [hcount]
    exact hprod.2
  | storingWr w wrRaw =>
    simp only [hp, Option.some.injEq] at hs
    exact hs ▸ h.storeWr hp
  | constructing w wrRaw =>
    simp only [hp, Option.some.injEq] at hs
    exact hs ▸ h.construct hp
  | assertFailed =>
    simp only [hp] at hs
    exact absurd hs (by simp)

/-- Claiming: the element is still live for the consumer that moves it out. -/
theorem Inv.storeRd (h : Inv g s) {rdRaw : UInt64} (hc : s.cons = .storingRd rdRaw) :
    Inv g { s with rdIdxRaw := rdRaw + 1, cons := .moving rdRaw } := by
  have hcons := h.consumer
  simp only [ConsOk, hc] at hcons
  obtain ⟨rfl, hlt⟩ := hcons
  have hold : s.rdCount = s.popped.length := by
    unfold State.rdCount
    rw [hc, Nat.add_zero]
  have hrd := h.rd
  have hroom := h.room
  rw [hold] at hlt hrd hroom
  exact {
    wr := h.wr
    rd := by
      change s.rdIdxRaw + 1 = UInt64.ofNat (s.popped.length + 1)
      rw [hrd, UInt64.ofNat_add]
      rfl
    rd_le := hlt
    room := Nat.lt_of_lt_of_le hroom (Nat.add_le_add_right (Nat.le_succ _) _)
    live := h.live
    popped := h.popped
    producer := h.producer.mono rfl rfl rfl rfl (hold ▸ Nat.le_succ _)
    consumer := hrd }

/-- An element the consumer may move out is constructed: it is the next of the constructed ones. -/
theorem Inv.lt_constructed (h : Inv g s) {rdRaw : UInt64} (hc : s.cons = .moving rdRaw)
    (hok : StepOk s .consumer) : s.popped.length < s.constructed.length := by
  have hcons := h.consumer
  simp only [ConsOk, hc] at hcons
  have hle := h.rd_le
  unfold State.rdCount State.wrCount at hle
  simp only [hc] at hle
  cases hp : s.prod with
  | constructing v wrRaw =>
    have hprod := h.producer
    simp only [ProdOk, hp] at hprod
    simp only [StepOk, hc, hp] at hok
    simp only [hp] at hle
    have hne : s.popped.length ≠ s.constructed.length := by
      intro heq
      exact hok (by rw [hcons, hprod.2, heq])
    omega
  | _ =>
    simp only [hp] at hle
    omega

/-- Moving out: the popped values are one more of the constructed ones. -/
theorem Inv.move (h : Inv g s) {rdRaw : UInt64} (hc : s.cons = .moving rdRaw)
    (hok : StepOk s .consumer) :
    Inv g { s with
      mBuf := Function.update s.mBuf (g.slot rdRaw) (movedFrom (s.mBuf (g.slot rdRaw)))
      popped := s.popped ++ [s.mBuf (g.slot rdRaw)]
      cons := .emptyRd } := by
  have hlt := h.lt_constructed hc hok
  have hcons := h.consumer
  simp only [ConsOk, hc] at hcons
  subst hcons
  rw [g.slot_ofNat]
  have hold : s.rdCount = s.popped.length + 1 := by
    unfold State.rdCount
    rw [hc]
  have hnew : State.rdCount { s with
      mBuf := Function.update s.mBuf (s.popped.length % g.cellCount)
        (movedFrom (s.mBuf (s.popped.length % g.cellCount)))
      popped := s.popped ++ [s.mBuf (s.popped.length % g.cellCount)]
      cons := .emptyRd } = s.rdCount := by
    rw [hold]
    simp [State.rdCount]
  have hwrlen : s.constructed.length ≤ s.wrCount := Nat.le_add_right _ _
  have hroom := h.room
  refine ⟨h.wr, hnew ▸ h.rd, hnew ▸ h.rd_le, hnew ▸ h.room, fun i hlo hi => ?_, ?_,
    h.producer.mono rfl rfl rfl rfl (hnew ▸ Nat.le_refl _), trivial⟩
  · dsimp only at hlo hi ⊢
    rw [List.length_append, List.length_singleton] at hlo
    rw [h.live i (by omega) hi]
    refine congrArg some (Ring.write_of_ne (Ring.mod_ne (i := s.popped.length) ?_ ?_).symm).symm
    · omega
    · omega
  · obtain ⟨rest, hrest⟩ := h.popped
    have hget := h.live s.popped.length (Nat.le_refl _) hlt
    rw [← hrest, List.getElem?_append_right (Nat.le_refl _), Nat.sub_self] at hget
    cases rest with
    | nil => simp at hget
    | cons r rest =>
      obtain rfl := Option.some.inj hget
      exact ⟨rest, by rw [← hrest, List.append_assoc]; rfl⟩

theorem Inv.consumerStep (h : Inv g s) (hok : StepOk s .consumer)
    (hs : consumerStep g movedFrom s = some s') : Inv g s' := by
  have hcons := h.consumer
  unfold ConsOk at hcons
  unfold SingleProd.consumerStep at hs
  cases hc : s.cons with
  | emptyRd =>
    simp only [hc, Option.some.injEq] at hs
    subst hs
    exact h.setCons (by simp [State.rdCount, hc]) rfl
  | emptyWr rd =>
    simp only [hc] at hs hcons
    subst hcons
    split_ifs at hs with _ hempty
    · obtain rfl := Option.some.inj hs
      exact h.setCons (by simp [State.rdCount, hc]) trivial
    · obtain rfl := Option.some.inj hs
      have hcount : State.rdCount { s with cons := .loadingRd } = s.rdCount := by
        simp [State.rdCount, hc]
      exact h.setCons hcount (hcount.trans_lt (h.some_of_not_empty hempty))
    · obtain rfl := Option.some.inj hs
      exact h.setCons (by simp [State.rdCount, hc]) trivial
  | loadingRd =>
    simp only [hc, Option.some.injEq] at hs hcons
    subst hs
    have hcount : State.rdCount { s with cons := .storingRd s.rdIdxRaw } = s.rdCount := by
      simp [State.rdCount, hc]
    exact h.setCons hcount ⟨rfl, hcount.trans_lt hcons⟩
  | storingRd rdRaw =>
    simp only [hc, Option.some.injEq] at hs
    exact hs ▸ h.storeRd hc
  | moving rdRaw =>
    simp only [hc, Option.some.injEq] at hs
    exact hs ▸ h.move hc hok
  | assertFailed =>
    simp only [hc] at hs
    exact absurd hs (by simp)

theorem Inv.step (s : State α) (a : Action α) (s' : State α) (h : Inv g s) (hok : StepOk s a)
    (hs : SingleProd.step g movedFrom s a = some s') : Inv g s' := by
  unfold SingleProd.step at hs
  split_ifs at hs
  cases a with
  | producer v => exact h.producerStep hs
  | consumer => exact h.consumerStep hok hs

/-- A consumer that overtakes the construction returns what no construction put there. -/
theorem Inv.not_popsConstructed (s : State α) (a : Action α) (s' : State α) (h : Inv g s)
    (hok : ¬StepOk s a) (hs : SingleProd.step g movedFrom s a = some s') : ¬PopsConstructed s' := by
  cases a with
  | producer v => exact absurd trivial hok
  | consumer =>
    have hcons := h.consumer
    have hprod := h.producer
    unfold StepOk at hok
    dsimp only at hok
    split at hok
    case h_2 => exact absurd trivial hok
    case h_1 rdRaw v wrRaw hc hp =>
      simp only [ConsOk, hc] at hcons
      simp only [ProdOk, hp] at hprod
      have heq := not_not.mp hok
      rw [hcons, hprod.2] at heq
      have hroom := h.room
      have hle := h.popped.length_le
      have hcount : s.wrCount = s.constructed.length + 1 ∧ s.rdCount = s.popped.length + 1 := by
        constructor
        · unfold State.wrCount
          rw [hp]
        · unfold State.rdCount
          rw [hc]
      have hn := g.staticSizeRaw.toNat_lt
      have hlen : s.popped.length = s.constructed.length := by
        have hmod := congrArg UInt64.toNat heq
        rw [UInt64.toNat_ofNat', UInt64.toNat_ofNat'] at hmod
        unfold Geometry.cellCount at hroom
        omega
      unfold SingleProd.step at hs
      split_ifs at hs
      simp only [SingleProd.consumerStep, hc, Option.some.injEq] at hs
      subst hs
      rintro ⟨hpre, -⟩
      have hlt := hpre.length_le
      simp only [List.length_append, List.length_singleton] at hlt
      omega

/-- Every state of a run has popped constructed values only, in the order of their emplacement,
exactly when the consumer never moves an element out between the producer's publishing and
constructing it. -/
theorem popsConstructed_iff (g : Geometry) (movedFrom : α → α) (mBuf : ℕ → α)
    (as : List (Action α)) (s : State α) (hrun : run (step g movedFrom) (init mBuf) as = some s) :
    Throughout (step g movedFrom) PopsConstructed (init mBuf) as ↔
      RunsWithin (step g movedFrom) StepOk (init mBuf) as :=
  throughout_iff_runsWithin Inv.step (fun _ => Inv.popsConstructed) Inv.not_popsConstructed
    (Inv.init mBuf) hrun

/-- The consumer moves 7 out while the producer has published the next index and not constructed
8 there yet; then the two take turns. -/
def interleaved : List (Action ℕ) :=
  List.replicate 7 (.producer 7) ++ List.replicate 6 (.producer 8) ++ List.replicate 5 .consumer ++
    .producer 8 :: (List.replicate 10 [.producer 9, .consumer]).flatten

theorem popsConstructed_interleaved :
    Throughout (step ⟨4, 2, rfl⟩ fun _ => 0) PopsConstructed (init fun _ => 0) interleaved :=
  (popsConstructed_iff ⟨4, 2, rfl⟩ (fun _ => 0) (fun _ => 0) interleaved _ rfl).mpr (by decide)

/-- The producer has published 9 and not constructed it when the consumer comes by. -/
def overtaken : List (Action ℕ) := List.replicate 6 (.producer 9) ++ List.replicate 5 .consumer

theorem not_popsConstructed_overtaken : ∃ s : State ℕ,
    run (step ⟨4, 2, rfl⟩ id) (init fun _ => 0) overtaken = some s ∧ s.popped = [0] ∧
      s.constructed = [] ∧ ¬PopsConstructed s := by
  refine ⟨_, rfl, rfl, rfl, ?_⟩
  rintro ⟨hpre, -⟩
  exact absurd hpre.length_le (by decide)

end SingleProd
end JevMachO

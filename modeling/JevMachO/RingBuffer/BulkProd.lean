import JevMachO.RingBuffer.Progress

/-! Blocks for several consumers. `emplace_multiple` copies a block to the cells from the write
index on and then publishes it with one addition, so nobody pops an element of a block that is
still being copied; but the copy runs through the mirror and can leave it. -/
namespace JevMachO
open Lib

namespace BulkProd
open MultiCons (Shared ConsPc Action)

/-- Where the producer is: waiting until `remaining()` reports room for the next block, inside
`emplace_multiple`, or in `finish` when there is no block left. -/
inductive ProdPc (α : Type) where
  | waiting (span : List α) (rest : List (List α))
  | asserting (span : List α) (rest : List (List α))
  | locating (span : List α) (rest : List (List α))
  | copying (span : List α) (rest : List (List α)) (dst : ℕ) (left : List α)
  | loadingWr (span : List α) (rest : List (List α))
  | storingWr (span : List α) (rest : List (List α)) (wrRaw : UInt64)
  | checkingDone
  | settingDone
  | finished
  | assertFailed
  | outOfBounds

/-- The buffer and its consumers, with nobody in `emplace`, and the producer of the blocks. -/
structure State (κ α : Type) extends MultiCons.State κ α where
  bulk : ProdPc α

variable {κ α : Type} (g : Geometry)

def remaining (m : Shared α) : UInt64 := g.staticSize - (m.wrIdxRaw - m.rdIdxRaw)

def nextBlock : List (List α) → ProdPc α
  | [] => .checkingDone
  | span :: rest => .waiting span rest

def producerStep (s : State κ α) : Option (State κ α) :=
  match s.bulk with
  | .waiting span rest =>
    if span.length ≤ (remaining g s.toShared).toNat then
      some { s with bulk := .asserting span rest }
    else some s
  | .asserting span rest =>
    if span.length ≤ (remaining g s.toShared).toNat then
      some { s with bulk := .locating span rest }
    else some { s with bulk := .assertFailed }
  | .locating span rest =>
    some { s with bulk := .copying span rest (s.wrIdxRaw &&& g.idxMask).toNat span }
  | .copying span rest _ [] => some { s with bulk := .loadingWr span rest }
  | .copying span rest dst (v :: left) =>
    -- behind the mirror nothing of the buffer is mapped
    if dst < 2 * g.cellCount then
      some { s with
        mBuf := Function.update s.mBuf (dst % g.cellCount) v
        bulk := .copying span rest (dst + 1) left }
    else some { s with bulk := .outOfBounds }
  | .loadingWr span rest => some { s with bulk := .storingWr span rest s.wrIdxRaw }
  | .storingWr span rest wrRaw =>
    some { s with wrIdxRaw := wrRaw + UInt64.ofNat span.length, bulk := nextBlock rest }
  | .checkingDone => some { s with bulk := if s.done then .assertFailed else .settingDone }
  | .settingDone => some { s with done := true, bulk := .finished }
  | .finished => none
  | .assertFailed => none
  | .outOfBounds => none

/-- Nothing is said about what follows a write outside the mapping. -/
def step [DecidableEq κ] (s : State κ α) (a : Action κ) : Option (State κ α) :=
  match s.bulk, a with
  | .outOfBounds, _ => none
  | _, .producer => producerStep g s
  | _, .consumer c =>
    (MultiCons.consumerStep g s.toState c).map fun t => { s with toState := t }

/-- An empty buffer, the producer about to insert the blocks, the consumers about to loop. -/
def init (mBuf : ℕ → α) (blocks : List (List α)) : State κ α where
  toState := { MultiCons.init mBuf [] with prod := .finished }
  bulk := nextBlock blocks

/-- Blocks inserted one after another from an index on all end within the mirror. -/
def AllFit : ℕ → List (List α) → Prop
  | _, [] => True
  | n, span :: rest =>
    n % (2 * g.cellCount) + span.length ≤ 2 * g.cellCount ∧ AllFit (n + span.length) rest

/-! ### The invariant -/

/-- All blocks but the next ones are published, and they have stayed inside the mapping. -/
def Published (blocks next : List (List α)) (m : Shared α) : Prop :=
  ∃ before, blocks = before ++ next ∧ m.wrIdxRaw.toNat = before.flatten.length ∧
    AllFit g 0 before

def Room (span : List α) (m : Shared α) : Prop :=
  m.wrIdxRaw.toNat + span.length < m.rdIdxRaw.toNat + g.cellCount

/-- The cells from the write index on hold the values. -/
def Written (copied : List α) (m : Shared α) : Prop :=
  ∀ i < copied.length, copied[i]? = some (m.mBuf ((m.wrIdxRaw.toNat + i) % g.cellCount))

/-- What the producer knows: which blocks are in, that there is room for the one it inserts, and
how much of that has been copied. -/
def ProdOk (blocks : List (List α)) (m : Shared α) : ProdPc α → Prop
  | .waiting span rest => Published g blocks (span :: rest) m
  | .asserting span rest => Published g blocks (span :: rest) m ∧ Room g span m
  | .locating span rest => Published g blocks (span :: rest) m ∧ Room g span m
  | .copying span rest dst left => Published g blocks (span :: rest) m ∧ Room g span m ∧
      ∃ copied, span = copied ++ left ∧ Written g copied m ∧
        dst = m.wrIdxRaw.toNat % (2 * g.cellCount) + copied.length ∧ dst ≤ 2 * g.cellCount
  | .loadingWr span rest => Published g blocks (span :: rest) m ∧ Room g span m ∧
      Written g span m ∧ m.wrIdxRaw.toNat % (2 * g.cellCount) + span.length ≤ 2 * g.cellCount
  | .storingWr span rest wrRaw => Published g blocks (span :: rest) m ∧ Room g span m ∧
      Written g span m ∧ m.wrIdxRaw.toNat % (2 * g.cellCount) + span.length ≤ 2 * g.cellCount ∧
      wrRaw = m.wrIdxRaw
  | .assertFailed => False
  | .outOfBounds => (∃ next, Published g blocks next m) ∧ ¬AllFit g 0 blocks
  | _ => Published g blocks [] m

/-- To the consumers the values published so far are all there are. -/
structure Inv (blocks : List (List α)) (s : State κ α) : Prop where
  base : MultiCons.Inv g (blocks.flatten.take s.wrIdxRaw.toNat) s.toState
  prod : s.prod = .finished
  done : s.done = true → s.bulk = .finished
  bulk : ProdOk g blocks s.toShared s.bulk

variable {g} {blocks rest next : List (List α)} {span copied left : List α} {m m' : Shared α}
  {s s' : State κ α} {n : ℕ} {v : α}

theorem allFit_append {as bs : List (List α)} :
    AllFit g n (as ++ bs) ↔ AllFit g n as ∧ AllFit g (n + as.flatten.length) bs := by
  induction as generalizing n with
  | nil => simp [AllFit]
  | cons a as ih => simp [AllFit, ih, and_assoc, Nat.add_assoc]

/-- Blocks of a length that divides the mapping's end at its end at the latest. -/
theorem allFit_of_dvd {k : ℕ} (hk : k ∣ 2 * g.cellCount) (hn : k ∣ n)
    (h : ∀ b ∈ blocks, b.length = k) : AllFit g n blocks := by
  induction blocks generalizing n with
  | nil => trivial
  | cons b blocks ih =>
    have hb : b.length = k := h b List.mem_cons_self
    refine ⟨?_, ih (by rw [hb]; exact Nat.dvd_add hn (Nat.dvd_refl k))
      fun b' hb' => h b' (List.mem_cons_of_mem b hb')⟩
    have hpos := g.cellCount_pos
    have hlt : n % (2 * g.cellCount) < 2 * g.cellCount := Nat.mod_lt _ (by omega)
    obtain ⟨a, ha⟩ := (Nat.dvd_mod_iff hk).mpr hn
    obtain ⟨c, hc⟩ := hk
    rw [ha, hc] at hlt ⊢
    rw [hb, ← Nat.mul_succ]
    exact Nat.mul_le_mul_left k (Nat.lt_of_mul_lt_mul_left hlt)

/-! ### Published blocks -/

theorem Published.take_flatten (h : Published g blocks next m) :
    ∃ before, before <+: blocks ∧ m.wrIdxRaw.toNat = before.flatten.length ∧
      blocks.flatten.take m.wrIdxRaw.toNat = before.flatten := by
  obtain ⟨before, rfl, hwr, -⟩ := h
  refine ⟨before, List.prefix_append before next, hwr, ?_⟩
  rw [hwr, List.flatten_append, List.take_left]

theorem Published.drop_flatten (h : Published g blocks next m) :
    blocks.flatten.drop m.wrIdxRaw.toNat = next.flatten := by
  obtain ⟨before, rfl, hwr, -⟩ := h
  rw [hwr, List.flatten_append, List.drop_left]

/-- The next block reaches the end of the mapping and leaves it. -/
theorem Published.not_allFit (h : Published g blocks (span :: rest) m)
    (hlt : 2 * g.cellCount < m.wrIdxRaw.toNat % (2 * g.cellCount) + span.length) :
    ¬AllFit g 0 blocks := by
  obtain ⟨before, rfl, hwr, -⟩ := h
  intro hall
  have hspan := (allFit_append.mp hall).2.1
  rw [Nat.zero_add, ← hwr] at hspan
  omega

/-- Publishing a block that stayed inside the mapping. -/
theorem Published.publish (h : Published g blocks (span :: rest) m)
    (hwr : m'.wrIdxRaw.toNat = m.wrIdxRaw.toNat + span.length)
    (hfit : m.wrIdxRaw.toNat % (2 * g.cellCount) + span.length ≤ 2 * g.cellCount) :
    Published g blocks rest m' := by
  obtain ⟨before, rfl, hbefore, hall⟩ := h
  refine ⟨before ++ [span], by simp, ?_, ?_⟩
  · rw [hwr, hbefore]
    simp
  · rw [hbefore] at hfit
    exact allFit_append.mpr ⟨hall, by rwa [Nat.zero_add], trivial⟩

theorem ProdOk.published {pc : ProdPc α} (h : ProdOk g blocks m pc) :
    ∃ next, Published g blocks next m := by
  cases pc with
  | waiting span rest => exact ⟨_, h⟩
  | assertFailed => exact h.elim
  | outOfBounds => exact h.1
  | checkingDone => exact ⟨_, h⟩
  | settingDone => exact ⟨_, h⟩
  | finished => exact ⟨_, h⟩
  | _ => exact ⟨_, h.1⟩

/-- What a consumer changes leaves the producer's knowledge: the read index grows. -/
theorem ProdOk.mono {pc : ProdPc α} (h : ProdOk g blocks m pc) (hwr : m'.wrIdxRaw = m.wrIdxRaw)
    (hbuf : m'.mBuf = m.mBuf) (hrd : m.rdIdxRaw.toNat ≤ m'.rdIdxRaw.toNat) :
    ProdOk g blocks m' pc := by
  have hpub : ∀ {next}, Published g blocks next m → Published g blocks next m' := by
    intro next hp
    unfold Published
    rw [hwr]
    exact hp
  have hroom : ∀ {span}, Room g span m → Room g span m' := by
    intro span hr
    unfold Room at hr ⊢
    rw [hwr]
    omega
  have hwritten : ∀ {copied}, Written g copied m → Written g copied m' := by
    intro copied hc
    unfold Written
    rw [hwr, hbuf]
    exact hc
  cases pc with
  | waiting span rest => exact hpub h
  | asserting span rest => exact ⟨hpub h.1, hroom h.2⟩
  | locating span rest => exact ⟨hpub h.1, hroom h.2⟩
  | copying span rest dst left =>
    obtain ⟨hp, hr, copied, hspan, hw, hdst, hle⟩ := h
    exact ⟨hpub hp, hroom hr, copied, hspan, hwritten hw, by rw [hwr]; exact hdst, hle⟩
  | loadingWr span rest =>
    exact ⟨hpub h.1, hroom h.2.1, hwritten h.2.2.1, by rw [hwr]; exact h.2.2.2⟩
  | storingWr span rest wrRaw =>
    exact ⟨hpub h.1, hroom h.2.1, hwritten h.2.2.1, by rw [hwr]; exact h.2.2.2.1,
      by rw [hwr]; exact h.2.2.2.2⟩
  | assertFailed => exact h
  | outOfBounds => exact ⟨h.1.imp fun _ hp => hpub hp, h.2⟩
  | checkingDone => exact hpub h
  | settingDone => exact hpub h
  | finished => exact hpub h

theorem prodOk_nextBlock (h : Published g blocks next m) : ProdOk g blocks m (nextBlock next) := by
  cases next with
  | nil => exact h
  | cons span rest => exact h

/-! ### Memory steps -/

/-- `remaining()` is at least the block's length exactly when there is room for it. -/
theorem le_remaining_iff {vs : List α} (h : MultiCons.BufferOk g vs m) :
    span.length ≤ (remaining g m).toNat ↔ Room g span m := by
  have hroom := h.room
  have hrd := h.rd_le
  have hsub := UInt64.toNat_sub_of_le _ _ (UInt64.le_iff_toNat_le.mpr h.rd_le)
  have hle : m.wrIdxRaw - m.rdIdxRaw ≤ g.staticSize := by
    rw [UInt64.le_iff_toNat_le, hsub, g.toNat_staticSize]
    omega
  unfold remaining Room
  rw [UInt64.toNat_sub_of_le _ _ hle, hsub, g.toNat_staticSize]
  omega

theorem Written.snoc (h : Written g copied m) (hlt : copied.length < g.cellCount) :
    Written g (copied ++ [v]) { m with
      mBuf := Function.update m.mBuf ((m.wrIdxRaw.toNat + copied.length) % g.cellCount) v } := by
  intro i hi
  rw [List.length_append, List.length_singleton] at hi
  dsimp only
  by_cases hlast : i = copied.length
  · subst hlast
    rw [Function.update_self, List.getElem?_concat_length]
  · have hne := Ring.mod_ne (n := g.cellCount)
      (show m.wrIdxRaw.toNat + i < m.wrIdxRaw.toNat + copied.length by omega) (by omega)
    rw [Function.update_of_ne hne, List.getElem?_append_left (by omega)]
    exact h i (by omega)

section
variable {vs : List α} {t : MultiCons.State κ α}

/-- A write behind the write index changes no value that can be popped. -/
theorem inv_write {i : ℕ} (h : MultiCons.Inv g vs t) (hprod : t.prod = .finished)
    (hlo : t.wrIdxRaw.toNat ≤ i) (hhi : i < t.rdIdxRaw.toNat + g.cellCount) (v : α) :
    MultiCons.Inv g vs { t with mBuf := Function.update t.mBuf (i % g.cellCount) v } := by
  have hp := h.producer
  rw [hprod] at hp
  refine ⟨⟨h.wr_le, h.rd_le, h.room, fun j hj hjw => ?_, h.popped⟩, h.done, ?_, h.consumers⟩
  · dsimp only at hj hjw ⊢
    rw [Function.update_of_ne (Ring.mod_ne (by omega) (by omega))]
    exact h.live j hj hjw
  · dsimp only
    rw [hprod]
    exact hp

theorem toNat_add_ofNat {i : UInt64} (h : i.toNat + n < 2 ^ 64) :
    (i + UInt64.ofNat n).toNat = i.toNat + n := by
  have hn : (UInt64.ofNat n).toNat = n :=
    UInt64.toNat_ofNat_of_lt (Nat.lt_of_le_of_lt (Nat.le_add_left _ _) h)
  rw [u64_toNat_add (by rw [hn]; exact h), hn]

theorem consOk_publish {pc : ConsPc α} (hwr : m.wrIdxRaw.toNat ≤ m'.wrIdxRaw.toNat)
    (hrd : m'.rdIdxRaw = m.rdIdxRaw) (hdone : m.done = false) (h : MultiCons.ConsOk vs m pc) :
    MultiCons.ConsOk (vs ++ span) m' pc := by
  cases pc with
  | checkingEmpty => exact absurd (hdone.symm.trans h) (by decide)
  | reading rdRaw =>
    refine ⟨hrd ▸ h.1, fun he => ?_⟩
    have := h.2 (he.trans hrd)
    rw [hrd]
    omega
  | exchanging rdRaw res =>
    refine ⟨hrd ▸ h.1, fun he => ?_⟩
    obtain ⟨hlt, hval⟩ := h.2 (he.trans hrd)
    refine ⟨by rw [hrd]; omega, ?_⟩
    rw [List.getElem?_append_left (List.getElem?_eq_some_iff.mp hval).1]
    exact hval
  | left => exact absurd (hdone.symm.trans h.1) (by decide)
  | assertFailed => exact h
  | _ => trivial

/-- A block that has been copied behind the write index is published by one addition. -/
theorem inv_publish (h : MultiCons.Inv g vs t) (hprod : t.prod = .finished)
    (hdone : t.done = false) (hroom : Room g span t.toShared)
    (hwritten : Written g span t.toShared) (hlt : t.wrIdxRaw.toNat + span.length < 2 ^ 64) :
    MultiCons.Inv g (vs ++ span)
      { t with wrIdxRaw := t.wrIdxRaw + UInt64.ofNat span.length } := by
  have hto := toNat_add_ofNat hlt
  have hlen : t.wrIdxRaw.toNat = vs.length := by
    have hp := h.producer
    rw [hprod] at hp
    exact hp
  have hrd := h.rd_le
  refine ⟨⟨?_, ?_, ?_, fun i hi hiw => ?_, ?_⟩, h.done, ?_, fun c => ?_⟩
  · rw [hto, List.length_append, hlen]
  · rw [hto]
    exact hrd.trans (Nat.le_add_right _ _)
  · rw [hto]
    exact hroom
  · dsimp only at hi hiw ⊢
    rw [hto] at hiw
    by_cases hold : i < t.wrIdxRaw.toNat
    · rw [List.getElem?_append_left (by omega)]
      exact h.live i hi hold
    · rw [List.getElem?_append_right (by omega), ← hlen, hwritten _ (by omega),
        Nat.add_sub_cancel' (by omega)]
  · rw [h.popped, List.take_append_of_le_length (hlen ▸ hrd)]
  · dsimp only
    rw [hprod]
    change (t.wrIdxRaw + UInt64.ofNat span.length).toNat = (vs ++ span).length
    rw [hto, List.length_append, hlen]
  · refine consOk_publish (m := t.toShared) ?_ rfl hdone (h.consumers c)
    rw [hto]
    exact Nat.le_add_right _ _

end

/-! ### Steps -/

theorem inv_init (g : Geometry) (mBuf : ℕ → α) (blocks : List (List α)) :
    Inv g blocks (init mBuf blocks : State κ α) where
  base :=
    { MultiCons.inv_init g mBuf [] with
      done := fun _ => rfl
      producer := rfl }
  prod := rfl
  done h := absurd h Bool.false_ne_true
  bulk := prodOk_nextBlock ⟨[], rfl, rfl, trivial⟩

/-- The producer moves on without touching the buffer. -/
theorem Inv.setBulk (h : Inv g blocks s) {pc : ProdPc α} (hdone : s.done = false)
    (hpc : ProdOk g blocks s.toShared pc) : Inv g blocks { s with bulk := pc } where
  base := h.base
  prod := h.prod
  done ht := absurd (hdone.symm.trans ht) (by decide)
  bulk := hpc

theorem Inv.done_eq_false (h : Inv g blocks s) (hne : s.bulk ≠ .finished) : s.done = false := by
  cases hd : s.done with
  | false => rfl
  | true => exact absurd (h.done hd) hne

/-- Copying one element, or finding its place behind the mirror. -/
theorem Inv.copyStep {dst : ℕ} (h : Inv g blocks s)
    (hbulk : s.bulk = .copying span rest dst (v :: left))
    (hs : producerStep g s = some s') : Inv g blocks s' := by
  have hp := h.bulk
  have hd := h.done_eq_false (by rw [hbulk]; simp)
  rw [hbulk] at hp
  obtain ⟨hpub, hroom, copied, hspan, hwritten, hdst, hle⟩ := hp
  have hlen : span.length = copied.length + (left.length + 1) := by
    rw [hspan, List.length_append, List.length_cons]
  unfold producerStep at hs
  simp only [hbulk] at hs
  split_ifs at hs with hin <;> obtain rfl := Option.some.inj hs
  · have hcell : dst % g.cellCount = (s.wrIdxRaw.toNat + copied.length) % g.cellCount := by
      rw [hdst, Nat.add_mod, Nat.mod_mod_of_dvd _ (Nat.dvd_mul_left _ _), ← Nat.add_mod]
    have hlt : s.wrIdxRaw.toNat + copied.length < s.rdIdxRaw.toNat + g.cellCount := by
      unfold Room at hroom
      omega
    have hrd := h.base.rd_le
    rw [hcell]
    refine ⟨inv_write h.base h.prod (Nat.le_add_right _ _) hlt v, h.prod,
      fun ht => absurd (hd.symm.trans ht) (by decide), hpub, hroom, copied ++ [v], ?_, ?_, ?_, hin⟩
    · rw [hspan, List.append_assoc, List.singleton_append]
    · exact hwritten.snoc (by omega)
    · rw [hdst, List.length_append, List.length_singleton, Nat.add_assoc]
  · refine h.setBulk hd ⟨⟨_, hpub⟩, hpub.not_allFit ?_⟩
    omega

theorem Inv.publishStep {wrRaw : UInt64} (hlen : blocks.flatten.length < 2 ^ 64)
    (h : Inv g blocks s) (hbulk : s.bulk = .storingWr span rest wrRaw)
    (hs : producerStep g s = some s') : Inv g blocks s' := by
  have hp := h.bulk
  have hd := h.done_eq_false (by rw [hbulk]; simp)
  rw [hbulk] at hp
  obtain ⟨hpub, hroom, hwritten, hfit, rfl⟩ := hp
  have hdrop := hpub.drop_flatten
  rw [List.flatten_cons] at hdrop
  have hsum : s.wrIdxRaw.toNat + span.length ≤ blocks.flatten.length := by
    have hl := congrArg List.length hdrop
    rw [List.length_drop, List.length_append] at hl
    have hw : s.wrIdxRaw.toNat = (blocks.flatten.take s.wrIdxRaw.toNat).length := by
      have hprod := h.base.producer
      rw [h.prod] at hprod
      exact hprod
    rw [List.length_take] at hw
    omega
  have hto := toNat_add_ofNat (i := s.wrIdxRaw) (n := span.length) (by omega)
  unfold producerStep at hs
  simp only [hbulk] at hs
  obtain rfl := Option.some.inj hs
  refine ⟨?_, h.prod, fun ht => absurd (hd.symm.trans ht) (by decide),
    prodOk_nextBlock (hpub.publish hto hfit)⟩
  have htake : blocks.flatten.take (s.wrIdxRaw.toNat + span.length) =
      blocks.flatten.take s.wrIdxRaw.toNat ++ span := by
    rw [List.take_add, hdrop, List.take_left]
  dsimp only
  rw [hto, htake]
  exact inv_publish h.base h.prod hd hroom hwritten (by omega)

theorem Inv.producerStep (hlen : blocks.flatten.length < 2 ^ 64) (h : Inv g blocks s)
    (hs : producerStep g s = some s') : Inv g blocks s' := by
  have hp := h.bulk
  have hdone := h.done_eq_false
  cases hbulk : s.bulk with
  | storingWr span rest wrRaw => exact h.publishStep hlen hbulk hs
  | copying span rest dst left =>
    cases left with
    | cons v left => exact h.copyStep hbulk hs
    | nil =>
      rw [hbulk] at hp hdone
      obtain ⟨hpub, hroom, copied, hspan, hwritten, hdst, hle⟩ := hp
      rw [List.append_nil] at hspan
      subst hspan
      simp only [BulkProd.producerStep, hbulk] at hs
      obtain rfl := Option.some.inj hs
      exact h.setBulk (hdone (by simp)) ⟨hpub, hroom, hwritten, hdst ▸ hle⟩
  | waiting span rest =>
    rw [hbulk] at hp hdone
    simp only [BulkProd.producerStep, hbulk] at hs
    split_ifs at hs with hroom <;> obtain rfl := Option.some.inj hs
    · exact h.setBulk (hdone (by simp)) ⟨hp, (le_remaining_iff h.base.toBufferOk).mp hroom⟩
    · exact h
  | asserting span rest =>
    rw [hbulk] at hp hdone
    have hroom := (le_remaining_iff h.base.toBufferOk).mpr hp.2
    simp only [BulkProd.producerStep, hbulk, hroom, if_true] at hs
    obtain rfl := Option.some.inj hs
    exact h.setBulk (hdone (by simp)) hp
  | locating span rest =>
    rw [hbulk] at hp hdone
    simp only [BulkProd.producerStep, hbulk] at hs
    obtain rfl := Option.some.inj hs
    have hpos := g.cellCount_pos
    refine h.setBulk (hdone (by simp)) ⟨hp.1, hp.2, [], rfl, fun i hi => ?_, ?_, ?_⟩
    · exact absurd hi (Nat.not_lt_zero i)
    · rw [g.toNat_and_idxMask, List.length_nil, Nat.add_zero]
    · rw [g.toNat_and_idxMask]
      exact (Nat.mod_lt _ (by omega)).le
  | loadingWr span rest =>
    rw [hbulk] at hp hdone
    simp only [BulkProd.producerStep, hbulk] at hs
    obtain rfl := Option.some.inj hs
    exact h.setBulk (hdone (by simp)) ⟨hp.1, hp.2.1, hp.2.2.1, hp.2.2.2, rfl⟩
  | checkingDone =>
    rw [hbulk] at hp hdone
    have hd := hdone (by simp)
    simp only [BulkProd.producerStep, hbulk, hd] at hs
    obtain rfl := Option.some.inj hs
    exact h.setBulk hd hp
  | settingDone =>
    rw [hbulk] at hp hdone
    have hd := hdone (by simp)
    simp only [BulkProd.producerStep, hbulk] at hs
    obtain rfl := Option.some.inj hs
    have hprod := h.base.producer
    rw [h.prod] at hprod
    refine ⟨{ h.base with
      done := fun _ => h.prod
      producer := by dsimp only; rw [h.prod]; exact hprod
      consumers := fun c => MultiCons.consOk_settingDone hd (h.base.consumers c) },
      h.prod, fun _ => rfl, hp⟩
  | finished => simp [BulkProd.producerStep, hbulk] at hs
  | assertFailed => simp [BulkProd.producerStep, hbulk] at hs
  | outOfBounds => simp [BulkProd.producerStep, hbulk] at hs

theorem Inv.consumerStep [DecidableEq κ] {c : κ} {t : MultiCons.State κ α} (h : Inv g blocks s)
    (hs : MultiCons.consumerStep g s.toState c = some t) :
    Inv g blocks { s with toState := t } := by
  have hrd := h.base.rd_le_of_consumerStep hs
  have hbase := h.base.consumerStep hs
  obtain ⟨-, pc, rfl⟩ | ⟨res, -, rfl⟩ := MultiCons.consumerStep_cases hs
  · exact ⟨hbase, h.prod, h.done, h.bulk.mono rfl rfl hrd⟩
  · exact ⟨hbase, h.prod, h.done, h.bulk.mono rfl rfl hrd⟩

theorem Inv.step [DecidableEq κ] (hlen : blocks.flatten.length < 2 ^ 64) {a : Action κ}
    (h : Inv g blocks s) (hs : step g s a = some s') : Inv g blocks s' := by
  unfold BulkProd.step at hs
  split at hs
  · exact absurd hs (by simp)
  · exact h.producerStep hlen hs
  · obtain ⟨t, ht, rfl⟩ := Option.map_eq_some_iff.mp hs
    exact h.consumerStep ht

/-- The values published are those of the first blocks, whole, and what has been popped is a prefix
of them. No assertion fails, a consumer has left only when everything has been popped, and the
producer leaves the mapping instead of finishing when a block runs over the end of the mirror. -/
structure PopsBlocks (g : Geometry) (blocks : List (List α)) (s : State κ α) : Prop where
  whole_blocks : ∃ before, before <+: blocks ∧ s.wrIdxRaw.toNat = before.flatten.length ∧
    s.popped <+: before.flatten
  size_le : s.wrIdxRaw.toNat - s.rdIdxRaw.toNat ≤ g.staticSize.toNat
  producer_ok : s.bulk ≠ .assertFailed
  consumers_ok : ∀ c, s.cons c ≠ .assertFailed
  popped_all : ∀ c, s.cons c = .left → s.popped = blocks.flatten
  fit_of_finished : s.bulk = .finished → AllFit g 0 blocks
  not_fit_of_outOfBounds : s.bulk = .outOfBounds → ¬AllFit g 0 blocks

theorem Inv.popsBlocks (h : Inv g blocks s) : PopsBlocks g blocks s := by
  have hp := h.bulk
  have hbase := h.base
  obtain ⟨next, hpub⟩ := hp.published
  obtain ⟨before, hprefix, hwr, htake⟩ := hpub.take_flatten
  have hpopped := hbase.popped
  rw [htake] at hpopped
  have hroom := hbase.room
  refine ⟨⟨before, hprefix, hwr, ?_⟩, ?_, fun he => ?_, fun c he => ?_, fun c he => ?_,
    fun he => ?_, fun he => ?_⟩
  · rw [hpopped]
    exact List.take_prefix _ _
  · rw [g.toNat_staticSize]
    omega
  · rw [he] at hp
    exact hp
  · have hc := hbase.consumers c
    rw [he] at hc
    exact hc
  · have hc := hbase.consumers c
    rw [he] at hc
    rw [h.done hc.1] at hp
    obtain ⟨all, hall, hlen, -⟩ := hp
    rw [List.append_nil] at hall
    subst hall
    rw [hbase.popped, hc.2, hlen, List.take_length, List.take_length]
  · rw [he] at hp
    obtain ⟨all, hall, -, hfit⟩ := hp
    rw [hall, List.append_nil]
    exact hfit
  · rw [he] at hp
    exact hp.2

theorem inv_of_reachable [DecidableEq κ] {mBuf : ℕ → α} (hlen : blocks.flatten.length < 2 ^ 64)
    (hs : Reachable (step g) (init mBuf blocks) s) : Inv g blocks s :=
  hs.invariant (fun _ _ _ hi hstep => hi.step hlen hstep) (inv_init g mBuf blocks)

theorem popsBlocks_of_reachable [DecidableEq κ] (g : Geometry) (mBuf : ℕ → α)
    (blocks : List (List α)) (hlen : blocks.flatten.length < 2 ^ 64) {s : State κ α}
    (hs : Reachable (step g) (init mBuf blocks) s) : PopsBlocks g blocks s := by
  have h := inv_of_reachable hlen hs
  exact h.popsBlocks

/-- After two blocks of three values each the third starts at slot 6 of 8 and leaves the mapping. -/
def threeBlocks : List (Action Bool) :=
  List.replicate 9 .producer ++ List.replicate 12 (.consumer true) ++
    List.replicate 9 .producer ++ List.replicate 4 (.consumer false) ++
    List.replicate 8 (.consumer true) ++ List.replicate 6 .producer

theorem popsBlocks_threeBlocks : ∃ s : State Bool ℕ,
    run (step ⟨4, 2, rfl⟩) (init (fun _ => 0) [[1, 2, 3], [4, 5, 6], [7, 8, 9]]) threeBlocks =
        some s ∧
      s.bulk = .outOfBounds ∧ s.popped = [1, 2, 3, 4, 5, 6] ∧
      PopsBlocks ⟨4, 2, rfl⟩ [[1, 2, 3], [4, 5, 6], [7, 8, 9]] s :=
  ⟨_, rfl, rfl, rfl, popsBlocks_of_reachable ⟨4, 2, rfl⟩ (fun _ => 0)
    [[1, 2, 3], [4, 5, 6], [7, 8, 9]] (by decide) ⟨threeBlocks, rfl⟩⟩

/-- Blocks of one length that divides the two halves of the mapping never leave it. -/
theorem staysInside_of_dvd [DecidableEq κ] {mBuf : ℕ → α} {k : ℕ} (hk : k ∣ 2 * g.cellCount)
    (hblocks : ∀ b ∈ blocks, b.length = k) (hlen : blocks.flatten.length < 2 ^ 64)
    (hs : Reachable (step g) (init mBuf blocks) s) : s.bulk ≠ .outOfBounds := by
  intro hout
  have hpops := (inv_of_reachable hlen hs).popsBlocks
  exact hpops.not_fit_of_outOfBounds hout (allFit_of_dvd hk (Nat.dvd_zero k) hblocks)

end BulkProd
end JevMachO

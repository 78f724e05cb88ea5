import JevMachO.RingBuffer.MultiProd
import Mathlib.Data.Finset.Card
import Mathlib.Data.Fintype.Basic

/-! What every run of several producers keeps, also when their writes collide. The indices always
count what was pushed and popped and no assertion fails; an element can only be replaced by one
that some producer emplaced; and with consumers that read before they claim, each lost
compare-exchange of a producer replaces at most one element. -/
namespace JevMachO
open Lib

namespace MultiProd
variable {ι κ α : Type}

/-! ### Counts -/

section counts
variable (g : Geometry) (V : α → Prop)

/-- The indices are in order, count what was pushed, and all unread elements are of `V`. -/
structure Counted (m : Shared α) : Prop where
  wr_eq : m.wrIdxRaw.toNat = m.completed.length
  rd_le : m.rdIdxRaw.toNat ≤ m.wrIdxRaw.toNat
  room : m.wrIdxRaw.toNat < m.rdIdxRaw.toNat + g.cellCount
  known : ∀ i, m.rdIdxRaw.toNat ≤ i → i < m.wrIdxRaw.toNat → V (m.mBuf (i % g.cellCount))
  popped : ∀ v ∈ m.popped, V v

/-- What a producer has is of `V`, and so is what it finds in the slot it wrote. -/
def ProdKnows (m : Shared α) : ProdPc α → Prop
  | .idle => True
  | .loading v => V v
  | .writing v wrRaw => V v ∧ wrRaw.toNat ≤ m.wrIdxRaw.toNat ∧
      (wrRaw = m.wrIdxRaw → m.wrIdxRaw.toNat + 1 < m.rdIdxRaw.toNat + g.cellCount)
  | .exchanging v wrRaw => V v ∧ V (m.mBuf (g.slot wrRaw)) ∧ wrRaw.toNat ≤ m.wrIdxRaw.toNat ∧
      (wrRaw = m.wrIdxRaw → m.wrIdxRaw.toNat + 1 < m.rdIdxRaw.toNat + g.cellCount)
  | .assertFailed => False

/-- What a consumer has, or is going to read, is of `V`. -/
def ConsKnows (multiCons : Bool) (m : Shared α) : ConsPc α → Prop
  | .advancing => multiCons = false ∧ m.rdIdxRaw.toNat < m.wrIdxRaw.toNat
  | .taking rdRaw => multiCons = false ∧ V (m.mBuf (g.slot rdRaw)) ∧
      rdRaw.toNat + 1 = m.rdIdxRaw.toNat ∧ m.popped.length = rdRaw.toNat
  | .reading rdRaw => multiCons = true ∧ V (m.mBuf (g.slot rdRaw)) ∧
      rdRaw.toNat ≤ m.rdIdxRaw.toNat ∧
      (rdRaw = m.rdIdxRaw → m.rdIdxRaw.toNat < m.wrIdxRaw.toNat)
  | .exchanging rdRaw res => multiCons = true ∧ V res ∧ rdRaw.toNat ≤ m.rdIdxRaw.toNat ∧
      (rdRaw = m.rdIdxRaw → m.rdIdxRaw.toNat < m.wrIdxRaw.toNat)
  | .assertFailed => False
  | _ => True

structure Known (multiCons : Bool) (s : State ι κ α) : Prop extends Counted g V s.toShared where
  producers : ∀ p, ProdKnows g V s.toShared (s.prod p)
  consumers : ∀ c, ConsKnows g V multiCons s.toShared (s.cons c)
  popped_eq : (∀ c, (s.cons c).taken = none) → s.popped.length = s.rdIdxRaw.toNat

/-- The indices have not gone back and what was of `V` still is. -/
structure Later (m m' : Shared α) : Prop where
  wr_le : m.wrIdxRaw.toNat ≤ m'.wrIdxRaw.toNat
  rd_le : m.rdIdxRaw.toNat ≤ m'.rdIdxRaw.toNat
  known : ∀ k, V (m.mBuf k) → V (m'.mBuf k)

end counts

variable {g : Geometry} {V : α → Prop} {multiCons : Bool} {s s' : State ι κ α} {m m' : Shared α}
  {p : ι} {c : κ} {v : α}

theorem Later.refl (m : Shared α) : Later V m m := ⟨Nat.le_refl _, Nat.le_refl _, fun _ => id⟩

/-- The room a producer saw is there as long as the write index is the one it loaded. -/
theorem Later.room {wrRaw : UInt64} (hl : Later V m m') (hle : wrRaw.toNat ≤ m.wrIdxRaw.toNat)
    (hroom : wrRaw = m.wrIdxRaw → m.wrIdxRaw.toNat + 1 < m.rdIdxRaw.toNat + g.cellCount) :
    wrRaw.toNat ≤ m'.wrIdxRaw.toNat ∧
      (wrRaw = m'.wrIdxRaw → m'.wrIdxRaw.toNat + 1 < m'.rdIdxRaw.toNat + g.cellCount) := by
  have hwr := hl.wr_le
  have hrd := hl.rd_le
  refine ⟨hle.trans hwr, fun he => ?_⟩
  have heq : wrRaw = m.wrIdxRaw := UInt64.toNat_inj.mp (by rw [he] at hle ⊢; omega)
  have hr := hroom heq
  rw [← he, heq]
  omega

theorem Later.unread {rdRaw : UInt64} (hl : Later V m m') (hle : rdRaw.toNat ≤ m.rdIdxRaw.toNat)
    (hlt : rdRaw = m.rdIdxRaw → m.rdIdxRaw.toNat < m.wrIdxRaw.toNat) :
    rdRaw.toNat ≤ m'.rdIdxRaw.toNat ∧
      (rdRaw = m'.rdIdxRaw → m'.rdIdxRaw.toNat < m'.wrIdxRaw.toNat) := by
  have hwr := hl.wr_le
  have hrd := hl.rd_le
  refine ⟨hle.trans hrd, fun he => ?_⟩
  have heq : rdRaw = m.rdIdxRaw := UInt64.toNat_inj.mp (by rw [he] at hle ⊢; omega)
  have hr := hlt heq
  rw [← he, heq]
  omega

theorem ProdKnows.later {pc : ProdPc α} (hl : Later V m m') (h : ProdKnows g V m pc) :
    ProdKnows g V m' pc := by
  cases pc with
  | writing v w => exact ⟨h.1, hl.room h.2.1 h.2.2⟩
  | exchanging v w => exact ⟨h.1, hl.known _ h.2.1, hl.room h.2.2.1 h.2.2.2⟩
  | _ => exact h

/-- A single consumer also relies on nobody else popping. -/
theorem ConsKnows.later {pc : ConsPc α} (hl : Later V m m')
    (hsame : multiCons = false → m'.rdIdxRaw = m.rdIdxRaw ∧ m'.popped = m.popped)
    (h : ConsKnows g V multiCons m pc) : ConsKnows g V multiCons m' pc := by
  cases pc with
  | advancing =>
    obtain ⟨hm, hlt⟩ := h
    obtain ⟨hrd, -⟩ := hsame hm
    refine ⟨hm, ?_⟩
    rw [hrd]
    exact hlt.trans_le hl.wr_le
  | taking rdRaw =>
    obtain ⟨hm, hV, hrd, hpop⟩ := h
    obtain ⟨hrd', hpop'⟩ := hsame hm
    refine ⟨hm, hl.known _ hV, ?_, ?_⟩
    · rw [hrd', hrd]
    · rw [hpop', hpop]
  | reading rdRaw => exact ⟨h.1, hl.known _ h.2.1, hl.unread h.2.2.1 h.2.2.2⟩
  | exchanging rdRaw res => exact ⟨h.1, h.2.1, hl.unread h.2.2.1 h.2.2.2⟩
  | _ => exact h

theorem known_init (g : Geometry) (V : α → Prop) (mBuf : ℕ → α) :
    Known g V multiCons (init mBuf : State ι κ α) where
  wr_eq := rfl
  rd_le := Nat.le_refl 0
  room := by
    have hpos := g.cellCount_pos
    simpa [init] using hpos
  known i _ hi := absurd hi (Nat.not_lt_zero i)
  popped v hv := absurd hv List.not_mem_nil
  producers _ := trivial
  consumers _ := trivial
  popped_eq _ := rfl

namespace Counted

theorem write {wrRaw : UInt64} (h : Counted g V m) (hv : V v) :
    Counted g V { m with mBuf := Function.update m.mBuf (g.slot wrRaw) v } := by
  refine ⟨h.wr_eq, h.rd_le, h.room, fun i hlo hhi => ?_, h.popped⟩
  dsimp only
  by_cases hi : i % g.cellCount = g.slot wrRaw
  · rw [hi, Function.update_self]
    exact hv
  · rw [Function.update_of_ne hi]
    exact h.known i hlo hhi

theorem commit (h : Counted g V m) (hroom : m.wrIdxRaw.toNat + 1 < m.rdIdxRaw.toNat + g.cellCount)
    (hval : V (m.mBuf (g.slot m.wrIdxRaw))) (hlen : m.completed.length + 1 < 2 ^ 64) :
    Counted g V { m with wrIdxRaw := m.wrIdxRaw + 1, completed := m.completed ++ [v] } := by
  have hwr := h.wr_eq
  have hrd := h.rd_le
  have hadd : (m.wrIdxRaw + 1).toNat = m.wrIdxRaw.toNat + 1 := Geometry.toNat_add_one (by omega)
  refine ⟨?_, ?_, ?_, fun i hlo hhi => ?_, h.popped⟩
  · rw [hadd, List.length_append, List.length_singleton, hwr]
  · rw [hadd]
    exact hrd.trans (Nat.le_succ _)
  · rw [hadd]
    exact hroom
  · rw [hadd] at hhi
    by_cases hi : i < m.wrIdxRaw.toNat
    · exact h.known i hlo hi
    · obtain rfl : i = m.wrIdxRaw.toNat := by omega
      rw [← g.slot_eq]
      exact hval

theorem advance {popped : List α} (h : Counted g V m)
    (hlt : m.rdIdxRaw.toNat < m.wrIdxRaw.toNat) (hpop : ∀ v ∈ popped, V v) :
    Counted g V { m with rdIdxRaw := m.rdIdxRaw + 1, popped := popped } := by
  have hadd := Geometry.toNat_add_one (Geometry.add_one_lt hlt)
  have hroom := h.room
  refine ⟨h.wr_eq, ?_, ?_, fun i hlo hhi => ?_, hpop⟩
  · rw [hadd]
    exact hlt
  · rw [hadd]
    dsimp only
    omega
  · rw [hadd] at hlo
    exact h.known i (by omega) hhi

theorem known_rd (h : Counted g V m) (hlt : m.rdIdxRaw.toNat < m.wrIdxRaw.toNat) :
    V (m.mBuf (g.slot m.rdIdxRaw)) := by
  rw [g.slot_eq]
  exact h.known _ (Nat.le_refl _) hlt

end Counted

theorem later_write {wrRaw : UInt64} (hv : V v) :
    Later V m { m with mBuf := Function.update m.mBuf (g.slot wrRaw) v } where
  wr_le := Nat.le_refl _
  rd_le := Nat.le_refl _
  known k hk := by
    dsimp only
    by_cases hi : k = g.slot wrRaw
    · rw [hi, Function.update_self]
      exact hv
    · rwa [Function.update_of_ne hi]

theorem later_commit (hadd : m.wrIdxRaw.toNat + 1 < 2 ^ 64) (completed : List α) :
    Later V m { m with wrIdxRaw := m.wrIdxRaw + 1, completed := completed } where
  wr_le := by
    rw [Geometry.toNat_add_one hadd]
    exact Nat.le_succ _
  rd_le := Nat.le_refl _
  known _ := id

theorem later_advance (hlt : m.rdIdxRaw.toNat < m.wrIdxRaw.toNat) (popped : List α) :
    Later V m { m with rdIdxRaw := m.rdIdxRaw + 1, popped := popped } where
  wr_le := Nat.le_refl _
  rd_le := by
    rw [Geometry.toNat_add_one (Geometry.add_one_lt hlt)]
    exact Nat.le_succ _
  known _ := id

namespace Known

/-- Several consumers read an element before they claim it. -/
theorem popped_eq_of_multiCons (h : Known g V true s) : s.popped.length = s.rdIdxRaw.toNat :=
  h.popped_eq fun d => by
    have hd := h.consumers d
    cases hcons : s.cons d with
    | taking rdRaw =>
      rw [hcons] at hd
      exact absurd hd.1 (by decide)
    | _ => rfl

/-- A step of one producer. -/
theorem ofProd [DecidableEq ι] (h : Known g V multiCons s) {pc : ProdPc α}
    (hm : Counted g V m) (hl : Later V s.toShared m) (hrd : m.rdIdxRaw = s.rdIdxRaw)
    (hpop : m.popped = s.popped) (hpc : ProdKnows g V m pc) :
    Known g V multiCons ({ m with prod := Function.update s.prod p pc, cons := s.cons } :
      State ι κ α) where
  toCounted := hm
  producers q := by
    by_cases hq : q = p
    · subst hq
      simpa using hpc
    · simpa [hq] using (h.producers q).later hl
  consumers c := (h.consumers c).later hl fun _ => ⟨hrd, hpop⟩
  popped_eq hnone := by
    rw [hrd, hpop]
    exact h.popped_eq hnone

/-- A step of one consumer, of several unless it is the only one. -/
theorem ofCons [DecidableEq κ] (hκ : multiCons = true ∨ Subsingleton κ)
    (h : Known g V multiCons s) {pc : ConsPc α} (hm : Counted g V m)
    (hl : Later V s.toShared m) (hpc : ConsKnows g V multiCons m pc)
    (hpop : pc.taken = none → (∀ d ≠ c, (s.cons d).taken = none) →
      m.popped.length = m.rdIdxRaw.toNat) :
    Known g V multiCons ({ m with prod := s.prod, cons := Function.update s.cons c pc } :
      State ι κ α) where
  toCounted := hm
  producers q := (h.producers q).later hl
  consumers d := by
    by_cases hd : d = c
    · subst hd
      simpa using hpc
    · have hmulti := hκ.resolve_right fun hs => hd (Subsingleton.elim d c)
      have hlater := (h.consumers d).later hl fun hf => absurd (hf.symm.trans hmulti) (by decide)
      simpa [hd] using hlater
  popped_eq hnone := by
    refine hpop ?_ fun d hd => ?_
    · simpa using hnone c
    · simpa [hd] using hnone d

theorem setProd [DecidableEq ι] (h : Known g V multiCons s) {pc : ProdPc α}
    (hpc : ProdKnows g V s.toShared pc) : Known g V multiCons (s.setProd p pc) :=
  h.ofProd h.toCounted (Later.refl _) rfl rfl hpc

theorem setCons [DecidableEq κ] (hκ : multiCons = true ∨ Subsingleton κ)
    (h : Known g V multiCons s) {pc : ConsPc α} (hpc : ConsKnows g V multiCons s.toShared pc)
    (hold : (s.cons c).taken = none) : Known g V multiCons (s.setCons c pc) :=
  h.ofCons hκ h.toCounted (Later.refl _) hpc fun _ hrest => h.popped_eq fun d => by
    by_cases hd : d = c
    · rw [hd, hold]
    · exact hrest d hd

theorem producerStep [DecidableEq ι] (h : Known g V multiCons s)
    (hs : producerStep g s p = some s') (hlen : s'.completed.length < 2 ^ 64) :
    Known g V multiCons s' := by
  have hpc := h.producers p
  unfold MultiProd.producerStep at hs
  cases hprod : s.prod p with
  | idle => simp [hprod] at hs
  | assertFailed => simp [hprod] at hs
  | loading v =>
    simp only [hprod] at hs
    rw [hprod] at hpc
    split_ifs at hs with hle hfull <;> obtain rfl := Option.some.inj hs
    · exact h
    · exact h.setProd
        ⟨hpc, Nat.le_refl _, fun _ => g.room_of_ne_rdFullVal h.rd_le h.room hfull⟩
    · exact absurd h.rd_le (mt UInt64.le_iff_toNat_le.mpr hle)
  | writing v wrRaw =>
    simp only [hprod] at hs
    rw [hprod] at hpc
    obtain rfl := Option.some.inj hs
    refine h.ofProd (h.toCounted.write hpc.1) (later_write hpc.1) rfl rfl ⟨hpc.1, ?_, hpc.2⟩
    dsimp only
    rw [Function.update_self]
    exact hpc.1
  | exchanging v wrRaw =>
    simp only [hprod] at hs
    rw [hprod] at hpc
    split_ifs at hs with hwr <;> obtain rfl := Option.some.inj hs
    · subst hwr
      have hadd : s.completed.length + 1 < 2 ^ 64 := by simpa using hlen
      have hadd' : s.wrIdxRaw.toNat + 1 < 2 ^ 64 := by rw [h.wr_eq]; exact hadd
      exact h.ofProd (h.toCounted.commit (hpc.2.2.2 rfl) hpc.2.1 hadd)
        (later_commit hadd' _) rfl rfl trivial
    · exact h.setProd hpc.1

theorem consumerStep [DecidableEq κ] (hκ : multiCons = true ∨ Subsingleton κ)
    (h : Known g V multiCons s) (hs : consumerStep g multiCons s c = some s') :
    Known g V multiCons s' := by
  have hpc := h.consumers c
  unfold MultiProd.consumerStep at hs
  cases hcons : s.cons c with
  | idle => simp [hcons] at hs
  | assertFailed => simp [hcons] at hs
  | loading =>
    have htaken : (s.cons c).taken = none := by rw [hcons]; rfl
    have hrd := h.rd_le
    simp only [hcons] at hs
    split_ifs at hs with hle hempty hmulti <;> obtain rfl := Option.some.inj hs
    · exact h.setCons hκ trivial htaken
    · have hne := mt UInt64.toNat_inj.mp hempty
      have hlt : s.rdIdxRaw.toNat < s.wrIdxRaw.toNat := by omega
      exact h.setCons hκ
        ⟨hmulti, h.toCounted.known_rd hlt, Nat.le_refl _, fun _ => hlt⟩ htaken
    · have hne := mt UInt64.toNat_inj.mp hempty
      exact h.setCons hκ ⟨by simpa using hmulti, by omega⟩ htaken
    · exact absurd h.rd_le (mt UInt64.le_iff_toNat_le.mpr hle)
  | advancing =>
    simp only [hcons] at hs
    rw [hcons] at hpc
    obtain rfl := Option.some.inj hs
    obtain ⟨hm, hlt⟩ := hpc
    have hsub : Subsingleton κ := hκ.resolve_left (by rw [hm]; decide)
    have hpop := h.popped_eq fun d => by rw [Subsingleton.elim d c, hcons]; rfl
    refine h.ofCons hκ (h.toCounted.advance hlt h.popped) (later_advance hlt _)
      ⟨hm, h.toCounted.known_rd hlt, ?_, hpop⟩ fun hnone => ?_
    · exact (Geometry.toNat_add_one (Geometry.add_one_lt hlt)).symm
    · simp [ConsPc.taken] at hnone
  | taking rdRaw =>
    simp only [hcons] at hs
    rw [hcons] at hpc
    obtain rfl := Option.some.inj hs
    obtain ⟨hm, hV, hrd, hpop⟩ := hpc
    refine h.ofCons hκ { h.toCounted with popped := ?_ }
      ⟨Nat.le_refl _, Nat.le_refl _, fun _ => id⟩ trivial fun _ _ => ?_
    · intro v hv
      rcases List.mem_append.mp hv with hv | hv
      · exact h.popped v hv
      · rw [List.mem_singleton.mp hv]
        exact hV
    · rw [List.length_append, List.length_singleton, hpop]
      exact hrd
  | reading rdRaw =>
    have htaken : (s.cons c).taken = none := by rw [hcons]; rfl
    simp only [hcons] at hs
    rw [hcons] at hpc
    obtain rfl := Option.some.inj hs
    exact h.setCons hκ hpc htaken
  | exchanging rdRaw res =>
    have htaken : (s.cons c).taken = none := by rw [hcons]; rfl
    simp only [hcons] at hs
    rw [hcons] at hpc
    obtain ⟨hm, hV, hle, hlt⟩ := hpc
    split_ifs at hs with hrd <;> obtain rfl := Option.some.inj hs
    · subst hrd
      have hlt := hlt rfl
      refine h.ofCons hκ (h.toCounted.advance hlt fun v hv => ?_) (later_advance hlt _) trivial
        fun _ hrest => ?_
      · rcases List.mem_append.mp hv with hv | hv
        · exact h.popped v hv
        · rw [List.mem_singleton.mp hv]
          exact hV
      · have hpop := h.popped_eq fun d => by
          by_cases hd : d = c
          · rw [hd, htaken]
          · exact hrest d hd
        rw [List.length_append, List.length_singleton, hpop,
          Geometry.toNat_add_one (Geometry.add_one_lt hlt)]
    · exact h.setCons hκ trivial htaken

variable [DecidableEq ι] [DecidableEq κ]

theorem step (hκ : multiCons = true ∨ Subsingleton κ) (h : Known g V multiCons s)
    {a : Action ι κ α} (ha : ∀ p v, a = .callEmplace p v → V v)
    (hs : step g multiCons s a = some s') (hlen : s'.completed.length < 2 ^ 64) :
    Known g V multiCons s' := by
  cases a with
  | callEmplace p v =>
    simp only [MultiProd.step] at hs
    split at hs
    · obtain rfl := Option.some.inj hs
      exact h.setProd (ha p v rfl)
    · simp at hs
  | producer p => exact h.producerStep hs hlen
  | callPop c =>
    simp only [MultiProd.step] at hs
    split at hs
    · rename_i hidle
      obtain rfl := Option.some.inj hs
      exact h.setCons hκ trivial (by rw [hidle]; rfl)
    · simp at hs
  | consumer c => exact h.consumerStep hκ hs

theorem of_run (g : Geometry) (hκ : multiCons = true ∨ Subsingleton κ) (mBuf : ℕ → α)
    {as : List (Action ι κ α)} {s : State ι κ α} (has : ∀ p v, .callEmplace p v ∈ as → V v)
    (hrun : Lib.run (MultiProd.step g multiCons) (init mBuf) as = some s)
    (hlen : s.completed.length < 2 ^ 64) : Known g V multiCons s := by
  have hwithin : RunsWithin (MultiProd.step g multiCons)
      (fun _ a => ∀ p v, a = .callEmplace p v → V v) (init mBuf : State ι κ α) as :=
    runsWithin_of_forall (fun a ha p v he => has p v (by rwa [← he])) _
  refine hwithin.invariant (P := fun s => s.completed.length < 2 ^ 64 → Known g V multiCons s) ?_
    (fun _ => known_init g V mBuf) hrun hlen
  intro s a s' hs ha hs' hlen'
  exact (hs ((completed_grows hs').length_le.trans_lt hlen')).step hκ ha hs' hlen'

end Known

/-- The indices are in order and at most `static_size` apart, they count the elements pushed and
popped, and no thread has failed an assertion. -/
structure Accounted (g : Geometry) (s : State ι κ α) : Prop where
  producers : ∀ p, s.prod p ≠ .assertFailed
  consumers : ∀ c, s.cons c ≠ .assertFailed
  rd_le : s.rdIdxRaw.toNat ≤ s.wrIdxRaw.toNat
  room : s.wrIdxRaw.toNat - s.rdIdxRaw.toNat ≤ g.staticSize.toNat
  pushed : s.wrIdxRaw.toNat = s.completed.length
  popped : (∀ c, (s.cons c).taken = none) → s.rdIdxRaw.toNat = s.popped.length

theorem Known.accounted (h : Known g V multiCons s) : Accounted g s where
  producers p hp := by
    have hk := h.producers p
    rw [hp] at hk
    exact hk
  consumers c hc := by
    have hk := h.consumers c
    rw [hc] at hk
    exact hk
  rd_le := h.rd_le
  room := by
    have hroom := h.room
    rw [Geometry.toNat_staticSize]
    omega
  pushed := h.wr_eq
  popped hnone := (h.popped_eq hnone).symm

section runs
variable [DecidableEq ι] [DecidableEq κ]

theorem accounted_of_run (g : Geometry) (hκ : multiCons = true ∨ Subsingleton κ) (mBuf : ℕ → α)
    {as : List (Action ι κ α)} {s : State ι κ α}
    (hrun : run (step g multiCons) (init mBuf) as = some s)
    (hlen : s.completed.length < 2 ^ 64) :
    Accounted g s ∧
      (s.Quiescent → s.popped.length + (s.live g).length = s.completed.length) := by
  have hknown : Known g (fun _ => True) multiCons s :=
    Known.of_run g hκ mBuf (fun _ _ _ => trivial) hrun hlen
  have hacc := hknown.accounted
  refine ⟨hacc, fun hq => ?_⟩
  have hrd := hacc.popped fun c => by rw [hq.2 c]; rfl
  have hle := hacc.rd_le
  rw [State.live, Ring.length_window, ← hrd, ← hacc.pushed]
  omega

theorem exists_staleWrite : ∃ s : State Bool Unit ℕ,
    run (step ⟨4, 2, rfl⟩ true) (init fun _ => 0) staleWrite = some s ∧
      s.completed.length < 2 ^ 64 := ⟨_, rfl, by decide⟩

theorem accounted_staleWrite : ∃ s : State Bool Unit ℕ,
    run (step ⟨4, 2, rfl⟩ true) (init fun _ => 0) staleWrite = some s ∧
      Accounted ⟨4, 2, rfl⟩ s := by
  obtain ⟨s, hrun, hlen⟩ := exists_staleWrite
  exact ⟨s, hrun, (accounted_of_run ⟨4, 2, rfl⟩ (Or.inl rfl) (fun _ => 0) hrun hlen).1⟩

/-- Nothing is read that no producer emplaced, not even the initial contents of the cells. -/
theorem emplaced_of_run (g : Geometry) (hκ : multiCons = true ∨ Subsingleton κ) (mBuf : ℕ → α)
    {as : List (Action ι κ α)} {s : State ι κ α}
    (hrun : run (step g multiCons) (init mBuf) as = some s)
    (hlen : s.completed.length < 2 ^ 64) :
    ∀ v ∈ s.popped ++ s.live g, ∃ p, .callEmplace p v ∈ as := by
  have hknown : Known g (fun v => ∃ p, .callEmplace p v ∈ as) multiCons s :=
    Known.of_run g hκ mBuf (fun p _ h => ⟨p, h⟩) hrun hlen
  intro v hv
  rcases List.mem_append.mp hv with hv | hv
  · exact hknown.popped v hv
  · obtain ⟨i, hi, rfl⟩ := List.mem_map.mp hv
    rw [List.mem_range'_1] at hi
    exact hknown.known i hi.1 (by omega)

theorem emplaced_staleWrite : ∃ s : State Bool Unit ℕ,
    run (step ⟨4, 2, rfl⟩ true) (init fun _ => 0) staleWrite = some s ∧
      ∀ v ∈ s.popped ++ s.live ⟨4, 2, rfl⟩, ∃ p, .callEmplace p v ∈ staleWrite := by
  obtain ⟨s, hrun, hlen⟩ := exists_staleWrite
  exact ⟨s, hrun, emplaced_of_run ⟨4, 2, rfl⟩ (Or.inl rfl) (fun _ => 0) hrun hlen⟩

end runs

/-! ### Losses

Consumers that read an element before they claim it can only lose it to a producer that wrote
with an index it no longer held. Every such write is followed by a failed compare-exchange of its
own, so the indices hit by them are no more than those. -/

/-- The compare-exchange of a producer is going to fail. -/
def ProdPc.stale (wrIdxRaw : UInt64) : ProdPc α → Bool
  | .exchanging _ wrRaw => wrRaw != wrIdxRaw
  | _ => false

def losesRace (s : State ι κ α) : Action ι κ α → Bool
  | .producer p => (s.prod p).stale s.wrIdxRaw
  | _ => false

def State.staleProds [Fintype ι] (s : State ι κ α) : Finset ι :=
  Finset.univ.filter fun p => (s.prod p).stale s.wrIdxRaw = true

/-- The indices whose element, popped or live, is not the one that was pushed there. -/
def State.replaced [DecidableEq α] (g : Geometry) (s : State ι κ α) : Finset ℕ :=
  (Finset.range s.completed.length).filter fun i =>
    (s.popped ++ s.live g)[i]? ≠ s.completed[i]?

/-- Without a replaced element, popped and live elements are the pushed ones in order. -/
theorem Known.exact_of_replaced [DecidableEq α] (hk : Known g V true s) (h : s.replaced g = ∅) :
    s.popped ++ s.live g = s.completed := by
  have hlen : (s.popped ++ s.live g).length = s.completed.length := by
    have hwr := hk.wr_eq
    have hrd := hk.rd_le
    have hpop := hk.popped_eq_of_multiCons
    rw [List.length_append, State.live, Ring.length_window]
    omega
  refine List.ext_getElem? fun i => ?_
  by_cases hi : i < s.completed.length
  · by_contra hne
    exact Finset.notMem_empty i (h ▸ Finset.mem_filter.mpr ⟨Finset.mem_range.mpr hi, hne⟩)
  · rw [List.getElem?_eq_none (by omega), List.getElem?_eq_none (by omega)]

/-- Outside `H` every element is the one that was pushed, consumers have read it so, and the slot
of the next index has the value of a producer that may still claim it. -/
structure Intact (g : Geometry) (H : Finset ℕ) (s : State ι κ α) : Prop where
  popped : ∀ i < s.popped.length, i ∉ H → s.popped[i]? = s.completed[i]?
  live : ∀ i, s.rdIdxRaw.toNat ≤ i → i < s.wrIdxRaw.toNat → i ∉ H →
    s.completed[i]? = some (s.mBuf (i % g.cellCount))
  read : ∀ c res, s.cons c = .exchanging s.rdIdxRaw res → s.rdIdxRaw.toNat ∉ H →
    s.completed[s.rdIdxRaw.toNat]? = some res
  pending : s.wrIdxRaw.toNat ∉ H → ∀ p v, s.prod p = .exchanging v s.wrIdxRaw →
    ∃ q, s.prod q = .exchanging (s.mBuf (g.slot s.wrIdxRaw)) s.wrIdxRaw

variable {H : Finset ℕ}

theorem intact_init (mBuf : ℕ → α) : Intact g H (init mBuf : State ι κ α) where
  popped i hi := absurd hi (Nat.not_lt_zero i)
  live i _ hi := absurd hi (Nat.not_lt_zero i)
  read c res hc := by simp [init] at hc
  pending _ p v hp := by simp [init] at hp

/-- A write hits at most one of the indices that are live or next. -/
theorem Counted.exists_hit (h : Counted g V m) (wrRaw : UInt64) :
    ∃ k, ∀ i, m.rdIdxRaw.toNat ≤ i → i ≤ m.wrIdxRaw.toNat →
      i % g.cellCount = g.slot wrRaw → i = k := by
  have hroom := h.room
  by_cases hex : ∃ k, m.rdIdxRaw.toNat ≤ k ∧ k ≤ m.wrIdxRaw.toNat ∧
      k % g.cellCount = g.slot wrRaw
  · obtain ⟨k, hlo, hhi, hk⟩ := hex
    refine ⟨k, fun i hi hi' hik => ?_⟩
    rcases Nat.lt_trichotomy i k with hlt | heq | hgt
    · exact absurd (hik.trans hk.symm) (Ring.mod_ne hlt (by omega))
    · exact heq
    · exact absurd (hk.trans hik.symm) (Ring.mod_ne hgt (by omega))
  · exact ⟨0, fun i hi hi' hik => absurd ⟨i, hi, hi', hik⟩ hex⟩

namespace Intact

theorem mono {H' : Finset ℕ} (h : Intact g H s) (hsub : H ⊆ H') : Intact g H' s where
  popped i hi hH := h.popped i hi fun hm => hH (hsub hm)
  live i hlo hhi hH := h.live i hlo hhi fun hm => hH (hsub hm)
  read c res hc hH := h.read c res hc fun hm => hH (hsub hm)
  pending hH := h.pending fun hm => hH (hsub hm)

/-- A producer that moves outside the compare-exchange for the next index. -/
theorem setProd [DecidableEq ι] (h : Intact g H s) {pc : ProdPc α}
    (hold : ∀ v, s.prod p ≠ .exchanging v s.wrIdxRaw)
    (hnew : ∀ v, pc ≠ .exchanging v s.wrIdxRaw) : Intact g H (s.setProd p pc) where
  popped := h.popped
  live := h.live
  read := h.read
  pending hH q v hq := by
    have hqp : q ≠ p := by
      rintro rfl
      simp only [State.setProd, Function.update_self] at hq
      exact hnew v hq
    have hq' : s.prod q = .exchanging v s.wrIdxRaw := by
      simpa [State.setProd, hqp] using hq
    obtain ⟨r, hr⟩ := h.pending hH q v hq'
    have hrp : r ≠ p := by
      rintro rfl
      exact hold _ hr
    exact ⟨r, by simpa [State.setProd, hrp] using hr⟩

/-- A consumer that moves without claiming, having read what is there if it can claim. -/
theorem setCons [DecidableEq κ] (h : Intact g H s) {pc : ConsPc α}
    (hpc : ∀ res, pc = .exchanging s.rdIdxRaw res → s.rdIdxRaw.toNat ∉ H →
      s.completed[s.rdIdxRaw.toNat]? = some res) : Intact g H (s.setCons c pc) where
  popped := h.popped
  live := h.live
  read d res hd hH := by
    by_cases hdc : d = c
    · subst hdc
      simp only [State.setCons, Function.update_self] at hd
      exact hpc res hd hH
    · exact h.read d res (by simpa [State.setCons, hdc] using hd) hH
  pending := h.pending

/-- A write with the next index: its slot belongs to no live element. -/
theorem write_next [DecidableEq ι] (h : Intact g H s) (hroom : s.wrIdxRaw.toNat + 1 <
      s.rdIdxRaw.toNat + g.cellCount) :
    Intact g H { s.setProd p (.exchanging v s.wrIdxRaw) with
      mBuf := Function.update s.mBuf (g.slot s.wrIdxRaw) v } where
  popped := h.popped
  live i hlo hhi hH := by
    change i < s.wrIdxRaw.toNat at hhi
    change s.rdIdxRaw.toNat ≤ i at hlo
    have hne : i % g.cellCount ≠ g.slot s.wrIdxRaw := by
      rw [g.slot_eq]
      exact Ring.mod_ne hhi (by omega)
    dsimp only
    rw [Function.update_of_ne hne]
    exact h.live i hlo hhi hH
  read := h.read
  pending _ _ _ _ := ⟨p, by simp [State.setProd]⟩

/-- A write with an index that has been taken meanwhile. -/
theorem write_stale [DecidableEq ι] (h : Intact g H s) {wrRaw : UInt64} {k : ℕ}
    (hwriting : s.prod p = .writing v wrRaw) (hne : wrRaw ≠ s.wrIdxRaw)
    (hrd : s.rdIdxRaw.toNat ≤ s.wrIdxRaw.toNat)
    (hk : ∀ i, s.rdIdxRaw.toNat ≤ i → i ≤ s.wrIdxRaw.toNat →
      i % g.cellCount = g.slot wrRaw → i = k) :
    Intact g (insert k H) { s.setProd p (.exchanging v wrRaw) with
      mBuf := Function.update s.mBuf (g.slot wrRaw) v } where
  popped i hi hH := h.popped i hi fun hm => hH (Finset.mem_insert_of_mem hm)
  live i hlo hhi hH := by
    obtain ⟨hik, hiH⟩ := not_or.mp (mt Finset.mem_insert.mpr hH)
    dsimp only
    rw [Function.update_of_ne fun he => hik (hk i hlo hhi.le he)]
    exact h.live i hlo hhi hiH
  read c res hc hH := h.read c res hc fun hm => hH (Finset.mem_insert_of_mem hm)
  pending hH q w hq := by
    change s.wrIdxRaw.toNat ∉ _ at hH
    change (s.setProd p (.exchanging v wrRaw)).prod q = .exchanging w s.wrIdxRaw at hq
    obtain ⟨hwk, hwH⟩ := not_or.mp (mt Finset.mem_insert.mpr hH)
    have hslot : g.slot s.wrIdxRaw ≠ g.slot wrRaw := fun he =>
      hwk (hk _ hrd (Nat.le_refl _) (by rw [← g.slot_eq, he]))
    have hqp : q ≠ p := by
      rintro rfl
      simp only [State.setProd, Function.update_self, ProdPc.exchanging.injEq] at hq
      exact hne hq.2
    obtain ⟨r, hr⟩ := h.pending hwH q w (by simpa [State.setProd, hqp] using hq)
    have hrp : r ≠ p := by
      rintro rfl
      rw [hwriting] at hr
      simp at hr
    refine ⟨r, ?_⟩
    change (s.setProd p (.exchanging v wrRaw)).prod r = .exchanging (Function.update s.mBuf
      (g.slot wrRaw) v (g.slot s.wrIdxRaw)) s.wrIdxRaw
    rw [Function.update_of_ne hslot]
    simpa [State.setProd, hrp] using hr

/-- The next index is claimed: its element is the one pushed unless it is in `H`. -/
theorem commit [DecidableEq ι] (h : Intact g H s) (hk : Known g V true s)
    (hlen : s.completed.length + 1 < 2 ^ 64)
    (hval : s.wrIdxRaw.toNat ∉ H → s.mBuf (g.slot s.wrIdxRaw) = v) :
    Intact g H { s.setProd p .idle with
      wrIdxRaw := s.wrIdxRaw + 1, completed := s.completed ++ [v] } := by
  have hwr := hk.wr_eq
  have hrd := hk.rd_le
  have hadd : (s.wrIdxRaw + 1).toNat = s.wrIdxRaw.toNat + 1 := Geometry.toNat_add_one (by omega)
  have hpop := hk.popped_eq_of_multiCons
  refine ⟨fun i hi hH => ?_, fun i hlo hhi hH => ?_, fun c res hc hH => ?_, fun _ q w hq => ?_⟩
  · rw [List.getElem?_append_left (by change i < s.popped.length at hi; omega)]
    exact h.popped i hi hH
  · rw [hadd] at hhi
    by_cases hi : i < s.wrIdxRaw.toNat
    · rw [List.getElem?_append_left (by omega)]
      exact h.live i hlo hi hH
    · obtain rfl : i = s.wrIdxRaw.toNat := by omega
      change (s.completed ++ [v])[s.wrIdxRaw.toNat]? = _
      rw [hwr, List.getElem?_concat_length, ← hwr, ← g.slot_eq, ← hval hH]
      rfl
  · have hc' := hk.consumers c
    rw [show s.cons c = .exchanging s.rdIdxRaw res from hc] at hc'
    have hlt := hc'.2.2.2 rfl
    rw [List.getElem?_append_left (by change s.rdIdxRaw.toNat < _; omega)]
    exact h.read c res hc hH
  · by_cases hqp : q = p
    · subst hqp
      simp [State.setProd] at hq
    · have hq' : s.prod q = .exchanging w (s.wrIdxRaw + 1) := by
        simpa [State.setProd, hqp] using hq
      have hle := hk.producers q
      rw [hq'] at hle
      have hle := hle.2.2.1
      omega

/-- An element is claimed by a consumer that has read it. -/
theorem claim [DecidableEq κ] (h : Intact g H s) (hk : Known g V true s) {res : α}
    (hcons : s.cons c = .exchanging s.rdIdxRaw res) :
    Intact g H { s.setCons c .idle with
      rdIdxRaw := s.rdIdxRaw + 1, popped := s.popped ++ [res] } := by
  have hlt : s.rdIdxRaw.toNat < s.wrIdxRaw.toNat := by
    have hc := hk.consumers c
    rw [hcons] at hc
    exact hc.2.2.2 rfl
  have hadd := Geometry.toNat_add_one (Geometry.add_one_lt hlt)
  have hpop := hk.popped_eq_of_multiCons
  refine ⟨fun i hi hH => ?_, fun i hlo hhi hH => ?_, fun d r hd _ => ?_, h.pending⟩
  · rw [List.length_append, List.length_singleton] at hi
    change (s.popped ++ [res])[i]? = s.completed[i]?
    by_cases hi' : i < s.popped.length
    · rw [List.getElem?_append_left hi']
      exact h.popped i hi' hH
    · obtain rfl : i = s.popped.length := by omega
      rw [List.getElem?_concat_length, hpop]
      exact (h.read c res hcons (hpop ▸ hH)).symm
  · rw [hadd] at hlo
    exact h.live i (by omega) hhi hH
  · by_cases hdc : d = c
    · subst hdc
      simp [State.setCons] at hd
    · have hd' : s.cons d = .exchanging (s.rdIdxRaw + 1) r := by
        simpa [State.setCons, hdc] using hd
      have hle := hk.consumers d
      rw [hd'] at hle
      have hle := hle.2.2.1
      omega

end Intact

section setProd
variable [DecidableEq ι]

theorem prod_setProd_of_ne {q : ι} {pc : ProdPc α} (h : q ≠ p) :
    (s.setProd p pc).prod q = s.prod q := Function.update_of_ne h ..

theorem prod_setProd_self {pc : ProdPc α} : (s.setProd p pc).prod p = pc :=
  Function.update_self ..

/-- A producer that is not at a lost compare-exchange moves. -/
theorem stale_of_setProd {pc : ProdPc α} (hold : (s.prod p).stale s.wrIdxRaw = false) (q : ι)
    (hq : (s.prod q).stale s.wrIdxRaw = true) :
    ((s.setProd p pc).prod q).stale s.wrIdxRaw = true := by
  have hqp : q ≠ p := by
    rintro rfl
    rw [hold] at hq
    exact absurd hq (by decide)
  rwa [prod_setProd_of_ne hqp]

end setProd

/-- After `n` lost compare-exchanges: the hit indices are no more than these and the producers
that are going to lose theirs. -/
def Budget [Fintype ι] (g : Geometry) (n : ℕ) (s : State ι κ α) : Prop :=
  ∃ H : Finset ℕ, H.card ≤ n + s.staleProds.card ∧ Intact g H s

section budget
variable [Fintype ι] {n : ℕ}

theorem mem_staleProds : p ∈ s.staleProds ↔ (s.prod p).stale s.wrIdxRaw = true := by
  simp [State.staleProds]

theorem card_staleProds_le (h : ∀ q, (s.prod q).stale s.wrIdxRaw = true →
    (s'.prod q).stale s'.wrIdxRaw = true) : s.staleProds.card ≤ s'.staleProds.card :=
  Finset.card_le_card fun q hq => mem_staleProds.mpr (h q (mem_staleProds.mp hq))

theorem card_staleProds_lt (h : ∀ q, (s.prod q).stale s.wrIdxRaw = true →
      (s'.prod q).stale s'.wrIdxRaw = true) (hold : (s.prod p).stale s.wrIdxRaw = false)
    (hnew : (s'.prod p).stale s'.wrIdxRaw = true) : s.staleProds.card < s'.staleProds.card := by
  refine Finset.card_lt_card (Finset.ssubset_iff_of_subset ?_ |>.mpr ⟨p, ?_, ?_⟩)
  · exact fun q hq => mem_staleProds.mpr (h q (mem_staleProds.mp hq))
  · exact mem_staleProds.mpr hnew
  · rw [mem_staleProds, hold]
    decide

namespace Budget
variable {k : ℕ}

theorem keep (hcard : H.card ≤ n + s.staleProds.card) (h : Intact g H s')
    (hstale : s.staleProds.card ≤ s'.staleProds.card) : Budget g n s' :=
  ⟨H, hcard.trans (Nat.add_le_add_left hstale n), h⟩

/-- A newly stale producer pays for an index. -/
theorem hit (hcard : H.card ≤ n + s.staleProds.card) (h : Intact g (insert k H) s')
    (hstale : s.staleProds.card < s'.staleProds.card) : Budget g n s' := by
  have hins := Finset.card_insert_le k H
  exact ⟨insert k H, by omega, h⟩

end Budget

theorem Budget.consumerStep [DecidableEq κ] (hb : Budget g n s) (hk : Known g V true s)
    (hs : consumerStep g true s c = some s') : Budget g n s' := by
  obtain ⟨H, hcard, hH⟩ := hb
  have hpc := hk.consumers c
  unfold MultiProd.consumerStep at hs
  cases hcons : s.cons c with
  | idle => simp [hcons] at hs
  | assertFailed => simp [hcons] at hs
  | loading =>
    simp only [hcons, if_true] at hs
    split_ifs at hs with hle hempty <;> obtain rfl := Option.some.inj hs
    · exact ⟨H, hcard, hH.setCons (by simp)⟩
    · exact ⟨H, hcard, hH.setCons (by simp)⟩
    · exact ⟨H, hcard, hH.setCons (by simp)⟩
  | advancing =>
    rw [hcons] at hpc
    exact absurd hpc.1 (by decide)
  | taking rdRaw =>
    rw [hcons] at hpc
    exact absurd hpc.1 (by decide)
  | reading rdRaw =>
    simp only [hcons] at hs
    rw [hcons] at hpc
    obtain rfl := Option.some.inj hs
    refine ⟨H, hcard, hH.setCons fun res he hno => ?_⟩
    obtain ⟨rfl, rfl⟩ := ConsPc.exchanging.inj he
    rw [g.slot_eq]
    exact hH.live _ (Nat.le_refl _) (hpc.2.2.2 rfl) hno
  | exchanging rdRaw res =>
    simp only [hcons] at hs
    split_ifs at hs with hrd <;> obtain rfl := Option.some.inj hs
    · subst hrd
      exact ⟨H, hcard, hH.claim hk hcons⟩
    · exact ⟨H, hcard, hH.setCons (by simp)⟩

theorem Budget.card_replaced_le [DecidableEq α] (hb : Budget g n s) (hk : Known g V true s) :
    (s.replaced g).card ≤ n + s.staleProds.card := by
  obtain ⟨H, hcard, hH⟩ := hb
  refine (Finset.card_le_card fun i hi => ?_).trans hcard
  obtain ⟨hlt, hne⟩ := Finset.mem_filter.mp hi
  rw [Finset.mem_range, ← hk.wr_eq] at hlt
  by_contra hno
  refine hne ?_
  have hpop := hk.popped_eq_of_multiCons
  by_cases hi : i < s.popped.length
  · rw [List.getElem?_append_left hi]
    exact hH.popped i hi hno
  · rw [List.getElem?_append_right (by omega), hH.live i (by omega) hlt hno, State.live,
      Ring.window, List.getElem?_map, List.getElem?_range' (by omega), hpop]
    simp only [Option.map_some, Nat.one_mul]
    congr 3
    omega

variable [DecidableEq ι]

/-- The write of an element. -/
theorem Budget.write (hcard : H.card ≤ n + s.staleProds.card) (hH : Intact g H s)
    (hk : Known g V true s) {wrRaw : UInt64} (hprod : s.prod p = .writing v wrRaw) :
    Budget g n { s.setProd p (.exchanging v wrRaw) with
      mBuf := Function.update s.mBuf (g.slot wrRaw) v } := by
  have hpc := hk.producers p
  rw [hprod] at hpc
  have hold : (s.prod p).stale s.wrIdxRaw = false := by rw [hprod]; rfl
  by_cases hw : wrRaw = s.wrIdxRaw
  · subst hw
    exact Budget.keep hcard (hH.write_next (hpc.2.2 rfl))
      (card_staleProds_le (stale_of_setProd hold))
  · obtain ⟨k, hhit⟩ := hk.toCounted.exists_hit wrRaw
    refine Budget.hit hcard (hH.write_stale hprod hw hk.rd_le hhit)
      (card_staleProds_lt (stale_of_setProd hold) hold ?_)
    change ((s.setProd p (.exchanging v wrRaw)).prod p).stale s.wrIdxRaw = true
    rw [prod_setProd_self]
    exact bne_iff_ne.mpr hw

/-- A compare-exchange that succeeds. All other producers that have written become stale. -/
theorem Budget.commit (hcard : H.card ≤ n + s.staleProds.card) (hH : Intact g H s)
    (hk : Known g V true s) (hprod : s.prod p = .exchanging v s.wrIdxRaw)
    (hlen : s.completed.length + 1 < 2 ^ 64) :
    Budget g n { s.setProd p .idle with
      wrIdxRaw := s.wrIdxRaw + 1, completed := s.completed ++ [v] } := by
  have hbecome : ∀ q ≠ p, ∀ w u, s.prod q = .exchanging w u →
      ((s.setProd p .idle).prod q).stale (s.wrIdxRaw + 1) = true := by
    intro q hqp w u hq
    have hkq := hk.producers q
    rw [hq] at hkq
    rw [prod_setProd_of_ne hqp, hq]
    exact bne_iff_ne.mpr (Geometry.stale (by rw [hk.wr_eq]; exact hlen) hkq.2.2.1).2
  have hstays : ∀ q, (s.prod q).stale s.wrIdxRaw = true →
      ((s.setProd p .idle).prod q).stale (s.wrIdxRaw + 1) = true := by
    intro q hq
    cases hq' : s.prod q with
    | exchanging w u =>
      refine hbecome q ?_ w u hq'
      rintro rfl
      rw [hprod] at hq
      simp [ProdPc.stale] at hq
    | _ => simp [hq', ProdPc.stale] at hq
  by_cases hval : s.wrIdxRaw.toNat ∉ H → s.mBuf (g.slot s.wrIdxRaw) = v
  · exact Budget.keep hcard (hH.commit hk hlen hval) (card_staleProds_le hstays)
  · -- another producer's value is in the slot, and that producer still has to fail
    obtain ⟨hwH, hv⟩ := Classical.not_imp.mp hval
    obtain ⟨q, hq⟩ := hH.pending hwH p v hprod
    have hqp : q ≠ p := by
      rintro rfl
      rw [hprod] at hq
      exact hv (ProdPc.exchanging.inj hq).1.symm
    have hold : (s.prod q).stale s.wrIdxRaw = false := by
      rw [hq]
      exact bne_self_eq_false _
    refine Budget.hit hcard ((hH.mono (Finset.subset_insert s.wrIdxRaw.toNat H)).commit hk hlen ?_)
      (card_staleProds_lt hstays hold (hbecome q hqp _ _ hq))
    exact fun hno => absurd (Finset.mem_insert_self _ _) hno

/-- A compare-exchange that fails. -/
theorem Budget.retry (hcard : H.card ≤ n + s.staleProds.card) (hH : Intact g H s)
    {wrRaw : UInt64} (hprod : s.prod p = .exchanging v wrRaw) (hne : wrRaw ≠ s.wrIdxRaw) :
    Budget g (n + 1) (s.setProd p (.loading v)) := by
  have hold : ∀ w, s.prod p ≠ .exchanging w s.wrIdxRaw := by
    intro w hw
    rw [hprod] at hw
    exact hne (ProdPc.exchanging.inj hw).2
  have hsub : s.staleProds ⊆ insert p (s.setProd p (.loading v)).staleProds := by
    intro q hq
    by_cases hqp : q = p
    · exact hqp ▸ Finset.mem_insert_self _ _
    · refine Finset.mem_insert_of_mem (mem_staleProds.mpr ?_)
      rw [prod_setProd_of_ne hqp]
      exact mem_staleProds.mp hq
  have hle := (Finset.card_le_card hsub).trans (Finset.card_insert_le _ _)
  exact ⟨H, by omega, hH.setProd hold (by simp)⟩

theorem Budget.producerStep (hb : Budget g n s) (hk : Known g V true s)
    (hs : producerStep g s p = some s') (hlen : s'.completed.length < 2 ^ 64) :
    Budget g (n + ((s.prod p).stale s.wrIdxRaw).toNat) s' := by
  obtain ⟨H, hcard, hH⟩ := hb
  unfold MultiProd.producerStep at hs
  cases hprod : s.prod p with
  | idle => simp [hprod] at hs
  | assertFailed => simp [hprod] at hs
  | loading v =>
    have hold : (s.prod p).stale s.wrIdxRaw = false := by rw [hprod]; rfl
    simp only [hprod] at hs
    split_ifs at hs with hle hfull <;> obtain rfl := Option.some.inj hs
    · exact ⟨H, hcard, hH⟩
    · exact Budget.keep hcard (hH.setProd (by simp [hprod]) (by simp))
        (card_staleProds_le (stale_of_setProd hold))
    · exact absurd hk.rd_le (mt UInt64.le_iff_toNat_le.mpr hle)
  | writing v wrRaw =>
    simp only [hprod] at hs
    exact Option.some.inj hs ▸ Budget.write hcard hH hk hprod
  | exchanging v wrRaw =>
    simp only [hprod] at hs
    split_ifs at hs with hwr <;> obtain rfl := Option.some.inj hs
    · subst hwr
      have hstale : (ProdPc.exchanging v s.wrIdxRaw).stale s.wrIdxRaw = false :=
        bne_self_eq_false _
      rw [hstale]
      exact Budget.commit hcard hH hk hprod (by simpa using hlen)
    · have hne : wrRaw ≠ s.wrIdxRaw := fun he => hwr he.symm
      have hstale : (ProdPc.exchanging v wrRaw).stale s.wrIdxRaw = true := bne_iff_ne.mpr hne
      rw [hstale]
      exact Budget.retry hcard hH hprod hne

theorem Budget.step [DecidableEq κ] (hb : Budget g n s) (hk : Known g V true s)
    {a : Action ι κ α} (hs : step g true s a = some s') (hlen : s'.completed.length < 2 ^ 64) :
    Budget g (n + (losesRace s a).toNat) s' := by
  cases a with
  | callEmplace p v =>
    simp only [MultiProd.step] at hs
    split at hs
    · rename_i hidle
      obtain rfl := Option.some.inj hs
      obtain ⟨H, hcard, hH⟩ := hb
      have hold : (s.prod p).stale s.wrIdxRaw = false := by rw [hidle]; rfl
      exact Budget.keep hcard (hH.setProd (by simp [hidle]) (by simp))
        (card_staleProds_le (stale_of_setProd hold))
    · simp at hs
  | producer p => exact hb.producerStep hk hs hlen
  | callPop c =>
    simp only [MultiProd.step] at hs
    split at hs
    · obtain rfl := Option.some.inj hs
      obtain ⟨H, hcard, hH⟩ := hb
      exact ⟨H, hcard, hH.setCons (by simp)⟩
    · simp at hs
  | consumer c => exact hb.consumerStep hk hs

end budget

section runs
variable [DecidableEq ι] [DecidableEq κ]

theorem budget_of_run [Fintype ι] (g : Geometry) (mBuf : ℕ → α) {as : List (Action ι κ α)}
    {s : State ι κ α} (hrun : run (step g true) (init mBuf) as = some s)
    (hlen : s.completed.length < 2 ^ 64) :
    Known g (fun _ => True) true s ∧
      Budget g (countSteps (step g true) losesRace (init mBuf) as) s := by
  have hb : s.completed.length < 2 ^ 64 → Known g (fun _ => True) true s ∧
      Budget g (0 + countSteps (step g true) losesRace (init mBuf) as) s := by
    refine count_invariant (P := fun n s => s.completed.length < 2 ^ 64 →
      Known g (fun _ => True) true s ∧ Budget g n s) ?_ (fun _ => ?_) hrun
    · intro n s a s' ih hs hlen'
      obtain ⟨hk, hb⟩ := ih ((completed_grows hs).length_le.trans_lt hlen')
      exact ⟨hk.step (Or.inl rfl) (fun _ _ _ => trivial) hs hlen', hb.step hk hs hlen'⟩
    · exact ⟨known_init g _ mBuf, ∅, Nat.zero_le _, intact_init mBuf⟩
  rw [Nat.zero_add] at hb
  exact hb hlen

theorem card_replaced_le_of_run [Fintype ι] [DecidableEq α] (g : Geometry) (mBuf : ℕ → α)
    {as : List (Action ι κ α)} {s : State ι κ α}
    (hrun : run (step g true) (init mBuf) as = some s) (hlen : s.completed.length < 2 ^ 64) :
    (s.replaced g).card ≤
      countSteps (step g true) losesRace (init mBuf) as + s.staleProds.card := by
  obtain ⟨hk, hb⟩ := budget_of_run g mBuf hrun hlen
  exact hb.card_replaced_le hk

/-- The run that loses one compare-exchange does replace one element. -/
theorem card_replaced_staleWrite : ∃ s : State Bool Unit ℕ,
    run (step ⟨4, 2, rfl⟩ true) (init fun _ => 0) staleWrite = some s ∧
      (s.replaced ⟨4, 2, rfl⟩).card = 1 ∧ (s.replaced ⟨4, 2, rfl⟩).card ≤
        countSteps (step ⟨4, 2, rfl⟩ true) losesRace (init fun _ => 0) staleWrite +
          s.staleProds.card := by
  obtain ⟨s, hrun, hlen, hone⟩ : ∃ s : State Bool Unit ℕ,
      run (step ⟨4, 2, rfl⟩ true) (init fun _ => 0) staleWrite = some s ∧
        s.completed.length < 2 ^ 64 ∧ (s.replaced ⟨4, 2, rfl⟩).card = 1 :=
    ⟨_, rfl, by decide, by decide⟩
  exact ⟨s, hrun, hone, card_replaced_le_of_run ⟨4, 2, rfl⟩ (fun _ => 0) hrun hlen⟩

/-- A run in which no compare-exchange on the write index has failed or is bound to fail is an
exact FIFO. -/
theorem exact_of_run [Fintype ι] (g : Geometry) (mBuf : ℕ → α) {as : List (Action ι κ α)}
    {s : State ι κ α} (hrun : run (step g true) (init mBuf) as = some s)
    (hlen : s.completed.length < 2 ^ 64)
    (hfailed : countSteps (step g true) losesRace (init mBuf) as = 0) (hstale : s.staleProds = ∅) :
    s.popped ++ s.live g = s.completed := by
  classical
  obtain ⟨hk, hb⟩ := budget_of_run g mBuf hrun hlen
  have hcard := hb.card_replaced_le hk
  rw [hfailed, hstale, Finset.card_empty, Nat.le_zero] at hcard
  exact hk.exact_of_replaced (Finset.card_eq_zero.mp hcard)

end runs

end MultiProd
end JevMachO

import JevMachO.Lib.Transition
import JevMachO.RingBuffer.Sequential

/-! Bulk insertion. The block is copied to the slots from the masked write index on, which runs
through both halves of the mapping, so a block that starts in the mirror can leave it. -/
namespace JevMachO
open Lib

namespace RingBuffer
variable {α : Type} (g : Geometry)

def wrIdx (rb : RingBuffer α) : UInt64 := rb.wrIdxRaw &&& g.idxMask

/-- Copies a block to consecutive slots of the buffer and its mirror; there is nothing mapped
behind the mirror. -/
def copyToSlots : ℕ → List α → (ℕ → α) → Exec (ℕ → α)
  | _, [], mBuf => return mBuf
  | idx, v :: vs, mBuf =>
    if idx < 2 * g.cellCount then
      copyToSlots (idx + 1) vs (Function.update mBuf (idx % g.cellCount) v)
    else .error .outOfBounds

/-- `emplace_multiple`: one `memcpy`, or one `std::copy`, and one step of the index. -/
def emplaceMultiple (rb : RingBuffer α) (span : List α) : Exec (RingBuffer α) := do
  assertThat (span.length ≤ (rb.remaining g).toNat)
  let mBuf ← copyToSlots g (rb.wrIdx g).toNat span rb.mBuf
  return { rb with mBuf, wrIdxRaw := rb.wrIdxRaw + UInt64.ofNat span.length }

/-- Emplacing the elements one after another. -/
def emplaceEach : RingBuffer α → List α → Exec (RingBuffer α)
  | rb, [] => return rb
  | rb, v :: vs => do
    let r ← rb.emplace g v
    emplaceEach r.1 vs

/-- The elements not yet popped, oldest first. -/
def contents (rb : RingBuffer α) : List α :=
  Ring.window g.cellCount rb.mBuf rb.rdIdxRaw.toNat (rb.rdIdxRaw.toNat + rb.size.toNat)

/-- The same raw indices and the same queue. -/
structure SameQueue (rb rb' : RingBuffer α) : Prop where
  rd : rb.rdIdxRaw = rb'.rdIdxRaw
  wr : rb.wrIdxRaw = rb'.wrIdxRaw
  contents : rb.contents g = rb'.contents g

/-- Inserting the block at once stays inside the mapping and does what inserting its elements
one after another does. -/
def BulkAsEach (rb : RingBuffer α) (span : List α) : Prop :=
  ∃ rb₁ rb₂, rb.emplaceMultiple g span = .ok rb₁ ∧ rb.emplaceEach g span = .ok rb₂ ∧
    SameQueue g rb₁ rb₂

/-- The calls that move the indices. -/
inductive BulkOp (α : Type) where
  | emplace (v : α)
  | pop
  | emplaceMultiple (span : List α)

def bulkCall (movedFrom : α → α) (rb : RingBuffer α) : BulkOp α → Exec (RingBuffer α)
  | .emplace v => do return (← rb.emplace g v).1
  | .pop => do return (← rb.pop g movedFrom).1
  | .emplaceMultiple span => rb.emplaceMultiple g span

/-- The buffer after a call that returns. -/
def bulkStep (movedFrom : α → α) (rb : RingBuffer α) (op : BulkOp α) : Option (RingBuffer α) :=
  (rb.bulkCall g movedFrom op).toOption

variable {g} {movedFrom : α → α} {rb rb' : RingBuffer α}

/-! ### The number of elements -/

/-- One cell is always spare, however often the indices have wrapped. -/
def Spare (g : Geometry) (rb : RingBuffer α) : Prop := rb.size.toNat < g.cellCount

theorem toNat_size_of_le (hle : rb.rdIdxRaw ≤ rb.wrIdxRaw) :
    rb.size.toNat = rb.wrIdxRaw.toNat - rb.rdIdxRaw.toNat :=
  UInt64.toNat_sub_of_le _ _ hle

theorem Spare.toNat_remaining (h : Spare g rb) :
    (rb.remaining g).toNat = g.cellCount - 1 - rb.size.toNat := by
  unfold Spare at h
  have hle : rb.size ≤ g.staticSize := by
    rw [UInt64.le_iff_toNat_le, g.toNat_staticSize]
    omega
  unfold remaining
  rw [UInt64.toNat_sub_of_le _ _ hle, g.toNat_staticSize]

/-- A buffer with room for one more, whose indices are in order, is not full. -/
theorem full_eq_false (hle : rb.rdIdxRaw ≤ rb.wrIdxRaw) (h : rb.size.toNat + 1 < g.cellCount) :
    rb.full g = .ok false := by
  rw [toNat_size_of_le hle] at h
  have hiff := g.eq_rdFullVal_iff (UInt64.le_iff_toNat_le.mp hle) (by omega)
  have hne : (rb.rdIdxRaw == g.rdFullVal rb.wrIdxRaw) = false := by
    rw [beq_eq_false_iff_ne]
    intro heq
    have := hiff.mp heq
    omega
  simp only [full, hle, decide_true, assertThat_true, ok_bind, pure_eq_ok, hne]

/-- `emplace` returns only with the indices in order and room for the element. -/
theorem emplace_eq_ok {v : α} {r : RingBuffer α × α} (hs : Spare g rb)
    (h : rb.emplace g v = .ok r) :
    rb.rdIdxRaw ≤ rb.wrIdxRaw ∧ rb.size.toNat + 1 < g.cellCount ∧
      r.1 = { rb with
        mBuf := Function.update rb.mBuf (g.slot rb.wrIdxRaw) v
        wrIdxRaw := rb.wrIdxRaw + 1 } := by
  obtain ⟨full, hfull, h⟩ := bind_eq_ok.mp h
  obtain ⟨u, hu, h⟩ := bind_eq_ok.mp h
  obtain ⟨u', hu', hfull'⟩ := bind_eq_ok.mp hfull
  have hle : rb.rdIdxRaw ≤ rb.wrIdxRaw := by simpa [assertThat] using hu'
  have hnot : full = false := by simpa [assertThat] using hu
  refine ⟨hle, ?_, (congrArg Prod.fst (Except.ok.inj h)).symm⟩
  have hne : rb.rdIdxRaw ≠ g.rdFullVal rb.wrIdxRaw := by
    have heq := Except.ok.inj hfull'
    rw [hnot] at heq
    simpa using heq
  unfold Spare at hs
  rw [toNat_size_of_le hle] at hs ⊢
  have hiff := g.eq_rdFullVal_iff (UInt64.le_iff_toNat_le.mp hle) hs
  have := mt hiff.mpr hne
  omega

/-! ### Reachable buffers -/

theorem spare_ctor (mBuf : ℕ → α) : Spare g (ctor mBuf) := by
  have h0 : (ctor mBuf).size.toNat = 0 := by simp [ctor, size]
  unfold Spare
  rw [h0]
  exact g.cellCount_pos

theorem toNat_size_add {mBuf : ℕ → α} {n : ℕ} (h : rb.size.toNat + n < g.cellCount) :
    (size { rb with mBuf, wrIdxRaw := rb.wrIdxRaw + UInt64.ofNat n }).toNat =
      rb.size.toNat + n := by
  have hn := g.staticSizeRaw.toNat_lt
  unfold Geometry.cellCount at h
  have hsize : size { rb with mBuf, wrIdxRaw := rb.wrIdxRaw + UInt64.ofNat n } =
      rb.size + UInt64.ofNat n := by
    simp only [size, UInt64.sub_eq_add_neg, UInt64.add_assoc, UInt64.add_comm (UInt64.ofNat n)]
  rw [hsize, UInt64.toNat_add, UInt64.toNat_ofNat']
  omega

theorem toNat_size_pop (mBuf : ℕ → α) (hne : rb.rdIdxRaw ≠ rb.wrIdxRaw) :
    (size { rb with mBuf, rdIdxRaw := rb.rdIdxRaw + 1 }).toNat + 1 = rb.size.toNat := by
  have hrd := rb.rdIdxRaw.toNat_lt
  have hwr := rb.wrIdxRaw.toNat_lt
  have hne' : rb.rdIdxRaw.toNat ≠ rb.wrIdxRaw.toNat := mt UInt64.toNat_inj.mp hne
  simp only [size, UInt64.toNat_sub, UInt64.toNat_add, UInt64.toNat_one]
  omega

theorem emplaceMultiple_eq_ok {span : List α} (h : rb.emplaceMultiple g span = .ok rb') :
    span.length ≤ (rb.remaining g).toNat ∧ ∃ mBuf,
      copyToSlots g (rb.wrIdx g).toNat span rb.mBuf = .ok mBuf ∧
      rb' = { rb with mBuf, wrIdxRaw := rb.wrIdxRaw + UInt64.ofNat span.length } := by
  obtain ⟨u, hu, h⟩ := bind_eq_ok.mp h
  obtain ⟨mBuf, hcopy, h⟩ := bind_eq_ok.mp h
  exact ⟨by simpa [assertThat] using hu, mBuf, hcopy, (Except.ok.inj h).symm⟩

/-- No call that returns uses the spare cell. -/
theorem spare_of_call {op : BulkOp α} (hs : Spare g rb)
    (h : rb.bulkCall g movedFrom op = .ok rb') : Spare g rb' := by
  cases op with
  | emplace v =>
    obtain ⟨r, hr, h⟩ := bind_eq_ok.mp h
    obtain ⟨-, hroom, heq⟩ := emplace_eq_ok hs hr
    obtain rfl := Except.ok.inj h
    rw [heq]
    exact (toNat_size_add hroom).trans_lt hroom
  | pop =>
    obtain ⟨r, hr, h⟩ := bind_eq_ok.mp h
    obtain rfl := Except.ok.inj h
    obtain ⟨e, he, hr⟩ := bind_eq_ok.mp hr
    obtain ⟨u, -, he⟩ := bind_eq_ok.mp he
    cases e with
    | true =>
      obtain rfl := Except.ok.inj hr
      exact hs
    | false =>
      obtain rfl := Except.ok.inj hr
      have hne : rb.rdIdxRaw ≠ rb.wrIdxRaw := by simpa using Except.ok.inj he
      have hpop := toNat_size_pop (Function.update rb.mBuf (g.slot rb.rdIdxRaw)
        (movedFrom (rb.mBuf (g.slot rb.rdIdxRaw)))) hne
      unfold Spare at hs ⊢
      dsimp only
      omega
  | emplaceMultiple span =>
    obtain ⟨hfit, mBuf, -, rfl⟩ := emplaceMultiple_eq_ok h
    rw [hs.toNat_remaining] at hfit
    have hroom : rb.size.toNat + span.length < g.cellCount := by
      unfold Spare at hs
      omega
    exact (toNat_size_add hroom).trans_lt hroom

theorem spare_of_reachable {mBuf : ℕ → α}
    (h : Reachable (bulkStep g movedFrom) (ctor mBuf) rb) : Spare g rb :=
  h.invariant (fun _ _ _ hs hstep => spare_of_call hs (toOption_eq_some.mp hstep))
    (spare_ctor mBuf)

/-! ### The block and its elements -/

/-- Element by element, the copied block is what the single insertions leave: while elements
remain, neither the masked index nor the raw one has wrapped. -/
theorem copyToSlots_eq_emplaceEach {span : List α} {idx : ℕ}
    (hidx : span ≠ [] → idx = (rb.wrIdx g).toNat ∧ rb.rdIdxRaw ≤ rb.wrIdxRaw)
    (hin : idx + span.length ≤ 2 * g.cellCount)
    (hroom : rb.size.toNat + span.length < g.cellCount) :
    ∃ mBuf, copyToSlots g idx span rb.mBuf = .ok mBuf ∧ rb.emplaceEach g span =
      .ok { rb with mBuf, wrIdxRaw := rb.wrIdxRaw + UInt64.ofNat span.length } := by
  induction span generalizing rb idx with
  | nil => exact ⟨rb.mBuf, rfl, by simp [emplaceEach]⟩
  | cons v vs ih =>
    rw [List.length_cons] at hin hroom
    obtain ⟨rfl, hle⟩ := hidx (by simp)
    have hfull := full_eq_false (g := g) hle (by omega)
    set rb₁ : RingBuffer α := { rb with
      mBuf := Function.update rb.mBuf (g.slot rb.wrIdxRaw) v
      wrIdxRaw := rb.wrIdxRaw + UInt64.ofNat 1 } with hrb₁
    have hemplace : rb.emplace g v = .ok (rb₁, v) := by
      simp only [RingBuffer.emplace, hfull, ok_bind, Bool.not_false, assertThat_true, pure_eq_ok,
        Function.update_self]
      rfl
    have hsize : rb₁.size.toNat = rb.size.toNat + 1 := toNat_size_add (g := g) (by omega)
    have hnext : vs ≠ [] → (rb.wrIdx g).toNat + 1 = (rb₁.wrIdx g).toNat ∧
        rb₁.rdIdxRaw ≤ rb₁.wrIdxRaw := by
      intro hvs
      have hpos := List.length_pos_iff.mpr hvs
      obtain ⟨hto, hmask⟩ := g.step_in_mirror (i := rb.wrIdxRaw) (by
        change (rb.wrIdx g).toNat + 1 < _
        omega)
      refine ⟨hmask.symm, ?_⟩
      rw [UInt64.le_iff_toNat_le] at hle ⊢
      change rb.rdIdxRaw.toNat ≤ (rb.wrIdxRaw + 1).toNat
      omega
    obtain ⟨mBuf, hcopy, heach⟩ := ih hnext (by omega) (by omega)
    refine ⟨mBuf, ?_, ?_⟩
    · unfold copyToSlots
      rw [if_pos (by omega)]
      exact hcopy
    · unfold emplaceEach
      rw [hemplace, ok_bind, heach, hrb₁, List.length_cons, Nat.add_comm vs.length 1,
        UInt64.ofNat_add, UInt64.add_assoc]

/-- A copy that stays inside the mapping ends at or before its end. -/
theorem end_le_of_copyToSlots {span : List α} {idx : ℕ} {mBuf mBuf' : ℕ → α}
    (hne : span ≠ []) (h : copyToSlots g idx span mBuf = .ok mBuf') :
    idx + span.length ≤ 2 * g.cellCount := by
  induction span generalizing idx mBuf with
  | nil => exact absurd rfl hne
  | cons v vs ih =>
    unfold copyToSlots at h
    split_ifs at h with hlt
    by_cases hvs : vs = []
    · subst hvs
      exact hlt
    · have := ih hvs h
      rw [List.length_cons]
      omega

/-- In every buffer that calls lead to, a block that fits is inserted like its elements exactly
when it is empty, or it ends within the mirror and the raw indices are in order. -/
theorem bulkAsEach_iff {mBuf : ℕ → α} (hreach : Reachable (bulkStep g movedFrom) (ctor mBuf) rb)
    {span : List α} (hfit : span.length ≤ (rb.remaining g).toNat) :
    BulkAsEach g rb span ↔ span = [] ∨
      (rb.wrIdx g).toNat + span.length ≤ 2 * g.cellCount ∧ rb.rdIdxRaw ≤ rb.wrIdxRaw := by
  have hs := spare_of_reachable hreach
  constructor
  · rintro ⟨rb₁, rb₂, hbulk, heach, -⟩
    by_cases hne : span = []
    · exact .inl hne
    obtain ⟨-, mBuf', hcopy, -⟩ := emplaceMultiple_eq_ok hbulk
    refine .inr ⟨end_le_of_copyToSlots hne hcopy, ?_⟩
    obtain ⟨v, vs, rfl⟩ := List.exists_cons_of_ne_nil hne
    obtain ⟨r, hr, -⟩ := bind_eq_ok.mp heach
    exact (emplace_eq_ok hs hr).1
  · intro hcond
    have hroom : rb.size.toNat + span.length < g.cellCount := by
      rw [hs.toNat_remaining] at hfit
      unfold Spare at hs
      omega
    have hin : (rb.wrIdx g).toNat + span.length ≤ 2 * g.cellCount := by
      rcases hcond with rfl | h
      · have hmod : (rb.wrIdx g).toNat = rb.wrIdxRaw.toNat % (2 * g.cellCount) :=
          g.toNat_and_idxMask rb.wrIdxRaw
        have := Nat.mod_lt rb.wrIdxRaw.toNat (show 0 < 2 * g.cellCount by omega)
        simp only [List.length_nil]
        omega
      · exact h.1
    obtain ⟨mBuf', hcopy, heach⟩ := copyToSlots_eq_emplaceEach
      (fun hne => ⟨rfl, (hcond.resolve_left hne).2⟩) hin hroom
    refine ⟨_, _, ?_, heach, ⟨rfl, rfl, rfl⟩⟩
    simp only [emplaceMultiple, hfit, decide_true, assertThat_true, ok_bind, hcopy, pure_eq_ok]

def fourCells : Geometry := ⟨4, 2, rfl⟩

def blocks (n : ℕ) : List (BulkOp ℕ) :=
  (List.replicate n [.emplaceMultiple [1, 2, 3], .pop, .pop, .pop]).flatten

/-- The buffer after `n` blocks of three values have gone through it. -/
def afterBlocks (n : ℕ) : RingBuffer ℕ :=
  (Lib.run (bulkStep fourCells id) (ctor fun _ => 0) (blocks n)).getD (ctor fun _ => 0)

theorem reachable_afterBlocks {n : ℕ}
    (h : (Lib.run (bulkStep fourCells id) (ctor fun _ => 0) (blocks n)).isSome) :
    Reachable (bulkStep fourCells id) (ctor fun _ => 0) (afterBlocks n) := by
  obtain ⟨rb, hrb⟩ := Option.isSome_iff_exists.mp h
  exact ⟨blocks n, by rw [afterBlocks, hrb, Option.getD_some]⟩

theorem bulkAsEach_intoMirror : BulkAsEach fourCells (afterBlocks 1) [5, 6, 7] :=
  (bulkAsEach_iff (reachable_afterBlocks (by decide +kernel)) (by decide +kernel)).mpr
    (.inr (by decide +kernel))

/-- The second block of three ended at slot 5; a third one starts at slot 6 and ends behind the
mirror. -/
theorem not_bulkAsEach_outOfMirror :
    Reachable (bulkStep fourCells id) (ctor fun _ => 0) (afterBlocks 2) ∧
      ([5, 6, 7] : List ℕ).length ≤ ((afterBlocks 2).remaining fourCells).toNat ∧
      ¬BulkAsEach fourCells (afterBlocks 2) [5, 6, 7] := by
  refine ⟨reachable_afterBlocks (by decide +kernel), by decide +kernel, ?_⟩
  rintro ⟨rb₁, -, hbulk, -⟩
  obtain ⟨-, mBuf, hcopy, -⟩ := emplaceMultiple_eq_ok hbulk
  exact absurd (end_le_of_copyToSlots (by simp) hcopy) (by decide +kernel)

end RingBuffer
end JevMachO

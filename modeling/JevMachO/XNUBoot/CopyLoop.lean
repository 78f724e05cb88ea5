import JevMachO.XNUBoot.Landing

/-! When the stub's loop ends. It counts down by sixteen and stops at zero only. -/
namespace JevMachO
open Lib

namespace XNUBoot

/-- The pairs of words the loop moves, from where and whereto, when no access fails. -/
def stubMoves : ℕ → (imageAddr newBase imageSize : UInt64) → Option (List (UInt64 × UInt64))
  | 0, _, _, _ => none
  | n + 1, x1, x2, x3 =>
    if x3 - 16 ≠ 0 then (stubMoves n (x1 + 16) (x2 + 16) (x3 - 16)).map ((x1, x2) :: ·)
    else some [(x1, x2)]

def stubMove (mem : Bytes) (move : UInt64 × UInt64) : Exec Bytes := do
  let pair ← load mem move.1.toNat 16
  store mem move.2.toNat pair

/-- The loop makes these moves in turn. -/
theorem xnuJumpStubLoop_of_moves {n : ℕ} {mem : Bytes} {x1 x2 x3 : UInt64}
    {moves : List (UInt64 × UInt64)} (h : stubMoves n x1 x2 x3 = some moves) :
    xnuJumpStubLoop n mem x1 x2 x3 = moves.foldlM stubMove mem := by
  induction n generalizing mem x1 x2 x3 moves with
  | zero => cases h
  | succ n ih =>
    unfold stubMoves at h
    unfold xnuJumpStubLoop
    have hstep : ∀ next : Bytes → Exec Bytes, (do
        let pair ← load mem x1.toNat 16
        let mem ← store mem x2.toNat pair
        next mem) = (stubMove mem (x1, x2) >>= next) := fun next => by
      rw [stubMove]
      exact (bind_assoc _ _ _).symm
    dsimp only
    rw [hstep]
    split_ifs at h with hne
    · obtain ⟨rest, hrest, rfl⟩ := Option.map_eq_some_iff.mp h
      rw [List.foldlM_cons]
      congr 1
      funext mem'
      rw [if_pos hne]
      exact ih hrest
    · obtain rfl := Option.some.inj h
      rw [List.foldlM_cons]
      congr 1
      funext mem'
      rw [if_neg hne, List.foldlM_nil]

/-- Where there are no moves to list, the loop does not come to its end in any memory. -/
theorem xnuJumpStubLoop_of_none {n : ℕ} {x1 x2 x3 : UInt64} (h : stubMoves n x1 x2 x3 = none)
    (mem mem' : Bytes) : xnuJumpStubLoop n mem x1 x2 x3 ≠ .ok mem' := by
  induction n generalizing mem x1 x2 x3 with
  | zero => nofun
  | succ n ih =>
    unfold stubMoves at h
    intro hrun
    obtain ⟨pair, -, hrun⟩ := bind_eq_ok.mp hrun
    obtain ⟨mem₁, -, hrun⟩ := bind_eq_ok.mp hrun
    dsimp only at hrun
    split_ifs at h hrun with hne
    exact ih (Option.map_eq_none_iff.mp h) mem₁ hrun

/-- `k` blocks in ascending order. -/
def stubBlocks : ℕ → (imageAddr newBase : UInt64) → List (UInt64 × UInt64)
  | 0, _, _ => []
  | k + 1, x1, x2 => (x1, x2) :: stubBlocks k (x1 + 16) (x2 + 16)

theorem length_stubBlocks (k : ℕ) (x1 x2 : UInt64) : (stubBlocks k x1 x2).length = k := by
  induction k generalizing x1 x2 with
  | zero => rfl
  | succ k ih => exact congrArg (· + 1) (ih _ _)

/-- A count that is no multiple of sixteen never gets to zero, and one that is zero at first
gets there after a whole turn. -/
theorem stubMoves_eq_some {n : ℕ} {x1 x2 x3 : UInt64} {moves : List (UInt64 × UInt64)}
    (h : stubMoves n x1 x2 x3 = some moves) :
    ∃ k, moves = stubBlocks (k + 1) x1 x2 ∧ 16 * (k + 1) % 2 ^ 64 = x3.toNat := by
  induction n generalizing x1 x2 x3 moves with
  | zero => cases h
  | succ n ih =>
    unfold stubMoves at h
    have hsub : (x3 - 16).toNat = (2 ^ 64 - 16 + x3.toNat) % 2 ^ 64 := UInt64.toNat_sub x3 16
    have hlt := x3.toNat_lt
    split_ifs at h with hne
    · obtain ⟨rest, hrest, rfl⟩ := Option.map_eq_some_iff.mp h
      obtain ⟨k, rfl, hk⟩ := ih hrest
      exact ⟨k + 1, rfl, by omega⟩
    · obtain rfl := Option.some.inj h
      rw [not_not.mp hne, UInt64.toNat_zero] at hsub
      exact ⟨0, rfl, by omega⟩

/-- For such a count the loop does not come to its end, whatever is in memory. -/
theorem xnuJumpStubLoop_endless {x3 : UInt64} (h : ¬16 ∣ x3.toNat) (n : ℕ) (mem mem' : Bytes)
    (x1 x2 : UInt64) : xnuJumpStubLoop n mem x1 x2 x3 ≠ .ok mem' := by
  cases hm : stubMoves n x1 x2 x3 with
  | none => exact xnuJumpStubLoop_of_none hm mem mem'
  | some moves =>
    obtain ⟨k, -, hk⟩ := stubMoves_eq_some hm
    omega

theorem stubMoves_blocks {k : ℕ} {x3 : UInt64} (x1 x2 : UInt64) (h : x3.toNat = 16 * (k + 1)) :
    stubMoves (k + 1) x1 x2 x3 = some (stubBlocks (k + 1) x1 x2) := by
  induction k generalizing x1 x2 x3 with
  | zero =>
    obtain rfl : x3 = 16 := UInt64.toNat_inj.mp h
    rfl
  | succ k ih =>
    have hsub : (x3 - 16).toNat = (2 ^ 64 - 16 + x3.toNat) % 2 ^ 64 := UInt64.toNat_sub x3 16
    have hlt := x3.toNat_lt
    have hne : x3 - 16 ≠ 0 := by
      intro h0
      rw [h0, UInt64.toNat_zero] at hsub
      omega
    rw [stubMoves, if_pos hne, ih _ _ (by omega)]
    rfl

/-- The loop comes to its end, having moved as many bytes as it was told to. -/
def CopiesExactly (v : VectorArgs) : Prop :=
  ∃ n k, 16 * k = v.imageSize.toNat ∧
    stubMoves n v.imageAddr v.newBase v.imageSize = some (stubBlocks k v.imageAddr v.newBase) ∧
    ∀ mem, xnuJumpStubLoop n mem v.imageAddr v.newBase v.imageSize =
      (stubBlocks k v.imageAddr v.newBase).foldlM stubMove mem

theorem copiesExactly_iff (v : VectorArgs) :
    CopiesExactly v ↔ v.imageSize ≠ 0 ∧ 16 ∣ v.imageSize.toNat := by
  constructor
  · rintro ⟨n, k, hk, hmoves, -⟩
    obtain ⟨j, hj, -⟩ := stubMoves_eq_some hmoves
    have hlen := congrArg List.length hj
    rw [length_stubBlocks, length_stubBlocks] at hlen
    refine ⟨fun h0 => ?_, ⟨k, hk.symm⟩⟩
    rw [h0, UInt64.toNat_zero] at hk
    omega
  · rintro ⟨hne, k, hk⟩
    obtain ⟨k, rfl⟩ := Nat.exists_eq_succ_of_ne_zero (n := k) (by
      rintro rfl
      exact hne (UInt64.toNat_inj.mp hk))
    have hmoves := stubMoves_blocks v.imageAddr v.newBase hk
    exact ⟨k + 1, k + 1, hk.symm, hmoves, fun mem => xnuJumpStubLoop_of_moves hmoves⟩

/-- The kernel, SEPFW and the boot arguments. -/
def Prepared.sizes (p : Prepared) : UInt64 :=
  p.checked.kcVmaddrRange.size + p.copies.sepfw.size + p.copies.bootArgs.size

theorem Steps.imageSize {env : Env} {w w' : World} {p : Prepared}
    {mem₁ mem₂ mem₃ mem₄ : Bytes} (hs : Steps env w w' p mem₁ mem₂ mem₃ mem₄) :
    w'.nextStage.imageSize = p.sizes := by
  rw [hs.nextStage]
  change p.copies.stubCopyBase - p.checked.payloadBase = p.sizes
  rw [hs.copyRest.stubCopyBase, hs.copyRest.baCopyBase, Checked.sepfwCopyBase, UInt64.add_assoc,
    UInt64.add_assoc, UInt64.add_comm, UInt64.add_sub_cancel, Prepared.sizes, UInt64.add_assoc]

/-- The stub copies what it is told to copy exactly when the three sizes add up to a multiple of
sixteen other than zero. -/
theorem stub_copiesExactly_iff {env : Env} {w w' : World} {bootArgsBase : UInt64} {p : Prepared}
    (hrun : loadAndPrepXnuKernelcache env w bootArgsBase = .ok (.prepared p, w')) :
    w'.nextStage.imageSize = p.sizes ∧
      (CopiesExactly w'.nextStage ↔ p.sizes ≠ 0 ∧ 16 ∣ p.sizes.toNat) := by
  obtain ⟨mem₁, mem₂, mem₃, mem₄, hs⟩ := prepared_eq_ok hrun
  refine ⟨hs.imageSize, ?_⟩
  rw [copiesExactly_iff, hs.imageSize]

theorem stub_copiesExactly_wholeSegment : ∃ w',
    loadAndPrepXnuKernelcache sampleEnv wholeSegment 336 =
      .ok (.prepared (samplePrepared 384 16 128), w') ∧
    CopiesExactly w'.nextStage := by
  obtain ⟨w', hrun⟩ := prepared_wholeSegment
  exact ⟨w', hrun, (stub_copiesExactly_iff hrun).2.mpr ⟨by decide, by decide⟩⟩

/-- Boot arguments of 120 bytes. -/
def oddBootArgs : World :=
  sampleWorld (sampleMemory (sampleRegsWithArgs 16 120) sampleCommandLine (List.replicate 16 1)
    (kernelCache [segmentCommand 0 384, unixThreadCommand]))

theorem not_copiesExactly_oddBootArgs :
    ¬ ∀ (w w' : World) (p : Prepared),
      loadAndPrepXnuKernelcache sampleEnv w 336 = .ok (.prepared p, w') →
      CopiesExactly w'.nextStage := by
  intro h
  have hfst : (loadAndPrepXnuKernelcache sampleEnv oddBootArgs 336).map
      (fun r => (r.1, r.2.nextStage.imageSize)) =
      .ok (.prepared (samplePrepared 384 16 120), 520) := by decide +kernel
  obtain ⟨⟨outcome, w'⟩, hrun, hfacts⟩ := map_eq_ok.mp hfst
  obtain ⟨rfl, hargs⟩ := Prod.mk.inj hfacts
  obtain ⟨-, hdvd⟩ := (copiesExactly_iff _).mp (h oddBootArgs w' _ hrun)
  rw [hargs] at hdvd
  exact absurd hdvd (by decide)

end XNUBoot
end JevMachO

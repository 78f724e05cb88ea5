import JevMachO.XNUBoot.Load

/-! The stub that moves the image down to where the kernel runs. -/
namespace JevMachO
open Lib

namespace XNUBoot

/-- The loop of `xnu_jump_stub`: a pair of words at a time, in ascending order, until the size
has come down to zero. -/
def xnuJumpStubLoop : ℕ → Bytes → (imageAddr newBase imageSize : UInt64) → Exec Bytes
  | 0, _, _, _, _ => .error .endless
  | n + 1, mem, x1, x2, x3 => do
    let pair ← load mem x1.toNat 16
    let mem ← store mem x2.toNat pair
    let x3 := x3 - 16
    if x3 ≠ 0 then xnuJumpStubLoop n mem (x1 + 16) (x2 + 16) x3
    else return mem

/-- The stub, called with the arguments in `next_stage`. -/
def xnuJumpStub (w : World) : Exec Bytes :=
  xnuJumpStubLoop w.nextStage.args[3].toNat w.mem w.nextStage.args[1] w.nextStage.args[2]
    w.nextStage.args[3]

/-! What the stub finds in the registers x1 to x3. -/

namespace VectorArgs

def imageAddr (v : VectorArgs) : UInt64 := v.args[1]

def newBase (v : VectorArgs) : UInt64 := v.args[2]

def imageSize (v : VectorArgs) : UInt64 := v.args[3]

end VectorArgs

/-- The loop copies the words in ascending order until none are left. -/
theorem xnuJumpStubLoop_eq {fuel k : ℕ} {mem mem' : Bytes} {x1 x2 x3 : UInt64}
    (hx3 : x3.toNat = (k + 1) * 16) (hfuel : k < fuel) (hle : x2 ≤ x1)
    (hx1 : x1.toNat + (k + 1) * 16 < 2 ^ 64)
    (h : copyBlocks 16 (k + 1) mem x1.toNat x2.toNat = some mem') :
    xnuJumpStubLoop fuel mem x1 x2 x3 = .ok mem' := by
  obtain ⟨n, rfl⟩ := Nat.exists_eq_succ_of_ne_zero (Nat.ne_zero_of_lt hfuel)
  induction k generalizing n mem x1 x2 x3 with
  | zero =>
    obtain ⟨block, hblock, h⟩ := Option.bind_eq_some_iff.mp h
    obtain ⟨mem₁, hmem₁, h⟩ := Option.bind_eq_some_iff.mp h
    obtain rfl := Option.some.inj h
    obtain rfl : x3 = 16 := UInt64.toNat_inj.mp hx3
    unfold xnuJumpStubLoop
    rw [load_eq_ok_iff.mpr hblock, ok_bind, store_of_patch hmem₁, ok_bind]
    rfl
  | succ k ih =>
    obtain ⟨m, rfl⟩ := Nat.exists_eq_succ_of_ne_zero (n := n) (by omega)
    obtain ⟨block, hblock, h⟩ := Option.bind_eq_some_iff.mp h
    obtain ⟨mem₁, hmem₁, h⟩ := Option.bind_eq_some_iff.mp h
    have hle' := UInt64.le_iff_toNat_le.mp hle
    have h16 : (16 : UInt64).toNat = 16 := rfl
    have h1 : (x1 + 16).toNat = x1.toNat + 16 := by
      rw [UInt64.toNat_add, h16]
      omega
    have h2 : (x2 + 16).toNat = x2.toNat + 16 := by
      rw [UInt64.toNat_add, h16]
      omega
    have h3 : (x3 - 16).toNat = (k + 1) * 16 := by
      rw [UInt64.toNat_sub_of_le _ _ (UInt64.le_iff_toNat_le.mpr (by rw [h16]; omega)), h16]
      omega
    have hne : x3 - 16 ≠ 0 := by
      intro h0
      rw [h0, UInt64.toNat_zero] at h3
      omega
    unfold xnuJumpStubLoop
    rw [load_eq_ok_iff.mpr hblock, ok_bind, store_of_patch hmem₁, ok_bind]
    dsimp only
    rw [if_pos hne]
    refine ih h3 ?_ (by omega) (by rw [h1, h2]; exact h) m (by omega)
    rw [UInt64.le_iff_toNat_le]
    omega

/-- The image arrives at the new base as it was, although source and destination may overlap. -/
theorem xnuJumpStub_moves {w : World} {imageAddr newBase size : ℕ}
    (himage : w.nextStage.args[1].toNat = imageAddr) (hnew : w.nextStage.args[2].toNat = newBase)
    (hsize : w.nextStage.args[3].toNat = size) (hpos : 0 < size) (hdvd : 16 ∣ size)
    (hle : newBase ≤ imageAddr) (hwrap : imageAddr + size < 2 ^ 64)
    (hin : imageAddr + size ≤ w.mem.length) :
    ∃ mem, xnuJumpStub w = .ok mem ∧
      ChangedIn (Set.Ico newBase (newBase + size)) w.mem mem ∧
      ∀ i < size, mem[newBase + i]? = w.mem[imageAddr + i]? := by
  obtain ⟨k, rfl⟩ := hdvd
  rw [Nat.mul_comm] at hin hwrap hsize ⊢
  obtain ⟨mem, hcopy, hc, hmoved⟩ := copyBlocks_eq hle hin
  obtain ⟨k, rfl⟩ := Nat.exists_eq_succ_of_ne_zero (n := k) (by omega)
  subst himage hnew
  refine ⟨mem, xnuJumpStubLoop_eq hsize (by omega) (UInt64.le_iff_toNat_le.mpr hle) hwrap hcopy,
    hc, hmoved⟩

end XNUBoot
end JevMachO

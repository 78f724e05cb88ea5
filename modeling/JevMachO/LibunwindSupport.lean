import JevMachO.Common
import JevMachO.Lib.RegisterMoves
import JevMachO.Lib.Words

/-! Saving the register context of an arm64 caller and jumping back into it. Both routines are
straight-line code over the context's words, so what they move where is read off a run of the
moves on symbols. -/
namespace JevMachO
open Lib

namespace LibunwindSupport

/-- The registers the routines move. -/
inductive Reg where
  | x (i : Fin 31)
  | sp
  | d (i : Fin 32)
  deriving DecidableEq

/-- The instructions they are made of. Offsets are in bytes. -/
inductive Inst where
  | stp (a b base : Reg) (off : ℕ)
  | ldp (a b base : Reg) (off : ℕ)
  | str (a base : Reg) (off : ℕ)
  | ldr (a base : Reg) (off : ℕ)
  | mov (dst src : Reg)
  | movImm (dst : Reg) (imm : UInt64)
  | ret (r : Reg)

structure Machine where
  reg : Reg → UInt64
  pc : UInt64
  mem : Bytes

namespace Machine

def set (m : Machine) (r : Reg) (v : UInt64) : Machine :=
  { m with reg := Function.update m.reg r v }

def addr (m : Machine) (base : Reg) (off : ℕ) : ℕ := (m.reg base + UInt64.ofNat off).toNat

/-- `str` of one register. -/
def storeReg (m : Machine) (r : Reg) (a : ℕ) : Exec Machine := do
  let mem ← store m.mem a (leBytes 8 (m.reg r).toNat)
  return { m with mem := mem }

/-- `ldr` of one register. -/
def loadReg (m : Machine) (r : Reg) (a : ℕ) : Exec Machine := do
  return m.set r (← loadU64 m.mem a)

end Machine

/-- A load of a pair reads both words from the address its base has before it. -/
def Inst.exec (m : Machine) : Inst → Exec Machine
  | .stp a b base off => do
    let m' ← m.storeReg a (m.addr base off)
    m'.storeReg b (m.addr base off + 8)
  | .ldp a b base off => do
    let m' ← m.loadReg a (m.addr base off)
    m'.loadReg b (m.addr base off + 8)
  | .str a base off => m.storeReg a (m.addr base off)
  | .ldr a base off => m.loadReg a (m.addr base off)
  | .mov dst src => return m.set dst (m.reg src)
  | .movImm dst imm => return m.set dst imm
  | .ret r => return { m with pc := m.reg r }

def runInsts : List Inst → Machine → Exec Machine
  | [], m => return m
  | i :: is, m => do runInsts is (← i.exec m)

/-- `__unw_getcontext`. -/
def unwGetcontext : List Inst :=
  [.stp (.x 0) (.x 1) (.x 0) 0x000,
    .stp (.x 2) (.x 3) (.x 0) 0x010,
    .stp (.x 4) (.x 5) (.x 0) 0x020,
    .stp (.x 6) (.x 7) (.x 0) 0x030,
    .stp (.x 8) (.x 9) (.x 0) 0x040,
    .stp (.x 10) (.x 11) (.x 0) 0x050,
    .stp (.x 12) (.x 13) (.x 0) 0x060,
    .stp (.x 14) (.x 15) (.x 0) 0x070,
    .stp (.x 16) (.x 17) (.x 0) 0x080,
    .stp (.x 18) (.x 19) (.x 0) 0x090,
    .stp (.x 20) (.x 21) (.x 0) 0x0A0,
    .stp (.x 22) (.x 23) (.x 0) 0x0B0,
    .stp (.x 24) (.x 25) (.x 0) 0x0C0,
    .stp (.x 26) (.x 27) (.x 0) 0x0D0,
    .stp (.x 28) (.x 29) (.x 0) 0x0E0,
    .str (.x 30) (.x 0) 0x0F0,
    .mov (.x 1) .sp,
    .str (.x 1) (.x 0) 0x0F8,
    -- store return address as pc
    .str (.x 30) (.x 0) 0x100,
    -- skip cpsr
    .stp (.d 0) (.d 1) (.x 0) 0x110,
    .stp (.d 2) (.d 3) (.x 0) 0x120,
    .stp (.d 4) (.d 5) (.x 0) 0x130,
    .stp (.d 6) (.d 7) (.x 0) 0x140,
    .stp (.d 8) (.d 9) (.x 0) 0x150,
    .stp (.d 10) (.d 11) (.x 0) 0x160,
    .stp (.d 12) (.d 13) (.x 0) 0x170,
    .stp (.d 14) (.d 15) (.x 0) 0x180,
    .stp (.d 16) (.d 17) (.x 0) 0x190,
    .stp (.d 18) (.d 19) (.x 0) 0x1A0,
    .stp (.d 20) (.d 21) (.x 0) 0x1B0,
    .stp (.d 22) (.d 23) (.x 0) 0x1C0,
    .stp (.d 24) (.d 25) (.x 0) 0x1D0,
    .stp (.d 26) (.d 27) (.x 0) 0x1E0,
    .stp (.d 28) (.d 29) (.x 0) 0x1F0,
    .str (.d 30) (.x 0) 0x200,
    .str (.d 31) (.x 0) 0x208,
    -- return UNW_ESUCCESS
    .movImm (.x 0) 0,
    .ret (.x 30)]

/-- `__libunwind_Registers_arm64_jumpto`. -/
def libunwindRegistersArm64Jumpto : List Inst :=
  -- skip restore of x0,x1 for now
  [.ldp (.x 2) (.x 3) (.x 0) 0x010,
    .ldp (.x 4) (.x 5) (.x 0) 0x020,
    .ldp (.x 6) (.x 7) (.x 0) 0x030,
    .ldp (.x 8) (.x 9) (.x 0) 0x040,
    .ldp (.x 10) (.x 11) (.x 0) 0x050,
    .ldp (.x 12) (.x 13) (.x 0) 0x060,
    .ldp (.x 14) (.x 15) (.x 0) 0x070,
    -- x16 and x17 were clobbered by the call into the unwinder
    .ldp (.x 18) (.x 19) (.x 0) 0x090,
    .ldp (.x 20) (.x 21) (.x 0) 0x0A0,
    .ldp (.x 22) (.x 23) (.x 0) 0x0B0,
    .ldp (.x 24) (.x 25) (.x 0) 0x0C0,
    .ldp (.x 26) (.x 27) (.x 0) 0x0D0,
    .ldp (.x 28) (.x 29) (.x 0) 0x0E0,
    -- restore pc into lr
    .ldr (.x 30) (.x 0) 0x100,
    .ldp (.d 0) (.d 1) (.x 0) 0x110,
    .ldp (.d 2) (.d 3) (.x 0) 0x120,
    .ldp (.d 4) (.d 5) (.x 0) 0x130,
    .ldp (.d 6) (.d 7) (.x 0) 0x140,
    .ldp (.d 8) (.d 9) (.x 0) 0x150,
    .ldp (.d 10) (.d 11) (.x 0) 0x160,
    .ldp (.d 12) (.d 13) (.x 0) 0x170,
    .ldp (.d 14) (.d 15) (.x 0) 0x180,
    .ldp (.d 16) (.d 17) (.x 0) 0x190,
    .ldp (.d 18) (.d 19) (.x 0) 0x1A0,
    .ldp (.d 20) (.d 21) (.x 0) 0x1B0,
    .ldp (.d 22) (.d 23) (.x 0) 0x1C0,
    .ldp (.d 24) (.d 25) (.x 0) 0x1D0,
    .ldp (.d 26) (.d 27) (.x 0) 0x1E0,
    .ldp (.d 28) (.d 29) (.x 0) 0x1F0,
    .ldr (.d 30) (.x 0) 0x200,
    .ldr (.d 31) (.x 0) 0x208,
    -- sp must be restored after the last read from the context
    .ldr (.x 16) (.x 0) 0x0F8,
    .ldp (.x 0) (.x 1) (.x 0) 0x000,
    .mov .sp (.x 16),
    .ret (.x 30)]

/-! ### What an instruction moves -/

namespace Inst

/-- The words an instruction accesses and the register it finds them through. -/
def access : Inst → Option (Reg × ℕ × ℕ)
  | .stp _ _ base off | .ldp _ _ base off => some (base, off, 2)
  | .str _ base off | .ldr _ base off => some (base, off, 1)
  | _ => none

def moves : Inst → List (RegisterMoves.Move Reg)
  | .stp a b _ off => [.save a (off / 8), .save b (off / 8 + 1)]
  | .ldp a b _ off => [.restore a (off / 8), .restore b (off / 8 + 1)]
  | .str a _ off => [.save a (off / 8)]
  | .ldr a _ off => [.restore a (off / 8)]
  | .mov dst src => [.copy dst src]
  | .movImm dst imm => [.set dst imm]
  | .ret _ => []

/-- The words it saves registers to. -/
def savedWords : Inst → List ℕ
  | .stp _ _ _ off => [off / 8, off / 8 + 1]
  | .str _ _ off => [off / 8]
  | _ => []

def writesX0 : Inst → Bool
  | .ldp a b _ _ => a = .x 0 || b = .x 0
  | .ldr a _ _ => a = .x 0
  | .mov dst _ => dst = .x 0
  | .movImm dst _ => dst = .x 0
  | _ => false

/-- An access is to aligned words of an area of `n` that starts at `x0`. -/
def fits (n : ℕ) (i : Inst) : Bool :=
  match i.access with
  | some (base, off, count) => base = .x 0 && off % 8 = 0 && off / 8 + count ≤ n
  | none => true

end Inst

/-- Every access fits the area, and `x0` is not written before the last one. -/
def fitsArea (n : ℕ) : List Inst → Bool
  | [] => true
  | i :: is => i.fits n && (!i.writesX0 || is.all fun j => j.access.isNone) && fitsArea n is

def movesOf (is : List Inst) : List (RegisterMoves.Move Reg) := is.flatMap Inst.moves

/-! ### The machine runs the moves -/

/-- The machine's registers and the first `n` words at `ctx` are those of the state. -/
structure Holds (n ctx : ℕ) (m : Machine) (s : RegisterMoves.State Reg UInt64) : Prop where
  reg : m.reg = s.reg
  word : ∀ k < n, At m.mem (ctx + 8 * k) (leBytes 8 (s.word k).toNat)

/-- The bytes of some words at `ctx`. -/
def wordBytes (ctx : ℕ) (ks : List ℕ) : Set ℕ :=
  {i | ∃ k ∈ ks, ctx + 8 * k ≤ i ∧ i < ctx + 8 * k + 8}

variable {n ctx k : ℕ} {m m' : Machine} {s : RegisterMoves.State Reg UInt64} {r : Reg}

theorem wordBytes_mono {ks ls : List ℕ} (h : ks ⊆ ls) : wordBytes ctx ks ⊆ wordBytes ctx ls :=
  fun _ ⟨k, hk, hi⟩ => ⟨k, h hk, hi⟩

namespace Holds

theorem length_le (h : Holds n ctx m s) (hk : k < n) : ctx + 8 * k + 8 ≤ m.mem.length := by
  have hne : leBytes 8 (s.word k).toNat ≠ [] := by simp [leBytes]
  simpa using (h.word k hk).length_le hne

theorem storeReg (h : Holds n ctx m s) (hk : k < n) (r : Reg) :
    ∃ m', m.storeReg r (ctx + 8 * k) = .ok m' ∧
      Holds n ctx m' ((RegisterMoves.Move.save r k).exec id s) ∧
      ChangedIn (wordBytes ctx [k]) m.mem m'.mem := by
  have hroom : ctx + 8 * k + (leBytes 8 (m.reg r).toNat).length ≤ m.mem.length := by
    simpa using h.length_le hk
  obtain ⟨mem, hp⟩ := patch_isSome hroom
  refine ⟨{ m with mem := mem }, ?_, ⟨h.reg, fun j hj => ?_⟩, (ChangedIn.of_patch hp).mono ?_⟩
  · rw [Machine.storeReg, store_of_patch hp]
    rfl
  · by_cases hjk : j = k
    · subst hjk
      simp only [RegisterMoves.Move.exec, Function.update_self, ← h.reg]
      exact at_patch hp
    · simp only [RegisterMoves.Move.exec, Function.update_of_ne hjk]
      refine (h.word j hj).of_getElem? fun i hi => getElem?_patch_outside hp ?_
      rw [length_leBytes] at hi ⊢
      omega
  · intro i hi
    rw [length_leBytes, Set.mem_Ico] at hi
    exact ⟨k, List.mem_singleton_self k, hi⟩

theorem loadReg (h : Holds n ctx m s) (hk : k < n) (r : Reg) :
    ∃ m', m.loadReg r (ctx + 8 * k) = .ok m' ∧
      Holds n ctx m' ((RegisterMoves.Move.restore r k).exec id s) ∧ m'.mem = m.mem := by
  have hload : loadU64 m.mem (ctx + 8 * k) = .ok (s.word k) := by
    rw [loadU64_of_at (h.word k hk), UInt64.ofNat_toNat]
  refine ⟨m.set r (s.word k), ?_, ⟨?_, h.word⟩, rfl⟩
  · rw [Machine.loadReg, hload]
    rfl
  · simp only [Machine.set, RegisterMoves.Move.exec, h.reg]

/-- The address of an access through `x0`. -/
theorem addr_eq {off : ℕ} (hx0 : (m.reg (.x 0)).toNat = ctx) (hoff : off % 8 = 0)
    (hle : off / 8 < n) (hin : ctx + 8 * n ≤ 2 ^ 64) :
    m.addr (.x 0) off = ctx + 8 * (off / 8) := by
  have hof : (UInt64.ofNat off).toNat = off := UInt64.toNat_ofNat_of_lt' (by
    change off < 2 ^ 64
    omega)
  rw [Machine.addr, u64_toNat_add (by omega), hof]
  omega

end Holds

/-- The first register is kept by instructions that do not write it. -/
theorem run_moves_x0 {i : Inst} (h : i.writesX0 = false) (s : RegisterMoves.State Reg UInt64) :
    (RegisterMoves.run id i.moves s).reg (.x 0) = s.reg (.x 0) := by
  cases i with
  | ldp a b base off =>
    simp only [Inst.writesX0, Bool.or_eq_false_iff, decide_eq_false_iff_not] at h
    simp [Inst.moves, RegisterMoves.run, RegisterMoves.Move.exec, Ne.symm h.1, Ne.symm h.2]
  | ldr a base off =>
    simp only [Inst.writesX0, decide_eq_false_iff_not] at h
    simp [Inst.moves, RegisterMoves.run, RegisterMoves.Move.exec, Ne.symm h]
  | mov dst src =>
    simp only [Inst.writesX0, decide_eq_false_iff_not] at h
    simp [Inst.moves, RegisterMoves.run, RegisterMoves.Move.exec, Ne.symm h]
  | movImm dst imm =>
    simp only [Inst.writesX0, decide_eq_false_iff_not] at h
    simp [Inst.moves, RegisterMoves.run, RegisterMoves.Move.exec, Ne.symm h]
  | _ => rfl

theorem fits_iff {i : Inst} {base : Reg} {off count : ℕ} (hi : i.access = some (base, off, count)) :
    i.fits n = true ↔ base = .x 0 ∧ off % 8 = 0 ∧ off / 8 + count ≤ n := by
  simp [Inst.fits, hi, and_assoc]

/-- An instruction moves what its moves say and touches no other memory. -/
theorem Holds.exec {i : Inst} (h : Holds n ctx m s) (hin : ctx + 8 * n ≤ 2 ^ 64)
    (hfit : i.fits n = true) (hx0 : i.access ≠ none → (m.reg (.x 0)).toNat = ctx) :
    ∃ m', i.exec m = .ok m' ∧ Holds n ctx m' (RegisterMoves.run id i.moves s) ∧
      ChangedIn (wordBytes ctx i.savedWords) m.mem m'.mem := by
  cases i with
  | stp a b base off =>
    obtain ⟨rfl, hoff, hle⟩ := (fits_iff rfl).mp hfit
    have haddr := addr_eq (hx0 (by simp [Inst.access])) hoff (by omega) hin
    obtain ⟨m₁, h₁, hs₁, hc₁⟩ := h.storeReg (k := off / 8) (by omega) a
    obtain ⟨m₂, h₂, hs₂, hc₂⟩ := hs₁.storeReg (k := off / 8 + 1) (by omega) b
    refine ⟨m₂, ?_, hs₂, (hc₁.mono ?_).trans (hc₂.mono ?_)⟩
    · rw [Inst.exec, haddr, h₁, ok_bind, Nat.add_assoc]
      exact h₂
    · exact wordBytes_mono (by simp [Inst.savedWords])
    · exact wordBytes_mono (by simp [Inst.savedWords])
  | ldp a b base off =>
    obtain ⟨rfl, hoff, hle⟩ := (fits_iff rfl).mp hfit
    have haddr := addr_eq (hx0 (by simp [Inst.access])) hoff (by omega) hin
    obtain ⟨m₁, h₁, hs₁, hm₁⟩ := h.loadReg (k := off / 8) (by omega) a
    obtain ⟨m₂, h₂, hs₂, hm₂⟩ := hs₁.loadReg (k := off / 8 + 1) (by omega) b
    refine ⟨m₂, ?_, hs₂, ?_⟩
    · rw [Inst.exec, haddr, h₁, ok_bind, Nat.add_assoc]
      exact h₂
    · rw [hm₂, hm₁]
      exact ChangedIn.refl _ _
  | str a base off =>
    obtain ⟨rfl, hoff, hle⟩ := (fits_iff rfl).mp hfit
    have haddr := addr_eq (hx0 (by simp [Inst.access])) hoff (by omega) hin
    obtain ⟨m₁, h₁, hs₁, hc₁⟩ := h.storeReg (k := off / 8) (by omega) a
    exact ⟨m₁, by rw [Inst.exec, haddr, h₁], hs₁, hc₁⟩
  | ldr a base off =>
    obtain ⟨rfl, hoff, hle⟩ := (fits_iff rfl).mp hfit
    have haddr := addr_eq (hx0 (by simp [Inst.access])) hoff (by omega) hin
    obtain ⟨m₁, h₁, hs₁, hm₁⟩ := h.loadReg (k := off / 8) (by omega) a
    refine ⟨m₁, by rw [Inst.exec, haddr, h₁], hs₁, ?_⟩
    rw [hm₁]
    exact ChangedIn.refl _ _
  | mov dst src =>
    refine ⟨m.set dst (m.reg src), rfl, ⟨?_, h.word⟩, ChangedIn.refl _ _⟩
    simp [Machine.set, Inst.moves, RegisterMoves.run, RegisterMoves.Move.exec, h.reg]
  | movImm dst imm =>
    refine ⟨m.set dst imm, rfl, ⟨?_, h.word⟩, ChangedIn.refl _ _⟩
    simp [Machine.set, Inst.moves, RegisterMoves.run, RegisterMoves.Move.exec, h.reg]
  | ret r => exact ⟨{ m with pc := m.reg r }, rfl, ⟨h.reg, h.word⟩, ChangedIn.refl _ _⟩

/-- A program that fits the area runs to its end and moves what its moves say. -/
theorem Holds.runInsts {is : List Inst} (h : Holds n ctx m s) (hin : ctx + 8 * n ≤ 2 ^ 64)
    (hfit : fitsArea n is = true)
    (hx0 : (∃ i ∈ is, i.access ≠ none) → (m.reg (.x 0)).toNat = ctx) :
    ∃ m', runInsts is m = .ok m' ∧ Holds n ctx m' (RegisterMoves.run id (movesOf is) s) ∧
      ChangedIn (wordBytes ctx (is.flatMap Inst.savedWords)) m.mem m'.mem := by
  induction is generalizing m s with
  | nil => exact ⟨m, rfl, h, ChangedIn.refl _ _⟩
  | cons i is ih =>
    simp only [fitsArea, Bool.and_eq_true] at hfit
    obtain ⟨⟨hi, hkeeps⟩, his⟩ := hfit
    obtain ⟨m₁, h₁, hs₁, hc₁⟩ := h.exec hin hi fun hne => hx0 ⟨i, List.mem_cons_self, hne⟩
    have hx1 : (∃ j ∈ is, j.access ≠ none) → (m₁.reg (.x 0)).toNat = ctx := by
      rintro ⟨j, hj, hne⟩
      have hw : i.writesX0 = false := by
        rw [Bool.or_eq_true, List.all_eq_true] at hkeeps
        rcases hkeeps with hw | hall
        · simpa using hw
        · exact absurd (Option.isNone_iff_eq_none.mp (hall j hj)) hne
      rw [hs₁.reg, run_moves_x0 hw, ← h.reg]
      exact hx0 ⟨j, List.mem_cons_of_mem i hj, hne⟩
    obtain ⟨m₂, h₂, hs₂, hc₂⟩ := ih hs₁ his hx1
    refine ⟨m₂, ?_, ?_, (hc₁.mono ?_).trans (hc₂.mono ?_)⟩
    · rw [LibunwindSupport.runInsts, h₁, ok_bind, h₂]
    · rw [movesOf, List.flatMap_cons, RegisterMoves.run_append]
      exact hs₂
    · exact wordBytes_mono (by simp)
    · exact wordBytes_mono (by simp)

theorem runInsts_concat (is : List Inst) (i : Inst) (m : Machine) :
    runInsts (is ++ [i]) m = runInsts is m >>= i.exec := by
  induction is generalizing m with
  | nil =>
    simp only [List.nil_append, runInsts, pure_eq_ok, ok_bind]
    cases i.exec m <;> rfl
  | cons j is ih =>
    simp only [List.cons_append, runInsts]
    cases j.exec m with
    | error e => rfl
    | ok m₁ => exact ih m₁

/-! ### Contexts -/

/-- The words of a context. -/
def contextWords : ℕ := 66

def contextSize : ℕ := 8 * contextWords

/-- The word a register is kept in. -/
def Reg.contextWord : Reg → ℕ
  | .x i => if i = 30 then 32 else i
  | .sp => 31
  | .d i => 34 + i

/-- The words as the memory has them. -/
def wordsAt (mem : Bytes) (ctx k : ℕ) : UInt64 :=
  UInt64.ofNat (ofLE ((mem.drop (ctx + 8 * k)).take 8))

theorem holds_wordsAt {m : Machine} (h : ctx + 8 * n ≤ m.mem.length) :
    Holds n ctx m ⟨m.reg, wordsAt m.mem ctx⟩ where
  reg := rfl
  word k hk := by
    have hlen : ((m.mem.drop (ctx + 8 * k)).take 8).length = 8 := by
      rw [List.length_take, List.length_drop]
      omega
    have hlt := ofLE_lt ((m.mem.drop (ctx + 8 * k)).take 8)
    rw [hlen] at hlt
    have hbytes := leBytes_ofLE ((m.mem.drop (ctx + 8 * k)).take 8)
    rw [hlen] at hbytes
    dsimp only
    rw [wordsAt, UInt64.toNat_ofNat_of_lt' hlt, hbytes]
    exact List.take_prefix _ _

/-- What an area holds is held by every image with the same bytes there. -/
theorem Holds.congr {m₁ m₂ : Machine} (h : Holds n ctx m₁ s)
    (hmem : ∀ i < 8 * n, m₂.mem[ctx + i]? = m₁.mem[ctx + i]?) :
    Holds n ctx m₂ ⟨m₂.reg, s.word⟩ where
  reg := rfl
  word k hk := (h.word k hk).of_getElem? fun i hi => by
    rw [length_leBytes] at hi
    rw [Nat.add_assoc]
    exact hmem _ (by omega)

theorem fitsArea_unwGetcontext : fitsArea contextWords unwGetcontext.dropLast = true := by decide

theorem fitsArea_jumpto :
    fitsArea contextWords libunwindRegistersArm64Jumpto.dropLast = true := by decide

/-- Every word but the one for `cpsr`, the 34th. -/
theorem savedWords_unwGetcontext :
    ∀ k ∈ unwGetcontext.dropLast.flatMap Inst.savedWords, k < contextWords ∧ k ≠ 33 := by decide

theorem savedWords_jumpto :
    libunwindRegistersArm64Jumpto.dropLast.flatMap Inst.savedWords = [] := by decide

/-- The context has every register in its word. The return address, the word `contextWord` gives
for `x30`, is also kept as that register, in word 30. -/
theorem origin_word_unwGetcontext (r : Reg) :
    (RegisterMoves.origins (movesOf unwGetcontext.dropLast)).word r.contextWord = .reg r := by
  cases r with
  | x i => revert i; decide +kernel
  | sp => rfl
  | d i => revert i; decide +kernel

/-- Jumping into a context takes every register from its word, except two scratch registers. -/
theorem origin_reg_jumpto {r : Reg} (h16 : r ≠ .x 16) (h17 : r ≠ .x 17) :
    (RegisterMoves.origins (movesOf libunwindRegistersArm64Jumpto.dropLast)).reg r =
      .word r.contextWord := by
  cases r with
  | x i => revert i; decide +kernel
  | sp => rfl
  | d i => revert i; decide +kernel

theorem contextWord_lt (r : Reg) : r.contextWord < contextWords := by
  cases r with
  | x i => revert i; decide
  | sp => decide
  | d i => revert i; decide

/-- `__unw_getcontext` writes the context but for the word of `cpsr`, answers success, and has
only its argument register and one more changed when it returns. -/
structure SavesContext (m m' : Machine) : Prop where
  returned : m'.pc = m.reg (.x 30)
  success : m'.reg (.x 0) = 0
  kept : ∀ r, r ≠ .x 0 → r ≠ .x 1 → m'.reg r = m.reg r
  saved : ∀ r : Reg, loadU64 m'.mem ((m.reg (.x 0)).toNat + 8 * r.contextWord) = .ok (m.reg r)
  link : loadU64 m'.mem ((m.reg (.x 0)).toNat + 0x0F0) = .ok (m.reg (.x 30))
  changed : ChangedIn (wordBytes (m.reg (.x 0)).toNat ((List.range contextWords).erase 33))
    m.mem m'.mem

/-- Execution goes on behind the call of `__unw_getcontext`, with all registers as they were at
that call except the two that a call may clobber. -/
structure Resumes (m m₂ m₃ : Machine) : Prop where
  resumed : m₃.pc = m.reg (.x 30)
  restored : ∀ r, r ≠ .x 16 → r ≠ .x 17 → m₃.reg r = m.reg r
  kept : m₃.reg (.x 17) = m₂.reg (.x 17)
  mem : m₃.mem = m₂.mem

/-- What the saving routine leaves, with the words of the context. -/
theorem exists_unwGetcontext (hin : (m.reg (.x 0)).toNat + contextSize ≤ m.mem.length)
    (hmem : m.mem.length ≤ 2 ^ 64) :
    ∃ m', runInsts unwGetcontext m = .ok m' ∧ m'.pc = m.reg (.x 30) ∧
      Holds contextWords (m.reg (.x 0)).toNat m' (RegisterMoves.run id
        (movesOf unwGetcontext.dropLast) ⟨m.reg, wordsAt m.mem (m.reg (.x 0)).toNat⟩) ∧
      ChangedIn (wordBytes (m.reg (.x 0)).toNat
        (unwGetcontext.dropLast.flatMap Inst.savedWords)) m.mem m'.mem := by
  have hstart : Holds contextWords (m.reg (.x 0)).toNat m _ := holds_wordsAt hin
  obtain ⟨m₁, h₁, hs₁, hc₁⟩ := hstart.runInsts (hin.trans hmem) fitsArea_unwGetcontext fun _ => rfl
  have hlast : unwGetcontext = unwGetcontext.dropLast ++ [.ret (.x 30)] := rfl
  have hx30 : m₁.reg (.x 30) = m.reg (.x 30) := by
    rw [hs₁.reg]
    exact RegisterMoves.run_reg (o := .reg (Reg.x 30)) (by decide +kernel) _
  refine ⟨{ m₁ with pc := m₁.reg (.x 30) }, ?_, hx30, ⟨hs₁.reg, hs₁.word⟩, hc₁⟩
  rw [hlast, runInsts_concat, h₁]
  rfl

theorem unwGetcontext_savesContext
    (hin : (m.reg (.x 0)).toNat + contextSize ≤ m.mem.length) (hmem : m.mem.length ≤ 2 ^ 64) :
    ∃ m', runInsts unwGetcontext m = .ok m' ∧ SavesContext m m' := by
  obtain ⟨m', hrun, hpc, hs, hc⟩ := exists_unwGetcontext hin hmem
  refine ⟨m', hrun, hpc, ?_, fun r h0 h1 => ?_, fun r => ?_, ?_, hc.mono (wordBytes_mono ?_)⟩
  · rw [hs.reg]
    exact RegisterMoves.run_reg (o := .lit 0) (by decide +kernel) _
  · rw [hs.reg]
    refine RegisterMoves.run_reg (o := .reg r) ?_ _
    cases r with
    | x i => revert i; decide +kernel
    | sp => rfl
    | d i => revert h0 h1; revert i; decide +kernel
  · rw [loadU64_of_at (hs.word _ (contextWord_lt r)), UInt64.ofNat_toNat,
      RegisterMoves.run_word (origin_word_unwGetcontext r)]
    rfl
  · have hword := loadU64_of_at (hs.word 30 (by decide))
    rwa [UInt64.ofNat_toNat, RegisterMoves.run_word (o := .reg (Reg.x 30)) (by decide +kernel)]
      at hword
  · intro k hk
    obtain ⟨hlt, hne⟩ := savedWords_unwGetcontext k hk
    exact (List.mem_erase_of_ne hne).mpr (List.mem_range.mpr hlt)

/-- A machine with a value of its own in every register and room for a context at 16. -/
def numbered : Machine where
  reg
    | .x i => if i = 0 then 16 else 1000 + UInt64.ofNat i
    | .sp => 2000
    | .d i => 3000 + UInt64.ofNat i
  pc := 4000
  mem := List.replicate (16 + contextSize + 8) 0xEE

theorem numbered_in : (numbered.reg (.x 0)).toNat + contextSize ≤ numbered.mem.length := by
  change 16 + contextSize ≤ (List.replicate (16 + contextSize + 8) (0xEE : UInt8)).length
  rw [List.length_replicate]
  omega

theorem numbered_mem : numbered.mem.length ≤ 2 ^ 64 := by
  change (List.replicate (16 + contextSize + 8) (0xEE : UInt8)).length ≤ 2 ^ 64
  rw [List.length_replicate]
  decide

theorem unwGetcontext_savesContext_numbered :
    ∃ m', runInsts unwGetcontext numbered = .ok m' ∧ SavesContext numbered m' :=
  unwGetcontext_savesContext numbered_in numbered_mem

theorem jumpto_resumes (hin : (m.reg (.x 0)).toNat + contextSize ≤ m.mem.length)
    (hmem : m.mem.length ≤ 2 ^ 64) :
    ∃ m₁, runInsts unwGetcontext m = .ok m₁ ∧ ∀ m₂ : Machine, m₂.reg (.x 0) = m.reg (.x 0) →
      (∀ i < contextSize, m₂.mem[(m.reg (.x 0)).toNat + i]? =
        m₁.mem[(m.reg (.x 0)).toNat + i]?) →
      ∃ m₃, runInsts libunwindRegistersArm64Jumpto m₂ = .ok m₃ ∧ Resumes m m₂ m₃ := by
  obtain ⟨m₁, hrun, -, hs₁, -⟩ := exists_unwGetcontext hin hmem
  refine ⟨m₁, hrun, fun m₂ hx0 harea => ?_⟩
  obtain ⟨m₃, h₃, hs₃, hc₃⟩ := (hs₁.congr harea).runInsts (hin.trans hmem) fitsArea_jumpto
    fun _ => congrArg UInt64.toNat hx0
  have hlast : libunwindRegistersArm64Jumpto =
      libunwindRegistersArm64Jumpto.dropLast ++ [.ret (.x 30)] := rfl
  have hword : ∀ r : Reg, r ≠ .x 16 → r ≠ .x 17 → m₃.reg r = m.reg r := by
    intro r h16 h17
    rw [hs₃.reg, RegisterMoves.run_reg (origin_reg_jumpto h16 h17)]
    exact RegisterMoves.run_word (origin_word_unwGetcontext r) _
  refine ⟨{ m₃ with pc := m₃.reg (.x 30) }, ?_, hword _ (by decide) (by decide), hword, ?_, ?_⟩
  · rw [hlast, runInsts_concat, h₃]
    rfl
  · change m₃.reg (.x 17) = m₂.reg (.x 17)
    rw [hs₃.reg]
    exact RegisterMoves.run_reg (o := .reg (Reg.x 17)) (by decide +kernel) _
  · rw [savedWords_jumpto] at hc₃
    refine List.ext_getElem? fun i => hc₃.2 i ?_
    rintro ⟨k, hk, -⟩
    exact absurd hk List.not_mem_nil

/-- What is left of `m` when all registers and the memory outside the context were overwritten
and `x0` points to the context again. -/
def clobbered (m : Machine) : Machine where
  reg := Function.update (fun _ => 7) (.x 0) 16
  pc := 8
  mem := m.mem.mapIdx fun i b => if 16 ≤ i ∧ i < 16 + contextSize then b else 9

theorem jumpto_resumes_numbered : ∃ m₁ m₃, runInsts unwGetcontext numbered = .ok m₁ ∧
    runInsts libunwindRegistersArm64Jumpto (clobbered m₁) = .ok m₃ ∧
    Resumes numbered (clobbered m₁) m₃ := by
  obtain ⟨m₁, h₁, h⟩ := jumpto_resumes numbered_in numbered_mem
  obtain ⟨m₃, h₃⟩ := h (clobbered m₁) (by simp [clobbered, numbered]) (by
    intro i hi
    have hx0 : (numbered.reg (.x 0)).toNat = 16 := by decide
    rw [hx0, clobbered, List.getElem?_mapIdx]
    have hin : 16 ≤ 16 + i ∧ 16 + i < 16 + contextSize := ⟨by omega, by omega⟩
    simp only [if_pos hin, Option.map_id'])
  exact ⟨m₁, m₃, h₁, h₃⟩

end LibunwindSupport
end JevMachO

import JevMachO.MachO.LoadCommands

/-! Walks over load commands whose stored sizes nobody has checked. -/
namespace JevMachO
open Lib

namespace MachO

/-- A complete walk ends after some number of steps, and every command header it stops at is
inside the bytes the Mach-O header counts. -/
def WalkInside (mem : Bytes) (macho : ℕ) : Prop :=
  ∃ r cend lcs, loadCommands mem macho = .ok r ∧ lcCend mem macho = .ok cend ∧
    (∃ n, r.elements n = .ok lcs) ∧
    ∀ lc ∈ lcs, lcCbegin macho ≤ lc ∧ lc + LoadCommand.sizeofLoadCommand ≤ cend

/-- The bytes can be cut into pieces, none of them empty, each of which starts with a command
header that stores the length of the piece. -/
def CutBySizes (mem : Bytes) (macho sizeofcmds : ℕ) : Prop :=
  ∃ sizes : List ℕ, sizes.sum = sizeofcmds ∧ ∀ piece ∈ locate id (lcCbegin macho) sizes,
    0 < piece.2 ∧ LoadCommand.cmdsize mem piece.1 = .ok (UInt32.ofNat piece.2) ∧
      piece.1 + LoadCommand.sizeofLoadCommand ≤ lcCbegin macho + sizeofcmds

variable {mem : Bytes} {macho : ℕ}

theorem lcCend_eq {sizeofcmds : UInt32} (hsz : lcSizeof mem macho = .ok sizeofcmds) :
    lcCend mem macho = .ok (lcCbegin macho + sizeofcmds.toNat) := by
  rw [lcCend, hsz]
  rfl

theorem loadCommands_eq {sizeofcmds : UInt32} (hsz : lcSizeof mem macho = .ok sizeofcmds) :
    loadCommands mem macho = .ok ⟨lcCbegin macho,
      LoadCommand.cursor mem (lcCbegin macho + sizeofcmds.toNat)⟩ := by
  rw [loadCommands, lcCend_eq hsz]
  rfl

theorem sizes_of_visits {cend p : ℕ} {lcs : List ℕ}
    (h : (LoadCommand.cursor mem cend).Visits p lcs)
    (hin : ∀ lc ∈ lcs, lc + LoadCommand.sizeofLoadCommand ≤ cend) :
    ∃ sizes : List ℕ, p + sizes.sum = cend ∧ ∀ piece ∈ locate id p sizes,
      0 < piece.2 ∧ LoadCommand.cmdsize mem piece.1 = .ok (UInt32.ofNat piece.2) ∧
        piece.1 + LoadCommand.sizeofLoadCommand ≤ cend := by
  induction h with
  | nil he => exact ⟨[], by simpa [LoadCommand.cursor] using he, by simp⟩
  | @cons p p' lc lcs he hd hn hrest ih =>
    obtain rfl := Except.ok.inj hd
    rw [List.forall_mem_cons] at hin
    obtain ⟨sizes, hsum, hsizes⟩ := ih hin.2
    obtain ⟨sz, hsz, hp'⟩ := bind_eq_ok.mp hn
    obtain rfl := Except.ok.inj hp'
    refine ⟨sz.toNat :: sizes, by rw [List.sum_cons, ← Nat.add_assoc, hsum], ?_⟩
    rw [locate_cons, List.forall_mem_cons]
    refine ⟨⟨?_, ?_, hin.1⟩, hsizes⟩
    · -- with size zero the walk would see the rest of itself again
      by_contra h0
      rw [Nat.not_lt, Nat.le_zero] at h0
      dsimp only at h0
      rw [h0, Nat.add_zero] at hrest hn
      exact List.cons_ne_self _ _ ((Cursor.Visits.cons he hd hn hrest).unique hrest)
    · rw [hsz, UInt32.ofNat_toNat]

/-- Nothing but the stored sizes decides whether a walk over load commands ends and stays inside
the bytes the header counts. -/
theorem walkInside_iff {sizeofcmds : UInt32} (hsz : lcSizeof mem macho = .ok sizeofcmds) :
    WalkInside mem macho ↔ CutBySizes mem macho sizeofcmds.toNat := by
  have hr := loadCommands_eq hsz
  have hend := lcCend_eq hsz
  constructor
  · rintro ⟨r, cend, lcs, hr', hend', ⟨n, hn⟩, hin⟩
    obtain rfl := Except.ok.inj (hr.symm.trans hr')
    obtain rfl := Except.ok.inj (hend.symm.trans hend')
    obtain ⟨sizes, hsum, hsizes⟩ :=
      sizes_of_visits (Cursor.visits_of_elements hn) fun lc hlc => (hin lc hlc).2
    exact ⟨sizes, Nat.add_left_cancel hsum, hsizes⟩
  · rintro ⟨sizes, hsum, hsizes⟩
    have hlt := sizeofcmds.toNat_lt
    have hv : (LoadCommand.cursor mem (lcCbegin macho + (sizes.map id).sum)).Visits
        (lcCbegin macho) ((locate id (lcCbegin macho) sizes).map Prod.fst) :=
      visits_locate (fun piece hp => ⟨(hsizes piece hp).1, (hsizes piece hp).2.1⟩)
        (by rw [List.map_id, hsum]; exact hlt)
    rw [List.map_id, hsum] at hv
    refine ⟨_, _, _, hr, hend, ⟨_, hv.elements _ le_rfl⟩, fun lc hlc => ?_⟩
    obtain ⟨piece, hpiece, rfl⟩ := List.mem_map.mp hlc
    exact ⟨(locate_bounds id hpiece).1, (hsizes piece hpiece).2.2⟩

def twoCommands : Bytes :=
  headerBytes 20 ++ leBytes 4 1 ++ leBytes 4 12 ++ leBytes 4 0 ++ leBytes 4 1 ++ leBytes 4 8

theorem walkInside_twoCommands : WalkInside twoCommands 0 := by
  have hsz : lcSizeof twoCommands 0 = .ok 20 := rfl
  exact (walkInside_iff hsz).mpr ⟨[12, 8], rfl, by decide⟩

def zeroSize : Bytes := headerBytes 8 ++ leBytes 4 1 ++ leBytes 4 0

/-- It is its own successor, and a walk never ends. -/
theorem elements_zeroSize (n : ℕ) (lcs : List ℕ) :
    (LoadCommand.cursor zeroSize 40).accumulate (fun as a => .ok (as ++ [a])) n 32 lcs =
      .error .endless := by
  induction n generalizing lcs with
  | zero => rfl
  | succ n ih =>
    have hnext : (LoadCommand.cursor zeroSize 40).next 32 = .ok 32 := rfl
    have hend : (LoadCommand.cursor zeroSize 40).atEnd 32 = .ok false := rfl
    have hderef : (LoadCommand.cursor zeroSize 40).deref 32 = .ok 32 := rfl
    unfold Cursor.accumulate
    simp only [hnext, hend, hderef, ok_bind, ih]
    rfl

theorem not_walkInside_zeroSize :
    isMagicGood zeroSize 0 = .ok true ∧ lcCend zeroSize 0 = .ok zeroSize.length ∧
      symtab zeroSize 0 = .error .endless ∧ ¬WalkInside zeroSize 0 := by
  refine ⟨rfl, rfl, by decide +kernel, ?_⟩
  rintro ⟨r, cend, lcs, hr, -, ⟨n, hn⟩, -⟩
  have hsz : lcSizeof zeroSize 0 = .ok 8 := rfl
  rw [loadCommands_eq hsz] at hr
  obtain rfl := Except.ok.inj hr
  exact absurd ((elements_zeroSize n []).symm.trans hn) (by simp)

end MachO
end JevMachO

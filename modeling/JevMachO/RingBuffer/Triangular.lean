import JevMachO.RingBuffer.Progress
import Mathlib.Data.Fintype.BigOperators
import Mathlib.Algebra.BigOperators.Fin

/-! The stress test of the ring buffer: consumers that keep what they pop, and the checks on what
they have kept when all of them are done. -/
namespace JevMachO
open Lib

namespace MultiCons

variable {κ α : Type}

/-- The buffer and its threads, and what every consumer has kept. -/
structure Test (κ α : Type) extends State κ α where
  results : κ → List α

/-- The value of a `pop` that is about to succeed. -/
def popping (s : State κ α) (c : κ) : Option α :=
  match s.cons c with
  | .exchanging rdRaw res => if s.rdIdxRaw = rdRaw then some res else none
  | _ => none

def Test.keep [DecidableEq κ] (s : Test κ α) : Action κ → κ → List α
  | .producer => s.results
  | .consumer c =>
    match popping s.toState c with
    | some val => Function.update s.results c (s.results c ++ [val])
    | none => s.results

def testStep [DecidableEq κ] (g : Geometry) (s : Test κ α) (a : Action κ) : Option (Test κ α) :=
  (step g s.toState a).map fun s' => { s' with results := s.keep a }

def testInit (mBuf : ℕ → α) (vs : List α) : Test κ α where
  toState := init mBuf vs
  results _ := []

/-! ### The checks -/

def resSum (results : List UInt32) : UInt64 := results.foldl (fun acc n => acc + n.toUInt64) 0

def expectedSum (numPush : UInt64) : UInt64 := numPush * (numPush + 1) / 2

/-- What the producer pushes: the numbers from 1 on, each as a `uint32_t`. -/
def pushes (numPush : UInt64) : List UInt32 := (List.range' 1 numPush.toNat).map UInt32.ofNat

def isSorted : List UInt32 → Bool
  | [] => true
  | [_] => true
  | a :: b :: rest => !decide (b < a) && isSorted (b :: rest)

/-- The checks at the end of the test. -/
def checks {consumers : ℕ} (numPush : UInt64) (results : Fin consumers → List UInt32) : Bool :=
  let szSum := (List.finRange consumers).foldl
    (fun acc i => acc + UInt64.ofNat (results i).length) 0
  let sum := (List.finRange consumers).foldl (fun acc i => acc + resSum (results i)) 0
  (List.finRange consumers).all (fun i => isSorted (results i)) && szSum == numPush &&
    sum == expectedSum numPush

/-! ### What the consumers keep -/

section
variable {g : Geometry} {s s' : Test κ α} {c : κ} {val : α}

theorem popping_eq_none {s : State κ α} (h : ∀ res, s.cons c ≠ .exchanging s.rdIdxRaw res) :
    popping s c = none := by
  unfold popping
  split
  · rename_i rdRaw res hpc
    refine if_neg fun hrd => h res ?_
    rw [hpc, hrd]
  · rfl

/-- What the consumers keep is what they pop, each in the order of the pops. -/
structure Kept [Fintype κ] (s : Test κ α) : Prop where
  sublist : ∀ c, List.Sublist (s.results c) s.popped
  shared : ∑ c, (s.results c : Multiset α) = s.popped

/-- A sum over everything popped is the sum of the consumers' sums. -/
theorem Kept.sum_eq [Fintype κ] (h : Kept s) (f : α → ℕ) :
    ∑ c, ((s.results c).map f).sum = (s.popped.map f).sum := by
  have hmap : ∀ l : List α, (l.map f).sum = ((l : Multiset α).map f).sum := fun l => by
    rw [Multiset.map_coe, Multiset.sum_coe]
  rw [hmap, ← h.shared, ← Multiset.coe_mapAddMonoidHom, map_sum, Multiset.sum_sum]
  exact Finset.sum_congr rfl fun c _ => hmap _

variable [DecidableEq κ] {a : Action κ}

theorem testStep_toState (hs : testStep g s a = some s') :
    step g s.toState a = some s'.toState ∧ s'.results = s.keep a := by
  obtain ⟨r, hr, rfl⟩ := Option.map_eq_some_iff.mp hs
  exact ⟨hr, rfl⟩

/-- The buffer and its threads do not notice what the consumers keep. -/
theorem toState_stateAt (s : Test κ α) (acts : ℕ → Action κ) (t : ℕ) :
    (stateAt (testStep g) s acts t).toState = stateAt (step g) s.toState acts t := by
  induction t with
  | zero => rfl
  | succ t ih =>
    rw [stateAt, stateAt, ← ih, testStep]
    cases step g (stateAt (testStep g) s acts t).toState (acts t) with
    | none => rfl
    | some r => rfl

theorem sum_update [Fintype κ] (results : κ → List α) (c : κ) (val : α) :
    ∑ d, (Function.update results c (results c ++ [val]) d : Multiset α) =
      (∑ d, (results d : Multiset α)) + {val} := by
  have hupdate : (fun d => (Function.update results c (results c ++ [val]) d : Multiset α)) =
      Function.update (fun d => (results d : Multiset α)) c (results c + {val}) := by
    funext d
    by_cases hd : d = c
    · subst hd
      rw [Function.update_self, Function.update_self, ← Multiset.coe_singleton, Multiset.coe_add]
    · rw [Function.update_of_ne hd, Function.update_of_ne hd]
  rw [hupdate, Finset.sum_update_of_mem (Finset.mem_univ c),
    ← Finset.add_sum_erase _ _ (Finset.mem_univ c), Finset.sdiff_singleton_eq_erase]
  exact add_right_comm _ _ _

theorem Kept.step [Fintype κ] (h : Kept s) (hs : testStep g s a = some s') : Kept s' := by
  obtain ⟨hstep, hresults⟩ := testStep_toState hs
  cases a with
  | producer =>
    have hpopped := (producerStep_frame hstep).2.2
    constructor
    · rw [hresults, hpopped]
      exact h.sublist
    · rw [hresults, hpopped]
      exact h.shared
  | consumer c =>
    obtain ⟨hno, pc, hmoved⟩ | ⟨res, hpc, hpops⟩ := consumerStep_cases hstep
    · have hkeep : s.keep (.consumer c) = s.results := by
        rw [Test.keep, popping_eq_none hno]
      have hpopped : s'.popped = s.popped := congrArg (fun r => r.popped) hmoved
      constructor
      · rw [hresults, hkeep, hpopped]
        exact h.sublist
      · rw [hresults, hkeep, hpopped]
        exact h.shared
    · have hkeep : s.keep (.consumer c) = Function.update s.results c (s.results c ++ [res]) := by
        simp [Test.keep, popping, hpc]
      have hpopped : s'.popped = s.popped ++ [res] := congrArg (fun r => r.popped) hpops
      constructor
      · intro d
        rw [hresults, hkeep, hpopped]
        by_cases hd : d = c
        · subst hd
          rw [Function.update_self]
          exact (h.sublist d).append (.refl [res])
        · rw [Function.update_of_ne hd]
          exact (h.sublist d).trans (List.sublist_append_left s.popped [res])
      · rw [hresults, hkeep, hpopped, sum_update, h.shared, ← Multiset.coe_singleton,
          Multiset.coe_add]

theorem kept_stateAt [Fintype κ] (mBuf : ℕ → α) (vs : List α) (acts : ℕ → Action κ) (t : ℕ) :
    Kept (stateAt (testStep g) (testInit mBuf vs) acts t) := by
  have hinit : Kept (testInit mBuf vs : Test κ α) := by
    constructor
    · intro c
      exact List.nil_sublist _
    · exact Finset.sum_const_zero
  exact stateAt_stays (fun _ _ _ hs hstep => hs.step hstep) (t := 0) hinit (Nat.zero_le t)

end

/-! ### The numbers from 1 on -/

theorem toNat_foldl_add {β : Type} (f : β → UInt64) (l : List β) (a : UInt64) :
    (l.foldl (fun acc x => acc + f x) a).toNat =
      (a.toNat + (l.map fun x => (f x).toNat).sum) % 2 ^ 64 := by
  induction l generalizing a with
  | nil => exact (Nat.mod_eq_of_lt a.toNat_lt).symm
  | cons x l ih =>
    rw [List.foldl_cons, ih, UInt64.toNat_add, List.map_cons, List.sum_cons, Nat.mod_add_mod,
      Nat.add_assoc]

theorem toNat_resSum (results : List UInt32) :
    (resSum results).toNat = (results.map UInt32.toNat).sum % 2 ^ 64 := by
  rw [resSum, toNat_foldl_add, UInt64.toNat_zero, Nat.zero_add]
  rfl

theorem sum_range'_one (n : ℕ) : (List.range' 1 n).sum = n * (n + 1) / 2 := by
  have hdouble : (List.range' 1 n).sum * 2 = n * (n + 1) := by
    induction n with
    | zero => rfl
    | succ n ih =>
      rw [List.range'_1_concat, List.sum_append, List.sum_singleton, Nat.add_mul, ih]
      ring
  rw [← hdouble, Nat.mul_div_cancel _ Nat.two_pos]

section
variable {numPush : UInt64} (hlt : numPush.toNat < 2 ^ 32)
include hlt

theorem map_toNat_pushes : (pushes numPush).map UInt32.toNat = List.range' 1 numPush.toNat := by
  rw [pushes, List.map_map]
  refine (List.map_congr_left fun i hi => ?_).trans (List.map_id _)
  exact u32_toNat_ofNat (by rw [List.mem_range'_1] at hi; omega)

theorem pairwise_pushes : (pushes numPush).Pairwise (· < ·) := by
  rw [pushes, List.pairwise_map]
  refine List.Pairwise.imp_of_mem (fun hi hj hij => ?_) List.pairwise_lt_range'
  rw [List.mem_range'_1] at hi hj
  rw [UInt32.lt_iff_toNat_lt, u32_toNat_ofNat (by omega), u32_toNat_ofNat (by omega)]
  exact hij

theorem toNat_expectedSum :
    (expectedSum numPush).toNat = numPush.toNat * (numPush.toNat + 1) / 2 := by
  have hsucc : (numPush + 1).toNat = numPush.toNat + 1 := u64_toNat_add (by simp; omega)
  have hmul : numPush.toNat * (numPush.toNat + 1) < 2 ^ 64 := by
    have hle : numPush.toNat * (numPush.toNat + 1) ≤ (2 ^ 32 - 1) * 2 ^ 32 :=
      Nat.mul_le_mul (Nat.le_sub_one_of_lt hlt) (Nat.succ_le_of_lt hlt)
    omega
  rw [expectedSum, UInt64.toNat_div, UInt64.toNat_mul, hsucc, Nat.mod_eq_of_lt hmul]
  rfl

end

theorem isSorted_of_pairwise {l : List UInt32} (h : l.Pairwise (· < ·)) : isSorted l = true := by
  induction h with
  | nil => rfl
  | @cons a l hle hl ih =>
    cases l with
    | nil => rfl
    | cons b rest =>
      have hab : ¬b < a := UInt32.lt_asymm (hle b List.mem_cons_self)
      simp [isSorted, hab, ih]

/-! ### The test -/

/-- Everything is pushed, popped and kept, and all threads can be joined. -/
structure Passes {consumers : ℕ} (numPush : UInt64) (s : Test (Fin consumers) UInt32) : Prop where
  prod : s.prod = .finished
  cons : ∀ c, s.cons c = .left
  checks : checks numPush s.results = true

theorem checks_of_kept {consumers : ℕ} {numPush : UInt64} (hlt : numPush.toNat < 2 ^ 32)
    {s : Test (Fin consumers) UInt32} (h : Kept s) (hpopped : s.popped = pushes numPush) :
    checks numPush s.results = true := by
  have hsorted : ∀ c, isSorted (s.results c) = true := fun c =>
    isSorted_of_pairwise ((pairwise_pushes hlt).sublist (hpopped ▸ h.sublist c))
  have hsize : (pushes numPush).length = numPush.toNat := by simp [pushes]
  have hszSum : ((List.finRange consumers).foldl
      (fun acc i => acc + UInt64.ofNat (s.results i).length) 0).toNat = numPush.toNat := by
    have hlens := h.sum_eq fun _ => 1
    simp only [List.map_const', List.sum_replicate, smul_eq_mul, mul_one, hpopped, hsize] at hlens
    rw [toNat_foldl_add, ← Fin.sum_univ_def, UInt64.toNat_zero, Nat.zero_add]
    simp only [UInt64.toNat_ofNat']
    rw [← Finset.sum_nat_mod, hlens]
    exact Nat.mod_eq_of_lt numPush.toNat_lt
  have hsum : ((List.finRange consumers).foldl (fun acc i => acc + resSum (s.results i)) 0).toNat =
      (expectedSum numPush).toNat := by
    have hsums := h.sum_eq UInt32.toNat
    rw [hpopped, map_toNat_pushes hlt, sum_range'_one, ← toNat_expectedSum hlt] at hsums
    rw [toNat_foldl_add, ← Fin.sum_univ_def, UInt64.toNat_zero, Nat.zero_add]
    simp only [toNat_resSum]
    rw [← Finset.sum_nat_mod, hsums]
    exact Nat.mod_eq_of_lt (expectedSum numPush).toNat_lt
  simp [MultiCons.checks, hsorted, UInt64.toNat_inj.mp hszSum, UInt64.toNat_inj.mp hsum]

theorem exists_passes (g : Geometry) (hn : 2 ≤ g.cellCount) (mBuf : ℕ → UInt32) {consumers : ℕ}
    (hpos : 0 < consumers) {numPush : UInt64} (hlt : numPush.toNat < 2 ^ 32)
    {acts : ℕ → Action (Fin consumers)} (hfair : ∀ a, Recurs acts a) :
    ∃ t, ∀ u, t ≤ u →
      Passes numPush (stateAt (testStep g) (testInit mBuf (pushes numPush)) acts u) := by
  have hsize : (pushes numPush).length < 2 ^ 64 := by
    have := numPush.toNat_lt
    simpa [pushes]
  have hout := fun c => exists_runsOut (.inr hn) hsize (hfair .producer) (hfair (.consumer c))
    (live_init g mBuf (pushes numPush))
  choose t ht using hout
  refine ⟨Finset.univ.sup t, fun u hu => ?_⟩
  have hout := fun c => ht c u ((Finset.le_sup (Finset.mem_univ c)).trans hu)
  have hstate := toState_stateAt (g := g) (testInit mBuf (pushes numPush)) acts u
  have hkept := kept_stateAt (g := g) mBuf (pushes numPush) acts u
  generalize stateAt (testStep g) (testInit mBuf (pushes numPush)) acts u = s at hstate hkept ⊢
  change s.toState = stateAt (step g) (init mBuf (pushes numPush)) acts u at hstate
  rw [← hstate] at hout
  exact {
    prod := (hout ⟨0, hpos⟩).prod
    cons := fun c => (hout c).cons
    checks := checks_of_kept hlt hkept (hout ⟨0, hpos⟩).popped }

/-- The producer and two consumers in turn. -/
def roundRobin (t : ℕ) : Action (Fin 2) :=
  if t % 3 = 0 then .producer else if t % 3 = 1 then .consumer 0 else .consumer 1

theorem recurs_roundRobin (a : Action (Fin 2)) : Recurs roundRobin a := by
  intro t
  cases a with
  | producer =>
    refine ⟨3 * t, by omega, ?_⟩
    simp [roundRobin]
  | consumer c =>
    match c with
    | 0 =>
      refine ⟨3 * t + 1, by omega, ?_⟩
      simp [roundRobin, Nat.add_mod]
    | 1 =>
      refine ⟨3 * t + 2, by omega, ?_⟩
      simp [roundRobin, Nat.add_mod]

theorem passes_roundRobin : ∃ t, ∀ u, t ≤ u →
    Passes 5 (stateAt (testStep ⟨4, 2, rfl⟩) (testInit (fun _ => 0) (pushes 5)) roundRobin u) :=
  exists_passes ⟨4, 2, rfl⟩ (by decide) (fun _ => 0) (by decide) (by decide) recurs_roundRobin

end MultiCons
end JevMachO

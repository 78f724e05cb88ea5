import JevMachO.Common

/-! The search for large files on a volume. `searchfs` hands out the matches in pieces: it is called
again until it has answered that it is done. What it answers, call after call, is not known here. -/
namespace JevMachO
namespace SearchFS

/-- What a call of `searchfs` leaves behind: `errno` says why when `res` is not 0, and the inode
numbers are the first `num_matches` entries of the result buffer. -/
structure SearchResult where
  res : Int32
  errno : Int32
  inos : List UInt64
  deriving DecidableEq, Repr

def eBusy : Int32 := 16

def eAgain : Int32 := 35

def srchfsStart : UInt32 := 0x1

def srchfsMatchFiles : UInt32 := 0x8

inductive Phase where
  | searching
  | finished
  | assertFailed
  deriving DecidableEq, Repr

/-- Where the loop is: the options of the next call, those of the calls made, and the files handed
to the thread pool. -/
structure Search where
  options : UInt32
  calls : List UInt32
  submitted : List (UInt64 × UInt64)
  phase : Phase
  deriving DecidableEq, Repr

def start : Search := ⟨srchfsStart ||| srchfsMatchFiles, [], [], .searching⟩

/-- A round of the loop, with the result of its call. -/
def round (fsidRaw : UInt64) (r : SearchResult) (s : Search) : Search :=
  let s := { s with calls := s.calls ++ [s.options] }
  if r.res ≠ 0 ∧ ¬(r.errno ≠ eAgain ∨ r.errno ≠ eBusy) then { s with phase := .assertFailed }
  -- restarts are not handled
  else if r.res ≠ 0 ∧ r.errno = eBusy then { s with phase := .assertFailed }
  else
    { s with
      options := s.options &&& ~~~srchfsStart
      submitted := s.submitted ++ r.inos.map (fsidRaw, ·)
      phase := if r.res = 0 then .finished else .searching }

/-- `files_larger_than` after at most `n` rounds, on the volume that `statfs` gave the number of,
when the calls of `searchfs` have these results. -/
def filesLargerThan (fsidRaw : UInt64) (results : ℕ → SearchResult) : ℕ → Search
  | 0 => start
  | n + 1 =>
    let s := filesLargerThan fsidRaw results n
    match s.phase with
    | .searching => round fsidRaw (results s.calls.length) s
    | _ => s

/-! ### What the loop makes of the results -/

/-- There is more to come. -/
def SearchResult.TryAgain (r : SearchResult) : Prop := r.res ≠ 0 ∧ r.errno = eAgain

instance (r : SearchResult) : Decidable r.TryAgain := inferInstanceAs (Decidable (_ ∧ _))

/-- The files that the first `n` calls returned. -/
def returned (fsidRaw : UInt64) (results : ℕ → SearchResult) (n : ℕ) : List (UInt64 × UInt64) :=
  (List.range n).flatMap fun i => (results i).inos.map (fsidRaw, ·)

/-- Every match is submitted once and in order; a call that asks to be made again is followed by
another, and the first other one by none. -/
structure SearchesAll (fsidRaw : UInt64) (results : ℕ → SearchResult) : Prop where
  submits : ∀ n, (filesLargerThan fsidRaw results n).submitted =
    returned fsidRaw results (filesLargerThan fsidRaw results n).calls.length
  goesOn : ∀ n, (∀ i < n, (results i).TryAgain) →
    (filesLargerThan fsidRaw results (n + 1)).calls.length = n + 1
  ends : ∀ n, ¬(results n).TryAgain →
    ∀ m, (filesLargerThan fsidRaw results m).calls.length ≤ n + 1

/-- The first call that does not ask to be made again succeeds, or finds the volume changed and
returns nothing. -/
def EndsWell (results : ℕ → SearchResult) : Prop :=
  ∀ n, (∀ i < n, (results i).TryAgain) → ¬(results n).TryAgain →
    (results n).res = 0 ∨ (results n).errno = eBusy ∧ (results n).inos = []

variable {fsidRaw : UInt64} {results : ℕ → SearchResult} {n : ℕ} {r : SearchResult} {s : Search}

theorem returned_succ (fsidRaw : UInt64) (results : ℕ → SearchResult) (n : ℕ) :
    returned fsidRaw results (n + 1) =
      returned fsidRaw results n ++ (results n).inos.map (fsidRaw, ·) := by
  rw [returned, List.range_succ, List.flatMap_append, List.flatMap_singleton]
  rfl

/-- The first condition of the loop never holds: an error number is not two numbers at once. -/
theorem not_again_and_busy (r : SearchResult) :
    ¬(r.res ≠ 0 ∧ ¬(r.errno ≠ eAgain ∨ r.errno ≠ eBusy)) := by
  rintro ⟨-, h⟩
  rw [not_or, not_not, not_not] at h
  exact absurd (h.1.symm.trans h.2) (by decide)

/-- What a round can do: fail because the volume has changed, or submit the matches and look at
`res`. -/
theorem round_eq (fsidRaw : UInt64) (r : SearchResult) (s : Search) :
    round fsidRaw r s =
      if r.res ≠ 0 ∧ r.errno = eBusy then
        { s with calls := s.calls ++ [s.options], phase := .assertFailed }
      else
        { options := s.options &&& ~~~srchfsStart
          calls := s.calls ++ [s.options]
          submitted := s.submitted ++ r.inos.map (fsidRaw, ·)
          phase := if r.res = 0 then .finished else .searching } := by
  unfold round
  rw [if_neg (not_again_and_busy r)]

theorem length_calls_round (fsidRaw : UInt64) (r : SearchResult) (s : Search) :
    (round fsidRaw r s).calls.length = s.calls.length + 1 := by
  rw [round_eq]
  split_ifs <;> simp

theorem filesLargerThan_searching (h : (filesLargerThan fsidRaw results n).phase = .searching) :
    filesLargerThan fsidRaw results (n + 1) =
      round fsidRaw (results (filesLargerThan fsidRaw results n).calls.length)
        (filesLargerThan fsidRaw results n) := by
  conv_lhs => rw [filesLargerThan]
  simp only [h]

theorem filesLargerThan_stopped (h : (filesLargerThan fsidRaw results n).phase ≠ .searching) :
    filesLargerThan fsidRaw results (n + 1) = filesLargerThan fsidRaw results n := by
  conv_lhs => rw [filesLargerThan]
  split
  case h_1 hphase => exact absurd hphase h
  case h_2 => rfl

/-- As long as it goes on, the loop has made a call in every round. -/
theorem length_calls_searching (h : (filesLargerThan fsidRaw results n).phase = .searching) :
    (filesLargerThan fsidRaw results n).calls.length = n := by
  induction n with
  | zero => rfl
  | succ n ih =>
    have hbefore : (filesLargerThan fsidRaw results n).phase = .searching := by
      by_contra hstopped
      rw [filesLargerThan_stopped hstopped] at h
      exact hstopped h
    rw [filesLargerThan_searching hbefore, length_calls_round, ih hbefore]

/-- Any error that is not about a changed volume makes the loop go on. -/
theorem searching_round_iff (fsidRaw : UInt64) (r : SearchResult) (s : Search) :
    (round fsidRaw r s).phase = .searching ↔ r.res ≠ 0 ∧ r.errno ≠ eBusy := by
  rw [round_eq]
  by_cases hbusy : r.res ≠ 0 ∧ r.errno = eBusy
  · rw [if_pos hbusy]
    exact iff_of_false nofun fun h => h.2 hbusy.2
  · rw [if_neg hbusy]
    by_cases hres : r.res = 0
    · dsimp only
      rw [if_pos hres]
      exact iff_of_false nofun fun h => h.1 hres
    · dsimp only
      rw [if_neg hres]
      exact iff_of_true rfl ⟨hres, fun h => hbusy ⟨hres, h⟩⟩

/-- The matches of a call that finds the volume changed are lost. -/
theorem submitted_round_iff (fsidRaw : UInt64) (r : SearchResult) (s : Search) :
    (round fsidRaw r s).submitted = s.submitted ++ r.inos.map (fsidRaw, ·) ↔
      (r.res ≠ 0 ∧ r.errno = eBusy → r.inos = []) := by
  rw [round_eq]
  by_cases hbusy : r.res ≠ 0 ∧ r.errno = eBusy
  · rw [if_pos hbusy, List.self_eq_append_right, List.map_eq_nil_iff]
    exact ⟨fun h _ => h, fun h => h hbusy⟩
  · rw [if_neg hbusy]
    exact iff_of_true rfl fun h => absurd h hbusy

theorem SearchResult.TryAgain.not_busy (h : r.TryAgain) : r.errno ≠ eBusy := by
  rw [h.2]
  decide

theorem searching_of_tryAgain (fsidRaw : UInt64) (h : ∀ i < n, (results i).TryAgain) :
    (filesLargerThan fsidRaw results n).phase = .searching := by
  induction n with
  | zero => rfl
  | succ n ih =>
    have hs := ih fun i hi => h i (Nat.lt_succ_of_lt hi)
    have hr := h n (Nat.lt_succ_self n)
    rw [filesLargerThan_searching hs, length_calls_searching hs]
    exact (searching_round_iff _ _ _).mpr ⟨hr.1, hr.not_busy⟩

theorem goesOn (h : ∀ i < n, (results i).TryAgain) :
    (filesLargerThan fsidRaw results (n + 1)).calls.length = n + 1 := by
  have hs := searching_of_tryAgain fsidRaw h
  rw [filesLargerThan_searching hs, length_calls_round, length_calls_searching hs]

/-- What the loop keeps when the results end well: all but the last call asked to be made again,
and what the calls returned is submitted. -/
structure Inv (fsidRaw : UInt64) (results : ℕ → SearchResult) (s : Search) : Prop where
  submitted : s.submitted = returned fsidRaw results s.calls.length
  again : ∀ i, i + 1 < s.calls.length → (results i).TryAgain
  searching : s.phase = .searching → ∀ i < s.calls.length, (results i).TryAgain

theorem inv_round (hends : EndsWell results) (h : Inv fsidRaw results s)
    (hs : s.phase = .searching) :
    Inv fsidRaw results (round fsidRaw (results s.calls.length) s) := by
  have hall := h.searching hs
  have hlen := length_calls_round fsidRaw (results s.calls.length) s
  refine ⟨?_, ?_, ?_⟩
  · rw [hlen, returned_succ, ← h.submitted, submitted_round_iff]
    intro hbusy
    have hno : ¬(results s.calls.length).TryAgain := fun ht => ht.not_busy hbusy.2
    rcases hends _ hall hno with hzero | ⟨-, hnone⟩
    · exact absurd hzero hbusy.1
    · exact hnone
  · intro i hi
    rw [hlen] at hi
    exact hall i (Nat.lt_of_succ_lt_succ hi)
  · intro hgoes i hi
    rw [searching_round_iff] at hgoes
    rw [hlen] at hi
    rcases Nat.lt_succ_iff_lt_or_eq.mp hi with hi | rfl
    · exact hall i hi
    · by_contra hno
      rcases hends _ hall hno with hzero | ⟨hbusy, -⟩
      · exact hgoes.1 hzero
      · exact hgoes.2 hbusy

theorem inv_filesLargerThan (fsidRaw : UInt64) (hends : EndsWell results) (n : ℕ) :
    Inv fsidRaw results (filesLargerThan fsidRaw results n) := by
  induction n with
  | zero =>
    exact ⟨rfl, fun i hi => absurd hi (Nat.not_lt_zero _),
      fun _ i hi => absurd hi (Nat.not_lt_zero i)⟩
  | succ n ih =>
    by_cases hs : (filesLargerThan fsidRaw results n).phase = .searching
    · rw [filesLargerThan_searching hs]
      exact inv_round hends ih hs
    · rw [filesLargerThan_stopped hs]
      exact ih

/-- The loop searches as it is to exactly when the results end well. -/
theorem searchesAll_iff (fsidRaw : UInt64) (results : ℕ → SearchResult) :
    SearchesAll fsidRaw results ↔ EndsWell results := by
  constructor
  · intro h n hall hno
    by_contra hbad
    rw [not_or, not_and] at hbad
    have hs := searching_of_tryAgain fsidRaw hall
    have hlen := length_calls_searching hs
    have hround := filesLargerThan_searching hs
    rw [hlen] at hround
    by_cases hbusy : (results n).errno = eBusy
    · -- the matches of the last call are lost
      have hsubmits := h.submits (n + 1)
      rw [h.goesOn n hall, returned_succ, hround] at hsubmits
      have hbefore := h.submits n
      rw [hlen] at hbefore
      rw [← hbefore, submitted_round_iff] at hsubmits
      exact hbad.2 hbusy (hsubmits ⟨hbad.1, hbusy⟩)
    · -- the loop goes on, and makes another call
      have hs' : (filesLargerThan fsidRaw results (n + 1)).phase = .searching := by
        rw [hround]
        exact (searching_round_iff _ _ _).mpr ⟨hbad.1, hbusy⟩
      have hmore := h.ends n hno (n + 2)
      rw [filesLargerThan_searching hs', length_calls_round, length_calls_searching hs'] at hmore
      omega
  · intro hends
    refine ⟨fun n => (inv_filesLargerThan fsidRaw hends n).submitted, fun n => goesOn, ?_⟩
    intro n hno m
    by_contra hlt
    exact hno ((inv_filesLargerThan fsidRaw hends m).again n (by omega))

/-- A search in two calls. -/
def twoCalls (n : ℕ) : SearchResult := if n = 0 then ⟨-1, eAgain, [7, 9]⟩ else ⟨0, 0, [11]⟩

example : filesLargerThan 3 twoCalls 5 =
    ⟨srchfsMatchFiles, [srchfsStart ||| srchfsMatchFiles, srchfsMatchFiles],
      [(3, 7), (3, 9), (3, 11)], .finished⟩ := by decide

def eNoEnt : Int32 := 2

/-- A volume that is not there is searched for ever. -/
theorem not_searchesAll_noEnt : ¬ ∀ (fsidRaw : UInt64) (results : ℕ → SearchResult),
    SearchesAll fsidRaw results := by
  intro h
  have hcalls := (h 0 fun _ => ⟨-1, eNoEnt, []⟩).ends 0 (by decide) 2
  revert hcalls
  decide

end SearchFS
end JevMachO

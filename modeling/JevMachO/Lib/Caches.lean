import Mathlib.Data.List.Induction
import Mathlib.Data.Set.Insert
import Mathlib.Logic.Function.Basic

/-! A processor that fetches its instructions past its data cache. At any moment it may write a line
of the data cache back, take a line into the instruction cache or drop one from there. What a fetch
may see after a program is worked out for one address at a time, as a set of values. -/
namespace Lib

/-- What loads see, what is at the point where both caches meet, and what the instruction cache
holds. -/
structure Caches (α β : Type) where
  data : α → β
  unified : α → β
  instr : α → Option β

namespace Caches

variable {α β ι : Type}

/-- What a program does. Maintenance is by line, which is given by an address in it. -/
inductive Instr (α β : Type) where
  | store (a : α) (v : β)
  | clean (a : α)
  | invalidate (a : α)

/-- A fetch that misses reads past the data cache. -/
def fetch (s : Caches α β) (a : α) : β := (s.instr a).getD (s.unified a)

variable [DecidableEq ι] (line : α → ι)

def writeBack (s : Caches α β) (l : ι) : Caches α β :=
  { s with unified := fun x => if line x = l then s.data x else s.unified x }

def refill (s : Caches α β) (l : ι) : Caches α β :=
  { s with instr := fun x => if line x = l then some (s.unified x) else s.instr x }

def drop (s : Caches α β) (l : ι) : Caches α β :=
  { s with instr := fun x => if line x = l then none else s.instr x }

def exec [DecidableEq α] (s : Caches α β) : Instr α β → Caches α β
  | .store a v => { s with data := Function.update s.data a v }
  | .clean a => writeBack line s (line a)
  | .invalidate a => drop line s (line a)

variable {line} in
@[simp] theorem writeBack_unified (s : Caches α β) (l : ι) (a : α) :
    (writeBack line s l).unified a = if line a = l then s.data a else s.unified a := rfl

variable {line} in
@[simp] theorem refill_instr (s : Caches α β) (l : ι) (a : α) :
    (refill line s l).instr a = if line a = l then some (s.unified a) else s.instr a := rfl

variable {line} in
@[simp] theorem drop_instr (s : Caches α β) (l : ι) (a : α) :
    (drop line s l).instr a = if line a = l then none else s.instr a := rfl

variable {line} in
@[simp] theorem exec_store_data [DecidableEq α] (s : Caches α β) (a : α) (v : β) :
    (exec line s (.store a v)).data = Function.update s.data a v := rfl

/-- The instruction stores to the address or looks after its line. -/
def Instr.Touches (a : α) : Instr α β → Prop
  | .store b _ => b = a
  | .clean b => line a = line b
  | .invalidate b => line a = line b

/-- A run of the program from `s`, with what the processor does by itself in between. -/
inductive Runs [DecidableEq α] (s : Caches α β) : List (Instr α β) → Caches α β → Prop where
  | start : Runs s [] s
  | writeBack {is s'} (h : Runs s is s') (l : ι) : Runs s is (writeBack line s' l)
  | refill {is s'} (h : Runs s is s') (l : ι) : Runs s is (refill line s' l)
  | drop {is s'} (h : Runs s is s') (l : ι) : Runs s is (drop line s' l)
  | exec {is s'} (h : Runs s is s') (i : Instr α β) : Runs s (is ++ [i]) (exec line s' i)

/-- What a fetch from `a` may see after the program. -/
def fetchable [DecidableEq α] (s : Caches α β) (is : List (Instr α β)) (a : α) : Set β :=
  {v | ∃ s', Runs line s is s' ∧ s'.fetch a = v}

/-- What one address may have in the three places, an empty place in the instruction cache counting
for what would be fetched. -/
structure Possible (β : Type) where
  data : β
  unified : Set β
  fetched : Set β

namespace Possible

/-- Before the program. -/
def init (s : Caches α β) (a : α) : Possible β where
  data := s.data a
  unified := {s.unified a, s.data a}
  fetched := {v | v = s.unified a ∨ v = s.data a ∨ s.instr a = some v}

def step [DecidableEq α] (a : α) (p : Possible β) : Instr α β → Possible β
  | .store b v => if b = a then ⟨v, insert v p.unified, insert v p.fetched⟩ else p
  | .clean b => if line a = line b then { p with unified := {p.data} } else p
  | .invalidate b => if line a = line b then { p with fetched := p.unified } else p

def after [DecidableEq α] (a : α) (p : Possible β) (is : List (Instr α β)) : Possible β :=
  is.foldl (step line a) p

/-- Stored data gets to the point where the caches meet, and from there into a fetch. -/
structure Closed (p : Possible β) : Prop where
  data : p.data ∈ p.unified
  unified : p.unified ⊆ p.fetched

/-- The state is among the possible ones at `a`. -/
structure Has (p : Possible β) (a : α) (s : Caches α β) : Prop where
  data : s.data a = p.data
  unified : s.unified a ∈ p.unified
  instr : ∀ v, s.instr a = some v → v ∈ p.fetched

variable {line} {a b : α} {p : Possible β} {s s' : Caches α β} {is is' : List (Instr α β)} {v : β}

omit [DecidableEq ι] in
theorem closed_init (s : Caches α β) (a : α) : Closed (init s a) where
  data := .inr rfl
  unified := by
    intro v hv
    cases hv with
    | inl h => exact .inl h
    | inr h => exact .inr (.inl h)

omit [DecidableEq ι] in
theorem has_init (s : Caches α β) (a : α) : Has (init s a) a s where
  data := rfl
  unified := .inl rfl
  instr _ hv := .inr (.inr hv)

omit [DecidableEq ι] in
theorem Has.fetch (h : Has p a s) (hp : Closed p) : s.fetch a ∈ p.fetched := by
  unfold Caches.fetch
  cases hi : s.instr a with
  | none => exact hp.unified h.unified
  | some v => exact h.instr v hi

theorem Has.writeBack (h : Has p a s) (hp : Closed p) (l : ι) :
    Has p a (writeBack line s l) where
  data := h.data
  unified := by
    rw [writeBack_unified]
    split_ifs
    · rw [h.data]
      exact hp.data
    · exact h.unified
  instr := h.instr

theorem Has.refill (h : Has p a s) (hp : Closed p) (l : ι) : Has p a (refill line s l) where
  data := h.data
  unified := h.unified
  instr v hv := by
    rw [refill_instr] at hv
    split_ifs at hv
    · exact Option.some.inj hv ▸ hp.unified h.unified
    · exact h.instr v hv

theorem Has.drop (h : Has p a s) (l : ι) : Has p a (drop line s l) where
  data := h.data
  unified := h.unified
  instr v hv := by
    rw [drop_instr] at hv
    split_ifs at hv
    exact h.instr v hv

variable [DecidableEq α]

theorem after_append (a : α) (p : Possible β) (is is' : List (Instr α β)) :
    after line a p (is ++ is') = after line a (after line a p is) is' :=
  List.foldl_append

theorem Closed.step (hp : Closed p) (i : Instr α β) : Closed (p.step line a i) := by
  cases i with
  | store b v =>
    rw [Possible.step]
    split_ifs
    · exact ⟨Set.mem_insert _ _, Set.insert_subset_insert hp.unified⟩
    · exact hp
  | clean b =>
    rw [Possible.step]
    split_ifs
    · exact ⟨rfl, Set.singleton_subset_iff.mpr (hp.unified hp.data)⟩
    · exact hp
  | invalidate b =>
    rw [Possible.step]
    split_ifs
    · exact ⟨hp.data, Set.Subset.refl _⟩
    · exact hp

theorem Closed.after (hp : Closed p) (is : List (Instr α β)) : Closed (p.after line a is) := by
  induction is generalizing p with
  | nil => exact hp
  | cons i is ih => exact ih (hp.step i)

theorem Has.exec (h : Has p a s) (i : Instr α β) :
    Has (p.step line a i) a (Caches.exec line s i) := by
  cases i with
  | store b v =>
    rw [Possible.step]
    split_ifs with hb
    · subst hb
      refine ⟨?_, .inr h.unified, fun w hw => .inr (h.instr w hw)⟩
      rw [exec_store_data, Function.update_self]
    · refine ⟨?_, h.unified, h.instr⟩
      rw [exec_store_data, Function.update_of_ne (Ne.symm hb), h.data]
  | clean b =>
    have hunified : (Caches.exec line s (.clean b)).unified a =
        if line a = line b then s.data a else s.unified a := rfl
    rw [Possible.step]
    split_ifs with hb
    · rw [if_pos hb, h.data] at hunified
      exact ⟨h.data, hunified, h.instr⟩
    · rw [if_neg hb] at hunified
      exact ⟨h.data, hunified ▸ h.unified, h.instr⟩
  | invalidate b =>
    have hinstr : (Caches.exec line s (.invalidate b)).instr a =
        if line a = line b then none else s.instr a := rfl
    rw [Possible.step]
    split_ifs with hb
    · rw [if_pos hb] at hinstr
      refine ⟨h.data, h.unified, fun v hv => ?_⟩
      rw [hinstr] at hv
      cases hv
    · rw [if_neg hb] at hinstr
      refine ⟨h.data, h.unified, fun v hv => ?_⟩
      rw [hinstr] at hv
      exact h.instr v hv

/-- No run leaves the possible states. -/
theorem has_after (h : Runs line s is s') (a : α) : Has ((init s a).after line a is) a s' := by
  have hclosed : ∀ is, Closed ((init s a).after line a is) := (closed_init s a).after
  induction h with
  | start => exact has_init s a
  | writeBack _ l ih => exact ih.writeBack (hclosed _) l
  | refill _ l ih => exact ih.refill (hclosed _) l
  | drop _ l ih => exact ih.drop l
  | exec _ i ih =>
    rw [after_append]
    exact ih.exec i

/-! ### Programs -/

theorem step_of_not_touches {i : Instr α β} (h : ¬i.Touches line a) : p.step line a i = p := by
  cases i with
  | store b v => exact if_neg h
  | clean b => exact if_neg h
  | invalidate b => exact if_neg h

theorem after_of_not_touches (h : ∀ i ∈ is, ¬i.Touches line a) : p.after line a is = p := by
  induction is with
  | nil => rfl
  | cons i is ih =>
    have hi := step_of_not_touches (p := p) (h i List.mem_cons_self)
    change (p.step line a i).after line a is = p
    rw [hi, ih fun j hj => h j (List.mem_cons_of_mem i hj)]

/-- Only a store changes what loads see. -/
theorem data_after (h : ∀ v, .store a v ∉ is) : (p.after line a is).data = p.data := by
  induction is generalizing p with
  | nil => rfl
  | cons i is ih =>
    have hrest := ih (p := p.step line a i) fun v hv => h v (List.mem_cons_of_mem i hv)
    refine hrest.trans ?_
    cases i with
    | store b v =>
      have hb : ¬b = a := by
        rintro rfl
        exact h v List.mem_cons_self
      rw [Possible.step, if_neg hb]
    | clean b =>
      rw [Possible.step]
      split_ifs <;> rfl
    | invalidate b =>
      rw [Possible.step]
      split_ifs <;> rfl

/-- All three places agree. -/
structure Settled (p : Possible β) (v : β) : Prop where
  data : p.data = v
  unified : p.unified = {v}
  fetched : p.fetched = {v}

/-- Only another store disturbs them. -/
theorem Settled.after (h : Settled p v) (his : ∀ w, .store a w ∉ is) :
    Settled (p.after line a is) v := by
  induction is generalizing p with
  | nil => exact h
  | cons i is ih =>
    refine ih ?_ fun w hw => his w (List.mem_cons_of_mem i hw)
    cases i with
    | store b w =>
      have hb : ¬b = a := by
        rintro rfl
        exact his w List.mem_cons_self
      rw [Possible.step, if_neg hb]
      exact h
    | clean b =>
      rw [Possible.step]
      split_ifs
      · refine ⟨h.data, ?_, h.fetched⟩
        rw [h.data]
      · exact h
    | invalidate b =>
      rw [Possible.step]
      split_ifs
      · exact ⟨h.data, h.unified, h.unified⟩
      · exact h

/-- A line that is cleaned and then invalidated is settled, whatever was before. -/
theorem settled_maintain (p : Possible β) (ha : line a = line b) :
    Settled (p.after line a [.clean b, .invalidate b]) p.data := by
  have hclean : p.step line a (.clean b) = { p with unified := {p.data} } := if_pos ha
  have h : p.after line a [.clean b, .invalidate b] = ⟨p.data, {p.data}, {p.data}⟩ := by
    rw [after, List.foldl_cons, hclean, List.foldl_cons, List.foldl_nil]
    exact if_pos ha
  rw [h]
  exact ⟨rfl, rfl, rfl⟩

/-- The other way about, it may be taken into the instruction cache again before it is clean. -/
theorem after_invalidate_clean (p : Possible β) (ha : line a = line b) :
    p.after line a [.invalidate b, .clean b] = ⟨p.data, {p.data}, p.unified⟩ := by
  have hinvalidate : p.step line a (.invalidate b) = { p with fetched := p.unified } := if_pos ha
  rw [after, List.foldl_cons, hinvalidate, List.foldl_cons, List.foldl_nil]
  exact if_pos ha

/-! ### Every possible value is there after some run -/

/-- The processor may drop the line, and a fetch then sees what is there for both caches. -/
theorem exists_dropped (h : Runs line s is s') (a : α) : ∃ s'', Runs line s is s'' ∧
    s''.unified a = s'.unified a ∧ s''.fetch a = s'.unified a := by
  refine ⟨_, h.drop (line a), rfl, ?_⟩
  rw [fetch, drop_instr, if_pos rfl, Option.getD_none]
  rfl

/-- It may write the line back before. -/
theorem exists_writtenBack (h : Runs line s is s') (a : α) : ∃ s'', Runs line s is s'' ∧
    s''.unified a = s'.data a ∧ s''.fetch a = s'.data a := by
  obtain ⟨s'', hrun, hunified, hfetch⟩ := exists_dropped (h.writeBack (line a)) a
  rw [writeBack_unified, if_pos rfl] at hunified hfetch
  exact ⟨s'', hrun, hunified, hfetch⟩

/-- What a fetch sees may come to be in the instruction cache. -/
theorem exists_held (h : Runs line s is s') (a : α) : ∃ s'', Runs line s is s'' ∧
    s''.instr a = some (s'.fetch a) := by
  cases hi : s'.instr a with
  | none =>
    refine ⟨_, h.refill (line a), ?_⟩
    rw [refill_instr, if_pos rfl, fetch, hi, Option.getD_none]
  | some v => exact ⟨s', h, by rw [hi, fetch, hi, Option.getD_some]⟩

/-- Runs lead to every possible value. -/
structure Attained (line : α → ι) (s : Caches α β) (is : List (Instr α β)) (a : α)
    (p : Possible β) : Prop where
  unified : ∀ v ∈ p.unified, ∃ s', Runs line s is s' ∧ s'.unified a = v
  fetched : ∀ v ∈ p.fetched, ∃ s', Runs line s is s' ∧ s'.fetch a = v

theorem attained_init (s : Caches α β) (a : α) : Attained line s [] a (init s a) := by
  have hstart : Runs line s [] s := .start
  constructor
  · intro v hv
    cases hv with
    | inl h => exact ⟨s, hstart, h.symm⟩
    | inr h =>
      obtain ⟨s', hrun, hunified, -⟩ := exists_writtenBack hstart a
      exact ⟨s', hrun, hunified.trans h.symm⟩
  · intro v hv
    rcases hv with rfl | rfl | h
    · obtain ⟨s', hrun, -, hfetch⟩ := exists_dropped hstart a
      exact ⟨s', hrun, hfetch⟩
    · obtain ⟨s', hrun, -, hfetch⟩ := exists_writtenBack hstart a
      exact ⟨s', hrun, hfetch⟩
    · refine ⟨s, hstart, ?_⟩
      rw [fetch, h, Option.getD_some]

/-- An instruction that leaves both places alone takes the runs along. -/
theorem Attained.append (h : Attained line s is a p) {i : Instr α β}
    (hunified : ∀ s', (Caches.exec line s' i).unified a = s'.unified a)
    (hinstr : ∀ s', (Caches.exec line s' i).instr a = s'.instr a) :
    Attained line s (is ++ [i]) a p where
  unified := by
    intro v hv
    obtain ⟨s', hrun, rfl⟩ := h.unified v hv
    exact ⟨_, hrun.exec i, hunified s'⟩
  fetched := by
    intro v hv
    obtain ⟨s', hrun, rfl⟩ := h.fetched v hv
    refine ⟨_, hrun.exec i, ?_⟩
    rw [fetch, fetch, hunified, hinstr]

theorem Attained.step (h : Attained line s is a p) (hp : Closed p)
    (hdata : ∀ s', Runs line s is s' → s'.data a = p.data) (i : Instr α β) :
    Attained line s (is ++ [i]) a (p.step line a i) := by
  obtain ⟨s₀, hrun₀, -⟩ := h.unified p.data hp.data
  cases i with
  | store b v =>
    have hkeep := h.append (i := .store b v) (fun _ => rfl) fun _ => rfl
    rw [Possible.step]
    split_ifs with hb
    · subst hb
      have hstored : (Caches.exec line s₀ (.store b v)).data b = v := by
        rw [exec_store_data, Function.update_self]
      obtain ⟨s', hrun, hunified, hfetch⟩ := exists_writtenBack (hrun₀.exec (.store b v)) b
      rw [hstored] at hunified hfetch
      constructor
      · intro w hw
        cases hw with
        | inl h => exact ⟨s', hrun, hunified.trans h.symm⟩
        | inr h => exact hkeep.unified w h
      · intro w hw
        cases hw with
        | inl h => exact ⟨s', hrun, hfetch.trans h.symm⟩
        | inr h => exact hkeep.fetched w h
    · exact hkeep
  | clean b =>
    rw [Possible.step]
    split_ifs with hb
    · constructor
      · intro v hv
        obtain rfl : v = p.data := hv
        refine ⟨_, hrun₀.exec (.clean b), ?_⟩
        rw [Caches.exec, writeBack_unified, if_pos hb]
        exact hdata s₀ hrun₀
      · intro v hv
        obtain ⟨s', hrun, rfl⟩ := h.fetched v hv
        obtain ⟨s'', hrun', hheld⟩ := exists_held hrun a
        refine ⟨_, hrun'.exec (.clean b), ?_⟩
        have hinstr : (Caches.exec line s'' (.clean b)).instr a = s''.instr a := rfl
        rw [fetch, hinstr, hheld, Option.getD_some]
    · apply h.append
      · intro s'
        rw [Caches.exec, writeBack_unified, if_neg hb]
      · exact fun _ => rfl
  | invalidate b =>
    rw [Possible.step]
    split_ifs with hb
    · constructor
      · intro v hv
        obtain ⟨s', hrun, rfl⟩ := h.unified v hv
        exact ⟨_, hrun.exec (.invalidate b), rfl⟩
      · intro v hv
        obtain ⟨s', hrun, rfl⟩ := h.unified v hv
        refine ⟨_, hrun.exec (.invalidate b), ?_⟩
        rw [fetch, Caches.exec, drop_instr, if_pos hb, Option.getD_none]
        rfl
    · apply h.append
      · exact fun _ => rfl
      · intro s'
        rw [Caches.exec, drop_instr, if_neg hb]

theorem attained_after (s : Caches α β) (a : α) (is : List (Instr α β)) :
    Attained line s is a ((init s a).after line a is) := by
  induction is using List.reverseRecOn with
  | nil => exact attained_init s a
  | append_singleton is i ih =>
    rw [after_append]
    exact ih.step ((closed_init s a).after is) (fun s' h => (has_after h a).data) i

end Possible

/-- The values go to one address after the other. -/
def storeAll : ℕ → List β → List (Instr ℕ β)
  | _, [] => []
  | a, v :: vs => .store a v :: storeAll (a + 1) vs

theorem mem_storeAll {a : ℕ} {vs : List β} {i : Instr ℕ β} (h : i ∈ storeAll a vs) :
    ∃ b v, i = .store b v ∧ a ≤ b ∧ b < a + vs.length := by
  induction vs generalizing a with
  | nil => cases h
  | cons v vs ih =>
    cases h with
    | head => exact ⟨a, v, rfl, Nat.le_refl a, Nat.lt_add_of_pos_right (Nat.zero_lt_succ _)⟩
    | tail _ h =>
      obtain ⟨b, w, rfl, hle, hlt⟩ := ih h
      rw [List.length_cons]
      exact ⟨b, w, rfl, by omega, by omega⟩

variable {line}

/-- Each address gets its own value, which may or may not be written back at once. -/
theorem Possible.after_storeAll {line : ℕ → ι} {a i : ℕ} {vs : List β} {v : β}
    (p : Possible β) (hi : vs[i]? = some v) :
    p.after line (a + i) (storeAll a vs) =
      ⟨v, insert v p.unified, insert v p.fetched⟩ := by
  induction vs generalizing a i p with
  | nil => cases hi
  | cons w vs ih =>
    cases i with
    | zero =>
      obtain rfl : w = v := Option.some.inj hi
      have hrest : ∀ i ∈ storeAll (a + 1) vs, ¬i.Touches line (a + 0) := by
        intro i hi htouches
        obtain ⟨b, u, rfl, hle, -⟩ := mem_storeAll hi
        have heq : b = a + 0 := htouches
        omega
      change (p.step line (a + 0) (.store a w)).after line (a + 0) (storeAll (a + 1) vs) = _
      rw [after_of_not_touches hrest]
      exact if_pos rfl
    | succ i =>
      have hstep : p.step line (a + (i + 1)) (.store a w) = p := if_neg (by omega)
      have haddr : a + (i + 1) = a + 1 + i := by omega
      change (p.step line (a + (i + 1)) (.store a w)).after line _ (storeAll (a + 1) vs) = _
      rw [hstep, haddr]
      exact ih p hi

variable [DecidableEq α] {a b : α} {s s' : Caches α β} {is : List (Instr α β)}

/-- What a fetch may see is worked out without going through the runs. -/
theorem fetchable_eq (s : Caches α β) (is : List (Instr α β)) (a : α) :
    fetchable line s is a = ((Possible.init s a).after line a is).fetched := by
  ext v
  constructor
  · rintro ⟨s', hrun, rfl⟩
    exact (Possible.has_after hrun a).fetch ((Possible.closed_init s a).after is)
  · exact (Possible.attained_after s a is).fetched v

end Caches
end Lib

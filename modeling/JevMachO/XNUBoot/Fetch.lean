import JevMachO.Lib.Caches
import JevMachO.M1N1
import JevMachO.XNUBoot.CopyLoop
import Mathlib.Data.List.Nodup

/-! What the processor may fetch where code was just put: the stub, looked after by
`flush_i_and_d_cache`, and what the stub moves, looked after by the stub itself. The instructions
take effect in the order of the program, one when the last is done. -/
namespace JevMachO
open Lib Caches Possible

namespace M1N1

def lineOf (a : ℕ) : ℕ := a / 64

/-- The barriers wait for what is done in order here. -/
def CacheOp.instr : CacheOp → Option (Instr ℕ UInt8)
  | .icIvau addr => some (.invalidate addr.toNat)
  | .dcCvau addr => some (.clean addr.toNat)
  | .dsbSy => none
  | .isbSy => none

/-- The bytes are copied to the address, which is then flushed. -/
def copyAndFlush (n : ℕ) (addr : UInt64) (bs : Bytes) (size : Int64) :
    Exec (List (Instr ℕ UInt8)) := do
  let ops ← flushIAndDCache n addr size
  return storeAll addr.toNat bs ++ ops.filterMap CacheOp.instr

variable {addr : UInt64} {size : Int64} {bs : Bytes}

def flushedLines (a n : ℕ) : List ℕ := List.range' (a / 64 * 64) ((n + a % 64 + 63) / 64) 64

theorem lt_of_mem_flushedLines {a n l : ℕ} (hn : 0 < n) (hfit : a + n ≤ 2 ^ 64)
    (hl : l ∈ flushedLines a n) : l < 2 ^ 64 := by
  obtain ⟨-, b, hb, ha⟩ := (mem_lines_iff hn).mp hl
  omega

theorem flushIAndDCache_eq {n fuel : ℕ} (hn : 0 < n) (hsize : size.toInt = n)
    (hlt : n < 2 ^ 62) (hfuel : n < fuel) :
    flushIAndDCache fuel addr size =
      .ok ((flushedLines addr.toNat n).flatMap (fun l => flushLine (UInt64.ofNat l)) ++
        [.dsbSy, .isbSy]) := by
  have hpos : 0 < size.toInt := by omega
  have hgrown := toInt_grownSize addr hpos (by omega)
  rw [hsize] at hgrown
  have hloop := flushLoop_eq (l := addr.toNat / 64 * 64)
    (k := (n + addr.toNat % 64 + 63) / 64) (by rw [hgrown]; omega) (by rw [hgrown]; omega)
    (Nat.lt_of_le_of_lt (by omega) hfuel)
  have hfirst : addr &&& ~~~(cacheLine - 1) = UInt64.ofNat (addr.toNat / 64 * 64) := by
    rw [← toNat_alignedAddr, UInt64.ofNat_toNat]
  rw [← hfirst] at hloop
  rw [flushIAndDCache, hloop]
  rfl

theorem filterMap_flush {ls : List ℕ} (h : ∀ l ∈ ls, l < 2 ^ 64) :
    (ls.flatMap (fun l => flushLine (UInt64.ofNat l)) ++ [CacheOp.dsbSy, .isbSy]).filterMap
      CacheOp.instr = ls.flatMap fun l => [.invalidate l, .clean l] := by
  induction ls with
  | nil => rfl
  | cons l ls ih =>
    have hl : (UInt64.ofNat l).toNat = l := UInt64.toNat_ofNat_of_lt' (h l List.mem_cons_self)
    have hrest := ih fun m hm => h m (List.mem_cons_of_mem l hm)
    rw [List.flatMap_cons, List.append_assoc, List.filterMap_append, hrest, List.flatMap_cons,
      flushLine, List.filterMap_cons, List.filterMap_cons, List.filterMap_nil]
    change Instr.invalidate (UInt64.ofNat l).toNat :: Instr.clean (UInt64.ofNat l).toNat :: _ = _
    rw [hl]
    rfl

theorem exists_flushedLines {a n i : ℕ} (hi : i < n) : ∃ ls ls',
    flushedLines a n = ls ++ lineOf (a + i) * 64 :: ls' ∧
      ∀ l ∈ ls ++ ls', lineOf (a + i) ≠ lineOf l := by
  have hmem : lineOf (a + i) * 64 ∈ flushedLines a n := by
    refine (mem_lines_iff (by omega)).mpr ⟨Nat.dvd_mul_left 64 _, a + i, ?_, ?_⟩
    · unfold lineOf
      omega
    · omega
  obtain ⟨ls, ls', hsplit⟩ := List.append_of_mem hmem
  refine ⟨ls, ls', hsplit, fun l hl heq => ?_⟩
  have hnodup : (flushedLines a n).Nodup := List.nodup_range' _ (by decide)
  have hldvd : 64 ∣ l := by
    have hl' : l ∈ flushedLines a n := by
      rw [hsplit]
      rcases List.mem_append.mp hl with h | h
      · exact List.mem_append_left _ h
      · exact List.mem_append_right _ (List.mem_cons_of_mem _ h)
    exact ((mem_lines_iff (by omega)).mp hl').aligned
  have hsame : l = lineOf (a + i) * 64 := by
    rw [heq]
    unfold lineOf
    omega
  rw [hsplit, List.nodup_middle] at hnodup
  exact (List.nodup_cons.mp hnodup).1 (hsame ▸ hl)

/-- The flush leaves to a fetch what was at the point of unification before, what was in the data
cache and what was stored: the line may be taken into the instruction cache between its own two
instructions. -/
theorem fetchable_copyAndFlush (s : Caches ℕ UInt8) (hne : bs ≠ [])
    (hsize : size.toInt = bs.length) (hlt : bs.length < 2 ^ 62)
    (hfit : addr.toNat + bs.length ≤ 2 ^ 64) :
    ∃ is, (∀ fuel > bs.length, copyAndFlush fuel addr bs size = .ok is) ∧
      ∀ i b, bs[i]? = some b → fetchable lineOf s is (addr.toNat + i) =
        {b, s.unified (addr.toNat + i), s.data (addr.toNat + i)} := by
  have hpos := List.length_pos_iff.mpr hne
  have hbound := fun l => lt_of_mem_flushedLines (l := l) hpos hfit
  refine ⟨storeAll addr.toNat bs ++
    (flushedLines addr.toNat bs.length).flatMap fun l => [.invalidate l, .clean l], ?_, ?_⟩
  · intro fuel hfuel
    rw [copyAndFlush, flushIAndDCache_eq hpos hsize hlt hfuel, ok_bind, pure_eq_ok,
      filterMap_flush hbound]
  · intro i b hb
    have hi : i < bs.length := (List.getElem?_eq_some_iff.mp hb).1
    obtain ⟨ls, ls', hsplit, hother⟩ := exists_flushedLines (a := addr.toNat) hi
    have huntouched : ∀ ks ⊆ ls ++ ls',
        ∀ i' ∈ ks.flatMap (fun l => ([.invalidate l, .clean l] : List (Instr ℕ UInt8))),
          ¬i'.Touches lineOf (addr.toNat + i) := by
      intro ks hks i' hi'
      obtain ⟨l, hl, hi'⟩ := List.mem_flatMap.mp hi'
      have hne' := hother l (hks hl)
      rcases List.mem_pair.mp hi' with rfl | rfl
      · exact hne'
      · exact hne'
    have hown : lineOf (addr.toNat + i) = lineOf (lineOf (addr.toNat + i) * 64) := by
      unfold lineOf
      omega
    rw [fetchable_eq, hsplit, List.flatMap_append, List.flatMap_cons, after_append,
      after_append, after_append, after_storeAll _ hb,
      after_of_not_touches (huntouched ls (List.subset_append_left _ _)),
      after_invalidate_clean _ hown,
      after_of_not_touches (huntouched ls' (List.subset_append_right _ _))]
    rfl

theorem fetchable_copyAndFlush_two : ∃ is,
    (∀ fuel > 8, copyAndFlush fuel 60 [0xE1, 0x03, 0x04, 0xAA, 0x20, 0x00, 0x1F, 0xD6] 8 =
      .ok is) ∧
    fetchable lineOf ⟨fun _ => 0, fun _ => 0, fun _ => none⟩ is 64 = {0x20, 0} := by
  obtain ⟨is, hrun, h⟩ := @fetchable_copyAndFlush 60 8
    [0xE1, 0x03, 0x04, 0xAA, 0x20, 0x00, 0x1F, 0xD6]
    ⟨fun _ => 0, fun _ => 0, fun _ => none⟩ (List.cons_ne_nil _ _) rfl (by decide) (by decide)
  refine ⟨is, hrun, (h 4 0x20 rfl).trans ?_⟩
  rw [Set.pair_eq_singleton]

end M1N1

namespace XNUBoot
open M1N1

def stubTurn (newBase : ℕ) (pair : Bytes) : List (Instr ℕ UInt8) :=
  storeAll newBase pair ++ [.clean newBase, .invalidate newBase]

/-- The loop of `xnu_jump_stub` with the instructions that look after the caches. -/
def xnuJumpStubInstrs : ℕ → Bytes → (imageAddr newBase imageSize : UInt64) →
    Exec (List (Instr ℕ UInt8) × Bytes)
  | 0, _, _, _, _ => .error .endless
  | n + 1, mem, x1, x2, x3 => do
    let pair ← load mem x1.toNat 16
    let mem ← store mem x2.toNat pair
    let x3 := x3 - 16
    if x3 ≠ 0 then do
      let (is, mem) ← xnuJumpStubInstrs n mem (x1 + 16) (x2 + 16) x3
      return (stubTurn x2.toNat pair ++ is, mem)
    else return (stubTurn x2.toNat pair, mem)

/-- Maintenance aside, it is the loop. -/
theorem map_xnuJumpStubInstrs (n : ℕ) (mem : Bytes) (x1 x2 x3 : UInt64) :
    (xnuJumpStubInstrs n mem x1 x2 x3).map Prod.snd = xnuJumpStubLoop n mem x1 x2 x3 := by
  induction n generalizing mem x1 x2 x3 with
  | zero => rfl
  | succ n ih =>
    unfold xnuJumpStubInstrs xnuJumpStubLoop
    cases load mem x1.toNat 16 with
    | error e => rfl
    | ok pair =>
      simp only [ok_bind]
      cases store mem x2.toNat pair with
      | error e => rfl
      | ok mem =>
        simp only [ok_bind]
        split_ifs
        · rw [← ih]
          cases xnuJumpStubInstrs n mem (x1 + 16) (x2 + 16) (x3 - 16) with
          | error e => rfl
          | ok r => rfl
        · rfl

/-- Loads see this memory. -/
def Holds (s : Caches ℕ UInt8) (mem : Bytes) : Prop := ∀ a b, mem[a]? = some b → s.data a = b

variable {n : ℕ} {mem mem' : Bytes} {x1 x2 x3 : UInt64} {is : List (Instr ℕ UInt8)}
  {a : ℕ} {p : Possible UInt8} {s : Caches ℕ UInt8}

inductive Turns : (dst k : ℕ) → Bytes → List (Instr ℕ UInt8) → Bytes → Prop where
  | last {dst mem pair mem'} (hpair : pair.length = 16) (h : patch mem dst pair = some mem') :
      Turns dst 0 mem (stubTurn dst pair) mem'
  | next {dst k mem pair mem₁ is mem'} (hpair : pair.length = 16)
      (h : patch mem dst pair = some mem₁) (hrest : Turns (dst + 16) k mem₁ is mem') :
      Turns dst (k + 1) mem (stubTurn dst pair ++ is) mem'

theorem turns_of_stubInstrs (h : xnuJumpStubInstrs n mem x1 x2 x3 = .ok (is, mem')) {k : ℕ}
    (hk : x3.toNat = 16 * (k + 1)) (hfit : x2.toNat + 16 * (k + 1) ≤ 2 ^ 64) :
    Turns x2.toNat k mem is mem' := by
  induction n generalizing mem x1 x2 x3 is k with
  | zero => cases h
  | succ n ih =>
    have hsub : (x3 - 16).toNat = (2 ^ 64 - 16 + x3.toNat) % 2 ^ 64 := UInt64.toNat_sub x3 16
    have hlt := x3.toNat_lt
    unfold xnuJumpStubInstrs at h
    obtain ⟨pair, hpair, h⟩ := bind_eq_ok.mp h
    obtain ⟨mem₁, hstore, h⟩ := bind_eq_ok.mp h
    have hlen := (load_eq_ok hpair).2.1
    dsimp only at h
    split_ifs at h with hne
    · obtain ⟨⟨rest, mem₂⟩, hrest, h⟩ := bind_eq_ok.mp h
      obtain ⟨rfl, rfl⟩ := Prod.mk.inj (Except.ok.inj h)
      have hk0 : k ≠ 0 := by
        rintro rfl
        apply hne
        rw [← UInt64.toNat_inj, hsub, hk]
        rfl
      obtain ⟨k, rfl⟩ := Nat.exists_eq_succ_of_ne_zero hk0
      have hadd : (x2 + 16).toNat = x2.toNat + 16 := by
        have h16 : (16 : UInt64).toNat = 16 := rfl
        rw [UInt64.toNat_add, h16]
        omega
      have hturns := ih hrest (k := k) (by omega) (by omega)
      rw [hadd] at hturns
      exact .next hlen (store_eq_ok hstore) hturns
    · obtain ⟨rfl, rfl⟩ := Prod.mk.inj (Except.ok.inj h)
      rw [not_not] at hne
      rw [hne, UInt64.toNat_zero] at hsub
      obtain rfl : k = 0 := by omega
      exact .last hlen (store_eq_ok hstore)

variable {dst k : ℕ}

theorem mem_stubTurn {pair : Bytes} {b : ℕ} {v : UInt8} (hpair : pair.length = 16)
    (h : Instr.store b v ∈ stubTurn dst pair) : dst ≤ b ∧ b < dst + 16 := by
  rcases List.mem_append.mp h with h | h
  · obtain ⟨c, w, heq, hle, hlt⟩ := mem_storeAll h
    obtain ⟨rfl, rfl⟩ := Instr.store.inj heq
    exact ⟨hle, hpair ▸ hlt⟩
  · rcases List.mem_pair.mp h with h | h
    · cases h
    · cases h

theorem Turns.mem_store (h : Turns dst k mem is mem') {b : ℕ} {v : UInt8}
    (hb : Instr.store b v ∈ is) : dst ≤ b ∧ b < dst + 16 * (k + 1) := by
  induction h with
  | last hpair _ => exact mem_stubTurn hpair hb
  | next hpair _ _ ih =>
    rcases List.mem_append.mp hb with hb | hb
    · have hrange := mem_stubTurn hpair hb
      omega
    · have hrange := ih hb
      omega

theorem Turns.changedIn (h : Turns dst k mem is mem') :
    ChangedIn (Set.Ico dst (dst + 16 * (k + 1))) mem mem' := by
  induction h with
  | last hpair h =>
    have hc := ChangedIn.of_patch h
    rwa [hpair] at hc
  | next hpair h _ ih =>
    have hc := ChangedIn.of_patch h
    rw [hpair] at hc
    exact (hc.mono (Set.Ico_subset_Ico_right (by omega))).trans
      (ih.mono (Set.Ico_subset_Ico (by omega) (by omega)))

theorem after_stubTurn (dst : ℕ) {pair : Bytes} {i : ℕ} {v : UInt8} (hi : pair[i]? = some v)
    (p : Possible UInt8) :
    (lineOf (dst + i) = lineOf dst → Settled (p.after lineOf (dst + i) (stubTurn dst pair)) v) ∧
      (lineOf (dst + i) ≠ lineOf dst → p.after lineOf (dst + i) (stubTurn dst pair) =
        ⟨v, insert v p.unified, insert v p.fetched⟩) := by
  rw [stubTurn, after_append, after_storeAll p hi]
  constructor
  · intro hline
    exact settled_maintain _ hline
  · intro hline
    refine after_of_not_touches fun i' hi' => ?_
    rcases List.mem_pair.mp hi' with rfl | rfl
    · exact hline
    · exact hline

theorem Turns.settled_before (h : Turns dst k mem is mem') (ha : a < dst)
    (hline : lineOf a = lineOf dst) : Settled (p.after lineOf a is) p.data := by
  have hturn : ∀ pair : Bytes, pair.length = 16 →
      Settled (p.after lineOf a (stubTurn dst pair)) p.data := by
    intro pair hpair
    have hstores : ∀ i ∈ storeAll dst pair, ¬i.Touches lineOf a := by
      intro i hi htouches
      obtain ⟨b, v, rfl, hle, -⟩ := mem_storeAll hi
      have heq : b = a := htouches
      omega
    rw [stubTurn, after_append, after_of_not_touches hstores]
    exact settled_maintain p hline
  cases h with
  | last hpair _ => exact hturn _ hpair
  | next hpair _ hrest =>
    rw [after_append]
    refine (hturn _ hpair).after fun w hw => ?_
    have hrange := hrest.mem_store hw
    omega

/-- What is possible where the turns store: the line is settled if a turn starts in it that is not
over before the store, and only the last turn may reach into a line where none starts. -/
theorem Turns.after_eq (h : Turns dst k mem is mem') (hle : dst ≤ a)
    (hlt : a < dst + 16 * (k + 1)) {v : UInt8} (hv : mem'[a]? = some v) :
    (lineOf a ≤ lineOf (dst + 16 * k) → Settled (p.after lineOf a is) v) ∧
      (lineOf (dst + 16 * k) < lineOf a →
        p.after lineOf a is = ⟨v, insert v p.unified, insert v p.fetched⟩) := by
  obtain ⟨i, rfl⟩ := Nat.exists_eq_add_of_le hle
  induction h generalizing p i with
  | @last dst mem pair mem' hpair h =>
    have hbyte : pair[i]? = some v := by
      have hin : dst ≤ dst + i ∧ dst + i < dst + pair.length := by omega
      rwa [getElem?_patch h, if_pos hin, Nat.add_sub_cancel_left] at hv
    obtain ⟨hsame, hother⟩ := after_stubTurn dst hbyte p
    constructor
    · intro hline
      apply hsame
      unfold lineOf at hline ⊢
      omega
    · intro hline
      exact hother hline.ne'
  | @next dst k mem pair mem₁ is mem' hpair h hrest ih =>
    rw [after_append]
    by_cases hi : i < 16
    · have hbyte : pair[i]? = some v := by
        have hin : dst ≤ dst + i ∧ dst + i < dst + pair.length := by omega
        have hout : dst + i ∉ Set.Ico (dst + 16) (dst + 16 + 16 * (k + 1)) := by
          rw [Set.mem_Ico]
          omega
        rwa [hrest.changedIn.2 _ hout, getElem?_patch h, if_pos hin, Nat.add_sub_cancel_left] at hv
      obtain ⟨hsame, hother⟩ := after_stubTurn dst hbyte p
      by_cases hline : lineOf (dst + i) = lineOf dst
      · refine ⟨fun _ => (hsame hline).after fun w hw => ?_, fun hlast => ?_⟩
        · have hrange := hrest.mem_store hw
          omega
        · unfold lineOf at hlast hline
          omega
      · -- the next turn starts in the line the pair reaches into
        have hnext : lineOf (dst + i) = lineOf (dst + 16) := by
          unfold lineOf at hline ⊢
          omega
        rw [hother hline]
        refine ⟨fun _ => hrest.settled_before (by omega) hnext, fun hlast => ?_⟩
        unfold lineOf at hlast hnext
        omega
    · obtain ⟨j, rfl⟩ := Nat.exists_eq_add_of_le (Nat.le_of_not_lt hi)
      have haddr : dst + (16 + j) = dst + 16 + j := by omega
      have hlast : dst + 16 * (k + 1) = dst + 16 + 16 * k := by omega
      rw [haddr] at hv ⊢
      rw [hlast]
      obtain ⟨hsettled, hreached⟩ := ih (p := p.after lineOf (dst + 16 + j) (stubTurn dst pair)) j
        (by omega) (by omega) hv
      refine ⟨hsettled, fun hline => ?_⟩
      have huntouched : p.after lineOf (dst + 16 + j) (stubTurn dst pair) = p := by
        refine after_of_not_touches fun i' hi' => ?_
        rcases List.mem_append.mp hi' with hi' | hi'
        · obtain ⟨b, w, rfl, -, hb⟩ := mem_storeAll hi'
          intro heq
          have heq : b = dst + 16 + j := heq
          omega
        · have hne : lineOf (dst + 16 + j) ≠ lineOf dst := by
            unfold lineOf at hline ⊢
            omega
          rcases List.mem_pair.mp hi' with rfl | rfl
          · exact hne
          · exact hne
      rw [huntouched] at hreached
      rw [huntouched]
      exact hreached hline

theorem exists_turns (hrun : xnuJumpStubInstrs n mem x1 x2 x3 = .ok (is, mem')) (h0 : x3 ≠ 0)
    (hfit : x2.toNat + x3.toNat ≤ 2 ^ 64) :
    ∃ k, x3.toNat = 16 * (k + 1) ∧ Turns x2.toNat k mem is mem' := by
  have hdvd : 16 ∣ x3.toNat := by
    by_contra hdvd
    apply xnuJumpStubLoop_endless hdvd n mem mem' x1 x2
    rw [← map_xnuJumpStubInstrs, hrun]
    rfl
  obtain ⟨k, hk⟩ := hdvd
  have hk0 : k ≠ 0 := by
    rintro rfl
    exact h0 (UInt64.toNat_inj.mp hk)
  obtain ⟨k, rfl⟩ := Nat.exists_eq_succ_of_ne_zero hk0
  exact ⟨k, hk, turns_of_stubInstrs hrun hk (by omega)⟩

theorem Turns.holds {s' : Caches ℕ UInt8} (h : Turns dst k mem is mem') (hs : Holds s mem)
    (hs' : Runs lineOf s is s') : Holds s' mem' := by
  intro a b hb
  rw [(has_after hs' a).data]
  by_cases ha : a ∈ Set.Ico dst (dst + 16 * (k + 1))
  · obtain ⟨hsettled, hreached⟩ := h.after_eq (p := init s a) ha.1 ha.2 hb
    by_cases hline : lineOf a ≤ lineOf (dst + 16 * k)
    · exact (hsettled hline).data
    · rw [hreached (Nat.lt_of_not_le hline)]
  · have hstores : ∀ v, .store a v ∉ is := fun v hv => ha (h.mem_store hv)
    rw [data_after hstores]
    exact hs a b ((h.changedIn.2 a ha).symm.trans hb)

theorem Turns.fetchable_eq {b : UInt8} (h : Turns dst k mem is mem') (hle : dst ≤ a)
    (hlt : a < dst + 16 * (k + 1)) (hb : mem'[a]? = some b) :
    fetchable lineOf s is a =
      if lineOf a ≤ lineOf (dst + 16 * k) then {b}
      else {v | v = b ∨ v = s.unified a ∨ v = s.data a ∨ s.instr a = some v} := by
  obtain ⟨hsettled, hreached⟩ := h.after_eq (p := init s a) hle hlt hb
  rw [Caches.fetchable_eq]
  split_ifs with hline
  · exact (hsettled hline).fetched
  · rw [hreached (Nat.lt_of_not_le hline)]
    rfl

/-- After the loop, whatever the processor did by itself in between, loads see the moved image, and
so does a fetch from any line a pair starts in. If the last pair reaches into one more line, a fetch
from there may still see whatever was there in any of the three places. -/
theorem fetchable_stub (hs : Holds s mem)
    (hrun : xnuJumpStubInstrs n mem x1 x2 x3 = .ok (is, mem')) (h0 : x3 ≠ 0)
    (hfit : x2.toNat + x3.toNat ≤ 2 ^ 64) :
    (∀ s', Runs lineOf s is s' → Holds s' mem') ∧
      ∀ a b, x2.toNat ≤ a → a < x2.toNat + x3.toNat → mem'[a]? = some b →
        fetchable lineOf s is a =
          if lineOf a ≤ lineOf (x2.toNat + x3.toNat - 16) then {b}
          else {v | v = b ∨ v = s.unified a ∨ v = s.data a ∨ s.instr a = some v} := by
  obtain ⟨k, hk, hturns⟩ := exists_turns hrun h0 hfit
  rw [hk]
  have hlast : x2.toNat + 16 * (k + 1) - 16 = x2.toNat + 16 * k := by omega
  rw [hlast]
  exact ⟨fun s' hs' => hturns.holds hs hs', fun a b hle hlt hb => hturns.fetchable_eq hle hlt hb⟩

theorem fetchable_stub_straddling : ∃ is mem',
    xnuJumpStubInstrs 1 (List.replicate 72 0 ++ List.replicate 16 1) 72 56 16 =
      .ok (is, mem') ∧
    fetchable lineOf ⟨fun a => if a < 72 then 0 else 1, fun _ => 0, fun _ => none⟩ is 63 = {1} ∧
    0 ∈ fetchable lineOf ⟨fun a => if a < 72 then 0 else 1, fun _ => 0, fun _ => none⟩ is 64 := by
  have hmem : Holds ⟨fun a => if a < 72 then 0 else 1, fun _ => 0, fun _ => none⟩
      (List.replicate 72 0 ++ List.replicate 16 1) := by
    intro a b hb
    rw [List.getElem?_append, List.length_replicate] at hb
    change (if a < 72 then 0 else 1) = b
    split_ifs at hb ⊢ with ha
    · rw [List.getElem?_replicate, if_pos ha] at hb
      exact Option.some.inj hb
    · rw [List.getElem?_replicate] at hb
      split_ifs at hb
      exact Option.some.inj hb
  have hrun : xnuJumpStubInstrs 1 (List.replicate 72 0 ++ List.replicate 16 1) 72 56 16 =
      .ok (stubTurn 56 (List.replicate 16 1),
        List.replicate 56 0 ++ List.replicate 32 1) := by rfl
  obtain ⟨-, h⟩ := fetchable_stub hmem hrun (by decide) (by decide)
  refine ⟨_, _, hrun, (h 63 1 (by decide) (by decide) rfl).trans (if_pos (by decide)), ?_⟩
  rw [h 64 1 (by decide) (by decide) rfl, if_neg (by decide)]
  exact .inr (.inl rfl)

end XNUBoot
end JevMachO

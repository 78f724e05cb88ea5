import Mathlib.Data.List.Basic
import Mathlib.Algebra.BigOperators.Group.List.Basic
import Mathlib.Algebra.Order.BigOperators.Group.List
import Mathlib.Algebra.GroupWithZero.Nat
import JevMachO.Lib.Words

/-! Gathered writes: `writev` over the one `write` the boot loader offers. -/
namespace JevMachO
open Lib

namespace MuslSyscalls

/-- `struct iovec`. -/
structure IOVec where
  iovBase : UInt64
  iovLen : UInt64
  deriving DecidableEq, Repr

/-- One call of `olibc2uboot_write` and what it returned. -/
structure Call where
  iov : IOVec
  ret : Int64
  deriving DecidableEq, Repr

/-- The value returned, with the calls made on the way and the state of the other side. -/
structure Written (σ : Type*) where
  ret : Int64
  calls : List Call
  state : σ

variable {σ : Type*} (olibc2ubootWrite : Int32 → IOVec → σ → Int64 × σ) (fd : Int32)

/-- The loop of `SYS_IMP_writev`. `sub_res` is an `int`, and is compared as a `size_t`. -/
def writevLoop (res : Int64) : List IOVec → σ → Written σ
  | [], s => ⟨res, [], s⟩
  | iov :: rest, s =>
    let (ret, s) := olibc2ubootWrite fd iov s
    let subRes := ret.toInt32
    let res := (res.toUInt64 + iov.iovLen).toInt64
    if subRes.toInt64.toUInt64 < iov.iovLen then
      ⟨if 0 ≤ subRes then res else subRes.toInt64, [⟨iov, ret⟩], s⟩
    else
      let w := writevLoop res rest s
      { w with calls := ⟨iov, ret⟩ :: w.calls }

def sysImpWritev (iov : List IOVec) (s : σ) : Written σ := writevLoop olibc2ubootWrite fd 0 iov s

/-- What the other side answers when it is handed every buffer in turn. -/
def replies : List IOVec → σ → List Call
  | [], _ => []
  | iov :: rest, s =>
    let (ret, s) := olibc2ubootWrite fd iov s
    ⟨iov, ret⟩ :: replies rest s

def Call.Full (c : Call) : Prop := c.ret.toInt = c.iov.iovLen.toNat

/-- The bytes taken, none where the call failed. -/
def accepted (calls : List Call) : ℕ := (calls.map fun c => c.ret.toInt.toNat).sum

def requested (calls : List Call) : ℕ := (calls.map fun c => c.iov.iovLen.toNat).sum

/-- A gathered write that accounts for partial writes and for failures. -/
structure Promised (iov : List IOVec) (w : Written σ) : Prop where
  in_order : w.calls.map Call.iov <+: iov
  full_before : ∀ c ∈ w.calls.dropLast, c.Full
  complete : (∀ c ∈ w.calls, c.Full) → w.calls.map Call.iov = iov
  total : (∀ c ∈ w.calls, 0 ≤ c.ret.toInt) → w.ret.toInt = accepted w.calls
  failed : ∀ {pre c post}, w.calls = pre ++ c :: post → (∀ d ∈ pre, 0 ≤ d.ret.toInt) →
    c.ret.toInt < 0 → accepted pre = 0 → w.ret.toInt < 0
  not_more : w.ret.toInt ≤ accepted w.calls

/-- The condition under which the loop ends. -/
def Call.Stops (c : Call) : Prop := c.ret.toInt32.toInt64.toUInt64 < c.iov.iovLen

theorem map_iov_replies (iov : List IOVec) (s : σ) :
    (replies olibc2ubootWrite fd iov s).map Call.iov = iov := by
  induction iov generalizing s with
  | nil => rfl
  | cons v rest ih => exact congrArg (v :: ·) (ih _)

theorem ret_le_of_mem_replies (iov : List IOVec) (s : σ)
    (hwrite : ∀ v s, (olibc2ubootWrite fd v s).1.toInt ≤ v.iovLen.toNat) :
    ∀ c ∈ replies olibc2ubootWrite fd iov s, c.ret.toInt ≤ c.iov.iovLen.toNat := by
  induction iov generalizing s with
  | nil => simp [replies]
  | cons v rest ih => exact List.forall_mem_cons.mpr ⟨hwrite v s, ih _⟩

/-- The loop makes the calls in order, and all of them where none stops it. -/
theorem writevLoop_calls (res : Int64) (iov : List IOVec) (s : σ) :
    (writevLoop olibc2ubootWrite fd res iov s).calls <+: replies olibc2ubootWrite fd iov s ∧
      ((∀ c ∈ (writevLoop olibc2ubootWrite fd res iov s).calls, ¬ c.Stops) →
        (writevLoop olibc2ubootWrite fd res iov s).calls = replies olibc2ubootWrite fd iov s) := by
  induction iov generalizing res s with
  | nil => exact ⟨List.prefix_rfl, fun _ => rfl⟩
  | cons v iov ih =>
    by_cases hstop : Call.Stops ⟨v, (olibc2ubootWrite fd v s).1⟩
    · have hstop' := hstop
      unfold Call.Stops at hstop'
      simp only [writevLoop, replies, if_pos hstop']
      exact ⟨List.prefix_append [_] _, fun h => absurd hstop (h _ (List.mem_singleton_self _))⟩
    · have hgo := hstop
      unfold Call.Stops at hgo
      simp only [writevLoop, replies, if_neg hgo]
      obtain ⟨hstart, hall⟩ := ih ((res.toUInt64 + v.iovLen).toInt64) (olibc2ubootWrite fd v s).2
      refine ⟨(List.prefix_cons_inj _).mpr hstart, fun h => congrArg _ (hall fun c hc => ?_)⟩
      exact h c (List.mem_cons_of_mem _ hc)

theorem toNat_subRes (ret : Int64) :
    (ret.toInt32.toInt64.toUInt64.toNat : ℤ) = ret.toInt.bmod (2 ^ 32) % 2 ^ 64 := by
  rw [i64_toNat_toUInt64, Int32.toInt_toInt64, Int64.toInt_toInt32]

theorem Call.Full.not_stops {c : Call} (hc : c.Full) (hlen : c.iov.iovLen.toNat < 2 ^ 31) :
    ¬ c.Stops := by
  unfold Call.Full at hc
  have hret := toNat_subRes c.ret
  rw [hc, Int.bmod_def] at hret
  intro hlt
  have hlt := UInt64.lt_iff_toNat_lt.mp hlt
  split at hret <;> omega

/-- As an unsigned word a negative answer is beyond every length: only a partial write ends the
loop early. -/
theorem Call.Stops.nonneg {c : Call} (hc : c.Stops) (hlen : c.iov.iovLen.toNat < 2 ^ 31) :
    0 ≤ c.ret.toInt32 := by
  have hret := toNat_subRes c.ret
  have hlt := UInt64.lt_iff_toNat_lt.mp hc
  rw [Int32.le_iff_toInt_le, Int32.toInt_zero, Int64.toInt_toInt32]
  have hlow : -2 ^ 31 ≤ c.ret.toInt.bmod (2 ^ 32) := Int.le_bmod (by decide)
  omega

theorem Call.Stops.pos {c : Call} (hc : c.Stops) : c.iov.iovLen ≠ 0 := by
  have hlt := UInt64.lt_iff_toNat_lt.mp hc
  rintro h0
  rw [h0] at hlt
  simp at hlt

/-- What is returned counts the bytes asked for, not those taken. -/
theorem writevLoop_ret (res : Int64) {iov : List IOVec} (s : σ)
    (hlen : ∀ v ∈ iov, v.iovLen.toNat < 2 ^ 31) (hres : 0 ≤ res.toInt)
    (hsum : res.toInt + (iov.map fun v => v.iovLen.toNat).sum < 2 ^ 63) :
    (writevLoop olibc2ubootWrite fd res iov s).ret.toInt =
      res.toInt + requested (writevLoop olibc2ubootWrite fd res iov s).calls := by
  induction iov generalizing res s with
  | nil => simp [writevLoop, requested]
  | cons v iov ih =>
    have hv := hlen v (List.mem_cons_self ..)
    rw [List.map_cons, List.sum_cons, Nat.cast_add] at hsum
    have hadd : (res.toUInt64 + v.iovLen).toInt64.toInt = res.toInt + v.iovLen.toNat := by
      have hres' := i64_toNat_toUInt64 res
      rw [u64_toInt_toInt64, UInt64.toNat_add, Int.bmod_def]
      split <;> omega
    by_cases hstop : Call.Stops ⟨v, (olibc2ubootWrite fd v s).1⟩
    · have hnonneg := hstop.nonneg hv
      unfold Call.Stops at hstop
      simp only [writevLoop, if_pos hstop, if_pos hnonneg, hadd, requested, List.map_cons,
        List.map_nil, List.sum_singleton]
    · unfold Call.Stops at hstop
      simp only [writevLoop, if_neg hstop]
      rw [ih _ _ (fun u hu => hlen u (List.mem_cons_of_mem _ hu)) (by omega) (by omega), hadd]
      simp only [requested, List.map_cons, List.sum_cons, Nat.cast_add]
      omega

theorem accepted_le_requested {calls : List Call}
    (hle : ∀ c ∈ calls, c.ret.toInt ≤ c.iov.iovLen.toNat) : accepted calls ≤ requested calls :=
  List.sum_le_sum fun c hc => by
    have := hle c hc
    omega

/-- Where as much was taken as was asked for, each call took all of its buffer. -/
theorem accepted_each {calls : List Call} (hle : ∀ c ∈ calls, c.ret.toInt ≤ c.iov.iovLen.toNat)
    (h : requested calls ≤ accepted calls) :
    ∀ c ∈ calls, c.ret.toInt.toNat = c.iov.iovLen.toNat := by
  induction calls with
  | nil => simp
  | cons c calls ih =>
    obtain ⟨hc, hrest⟩ := List.forall_mem_cons.mp hle
    have hle' := accepted_le_requested hrest
    simp only [requested, accepted, List.map_cons, List.sum_cons] at h hle' ih
    exact List.forall_mem_cons.mpr ⟨by omega, ih hrest (by omega)⟩

theorem accepted_of_full {calls : List Call} (h : ∀ c ∈ calls, c.Full) :
    accepted calls = requested calls := by
  unfold accepted requested
  congr 1
  refine List.map_congr_left fun c hc => ?_
  have := h c hc
  unfold Call.Full at this
  omega

theorem Call.Full.nonneg {c : Call} (hc : c.Full) : 0 ≤ c.ret.toInt := by
  unfold Call.Full at hc
  omega

theorem promised_of_full {iov : List IOVec} {w : Written σ} (hmap : w.calls.map Call.iov = iov)
    (hret : w.ret.toInt = requested w.calls) (hfull : ∀ c ∈ w.calls, c.Full) :
    Promised iov w where
  in_order := hmap ▸ List.prefix_rfl
  full_before c hc := hfull c (List.dropLast_subset _ hc)
  complete _ := hmap
  total _ := by rw [hret, accepted_of_full hfull]
  failed {pre c post} hcalls _ hneg _ := by
    have := (hfull c (hcalls ▸ by simp)).nonneg
    omega
  not_more := by rw [hret, accepted_of_full hfull]

/-- The failed call comes last, after bytes were taken, and asked for none itself. -/
theorem promised_of_empty_last {iov : List IOVec} {w : Written σ} {pre : List Call} {c : Call}
    (hmap : w.calls.map Call.iov = iov) (hret : w.ret.toInt = requested w.calls)
    (hcalls : w.calls = pre ++ [c]) (hfull : ∀ d ∈ pre, d.Full) (hneg : c.ret.toInt < 0)
    (hzero : c.iov.iovLen = 0) (hpos : 0 < accepted pre) : Promised iov w := by
  have hreq : requested w.calls = accepted w.calls := by
    have hpre := accepted_of_full hfull
    have hlast : accepted [c] = requested [c] := by
      simp only [accepted, requested, List.map_singleton, List.sum_singleton, hzero,
        UInt64.toNat_zero]
      omega
    rw [hcalls]
    simp only [accepted, requested, List.map_append, List.sum_append] at hpre hlast ⊢
    omega
  refine ⟨hmap ▸ List.prefix_rfl, ?_, fun _ => hmap, fun _ => by rw [hret, hreq], ?_,
    by rw [hret, hreq]⟩
  · rwa [hcalls, List.dropLast_concat]
  · intro pre' c' post hsplit hnonneg hneg' hnone
    rw [hcalls] at hsplit
    rcases List.eq_nil_or_concat post with rfl | ⟨post, d, rfl⟩
    · obtain ⟨rfl, -⟩ := List.append_inj' hsplit rfl
      omega
    · rw [List.concat_eq_append, ← List.cons_append, ← List.append_assoc] at hsplit
      obtain ⟨rfl, -⟩ := List.append_inj' hsplit rfl
      have := (hfull c' (by simp)).nonneg
      omega

/-- A call that took all it was asked for, or failed on an empty buffer, does not end the loop. -/
theorem not_stops_of_toNat_eq {c : Call} (hlen : c.iov.iovLen.toNat < 2 ^ 31)
    (h : c.ret.toInt.toNat = c.iov.iovLen.toNat) : ¬ c.Stops := by
  intro hstop
  have hne : c.iov.iovLen.toNat ≠ 0 := fun h0 => hstop.pos (UInt64.toNat_inj.mp h0)
  refine Call.Full.not_stops ?_ hlen hstop
  unfold Call.Full
  omega

/-- A promise that was kept, where each call took as much as it was asked for or failed on an empty
buffer: only the last call may have failed. -/
theorem Promised.full_or_empty_last {iov : List IOVec} {w : Written σ} (hw : Promised iov w)
    (hret : w.ret.toInt = requested w.calls)
    (heach : ∀ c ∈ w.calls, c.ret.toInt.toNat = c.iov.iovLen.toNat) :
    (∀ c ∈ w.calls, c.Full) ∨ ∃ pre c, w.calls = pre ++ [c] ∧ (∀ d ∈ pre, d.Full) ∧
      c.ret.toInt < 0 ∧ c.iov.iovLen = 0 ∧ 0 < accepted pre := by
  rcases List.eq_nil_or_concat w.calls with hnil | ⟨pre, c, hcalls⟩
  · left
    simp [hnil]
  rw [List.concat_eq_append] at hcalls
  have hbefore := hw.full_before
  have hfailed := hw.failed hcalls
  rw [hcalls] at heach hbefore ⊢
  rw [List.dropLast_concat] at hbefore
  have hc := heach c (by simp)
  by_cases hfull : c.Full
  · left
    simpa [or_imp, forall_and] using ⟨hbefore, hfull⟩
  · unfold Call.Full at hfull
    have hneg : c.ret.toInt < 0 := by omega
    have hzero : c.iov.iovLen = 0 := by
      apply UInt64.toNat_inj.mp
      rw [UInt64.toNat_zero]
      omega
    refine .inr ⟨pre, c, rfl, hbefore, hneg, hzero, ?_⟩
    by_contra hacc
    have := hfailed (fun d hd => (hbefore d hd).nonneg) hneg (by omega)
    omega

variable {olibc2ubootWrite fd}

/-- A gathered write is accounted for exactly when every buffer is taken whole, or all but the
last are, some byte among them, and the call for the last, of no bytes, fails. -/
theorem sysImpWritev_promised_iff {iov : List IOVec} {s : σ}
    (hlen : ∀ v ∈ iov, v.iovLen.toNat < 2 ^ 31)
    (hsum : (iov.map fun v => v.iovLen.toNat).sum < 2 ^ 63)
    (hwrite : ∀ v s, (olibc2ubootWrite fd v s).1.toInt ≤ v.iovLen.toNat) :
    Promised iov (sysImpWritev olibc2ubootWrite fd iov s) ↔
      (∀ c ∈ replies olibc2ubootWrite fd iov s, c.Full) ∨
        ∃ pre c, replies olibc2ubootWrite fd iov s = pre ++ [c] ∧ (∀ d ∈ pre, d.Full) ∧
          c.ret.toInt < 0 ∧ c.iov.iovLen = 0 ∧ 0 < accepted pre := by
  obtain ⟨hstart, hall⟩ := writevLoop_calls olibc2ubootWrite fd 0 iov s
  have hzero : (0 : Int64).toInt = 0 := rfl
  have hret : (sysImpWritev olibc2ubootWrite fd iov s).ret.toInt =
      requested (sysImpWritev olibc2ubootWrite fd iov s).calls := by
    rw [sysImpWritev, writevLoop_ret olibc2ubootWrite fd 0 s hlen (by decide) (by omega), hzero,
      Int.zero_add]
  change (sysImpWritev olibc2ubootWrite fd iov s).calls <+: _ at hstart
  change (∀ c ∈ (sysImpWritev olibc2ubootWrite fd iov s).calls, ¬ c.Stops) →
    (sysImpWritev olibc2ubootWrite fd iov s).calls = _ at hall
  have hmap := map_iov_replies olibc2ubootWrite fd iov s
  have hle := ret_le_of_mem_replies olibc2ubootWrite fd iov s hwrite
  have hlen' : ∀ c ∈ replies olibc2ubootWrite fd iov s, c.iov.iovLen.toNat < 2 ^ 31 := by
    intro c hc
    exact hlen _ (hmap ▸ List.mem_map_of_mem hc)
  generalize sysImpWritev olibc2ubootWrite fd iov s = w at hret hstart hall ⊢
  generalize replies olibc2ubootWrite fd iov s = rs at hstart hall hmap hle hlen' ⊢
  have hmem : ∀ c ∈ w.calls, c ∈ rs := fun c hc => hstart.subset hc
  constructor
  · intro hw
    have hmore := hw.not_more
    rw [hret] at hmore
    have heach := accepted_each (fun c hc => hle c (hmem c hc)) (by omega)
    obtain rfl := hall fun c hc => not_stops_of_toNat_eq (hlen' c (hmem c hc)) (heach c hc)
    exact hw.full_or_empty_last hret heach
  · intro hcond
    have hgo : ∀ c ∈ rs, ¬ c.Stops := by
      intro c hc hstop
      rcases hcond with hfull | ⟨pre, last, rfl, hfull, -, hzero, -⟩
      · exact (hfull c hc).not_stops (hlen' c hc) hstop
      · rcases List.mem_append.mp hc with hpre | hlast
        · exact (hfull c hpre).not_stops (hlen' c hc) hstop
        · rw [List.mem_singleton.mp hlast] at hstop
          exact hstop.pos hzero
    obtain rfl := hall fun c hc => hgo c (hmem c hc)
    rcases hcond with hfull | ⟨pre, last, hcalls, hfull, hneg, hzero, hpos⟩
    · exact promised_of_full hmap hret hfull
    · exact promised_of_empty_last hmap hret hcalls hfull hneg hzero hpos

/-- A console that takes no more than a byte at a time. -/
def takesOne (_ : Int32) (iov : IOVec) (s : Unit) : Int64 × Unit :=
  (if iov.iovLen = 0 then 0 else 1, s)

theorem takesOne_le (v : IOVec) (s : Unit) : (takesOne 1 v s).1.toInt ≤ v.iovLen.toNat := by
  unfold takesOne
  split_ifs with h
  · exact Int.natCast_nonneg _
  · have hne : v.iovLen.toNat ≠ 0 := fun h0 => h (UInt64.toNat_inj.mp h0)
    have hone : (1 : Int64).toInt = 1 := by decide
    rw [hone]
    omega

theorem sysImpWritev_promised_bytes :
    Promised [⟨0x1000, 1⟩, ⟨0x2000, 1⟩]
        (sysImpWritev takesOne 1 [⟨0x1000, 1⟩, ⟨0x2000, 1⟩] ()) ↔
      (∀ c ∈ replies takesOne 1 [⟨0x1000, 1⟩, ⟨0x2000, 1⟩] (), c.Full) ∨
        ∃ pre c, replies takesOne 1 [⟨0x1000, 1⟩, ⟨0x2000, 1⟩] () = pre ++ [c] ∧
          (∀ d ∈ pre, d.Full) ∧ c.ret.toInt < 0 ∧ c.iov.iovLen = 0 ∧ 0 < accepted pre :=
  sysImpWritev_promised_iff (by decide) (by decide) takesOne_le

/-- Of two bytes one is taken, and two are reported. -/
theorem sysImpWritev_partial :
    ¬ ∀ (iov : List IOVec) (write : Int32 → IOVec → Unit → Int64 × Unit),
      (∀ v ∈ iov, v.iovLen.toNat < 2 ^ 31) →
      (iov.map fun v => v.iovLen.toNat).sum < 2 ^ 63 →
      (∀ v s, (write 1 v s).1.toInt ≤ v.iovLen.toNat) →
      Promised iov (sysImpWritev write 1 iov ()) := by
  intro h
  have hmore := (h [⟨0x1000, 2⟩] takesOne (by decide) (by decide) takesOne_le).not_more
  revert hmore
  decide

end MuslSyscalls
end JevMachO

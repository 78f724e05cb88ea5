import JevMachO.Lib.Paging
import JevMachO.RingBuffer.Sizes

/-! How a ring buffer comes by its memory: a file of its size, mapped twice in a row. The kernel
decides which calls succeed and where the first mapping goes; the second one replaces whatever is
at its place. -/
namespace JevMachO
open Lib Pages

/-- What a process has of files and memory: the file that each descriptor is open on, how many
files there have been, and what each page shows. -/
structure Process where
  fds : ℕ → Option ℕ
  files : ℕ
  pages : Pages ℕ

namespace Process

def openFd (p : Process) (fd : ℕ) : Process :=
  { p with fds := Function.update p.fds fd (some p.files), files := p.files + 1 }

def close (p : Process) (fd : ℕ) : Process := { p with fds := Function.update p.fds fd none }

/-- `memfd_create`, for a new file: any descriptor that is not in use, or none for -1. -/
def memfdCreate (p : Process) (wish : Option ℕ) : Option (ℕ × Process) :=
  match wish with
  | none => none
  | some fd => if p.fds fd = none then some (fd, p.openFd fd) else none

/-- `mmap` of `n` pages of a file at no address in particular: anywhere but at null where nothing
is mapped, or none for `MAP_FAILED`. -/
def mmap (p : Process) (wish : Option ℕ) (n fd : ℕ) : Option (ℕ × Process) :=
  match wish, p.fds fd with
  | some page, some file =>
    if 0 < page ∧ p.pages.Free page n then
      some (page, { p with pages := p.pages.map page n file })
    else none
  | _, _ => none

/-- `mmap` with `MAP_FIXED`, which needs an address where a page starts. -/
def mmapFixed (p : Process) (pageSz addr n fd : ℕ) (good : Bool) : Option Process :=
  match p.fds fd with
  | some file =>
    if pageSz ∣ addr ∧ good then some { p with pages := p.pages.map (addr / pageSz) n file }
    else none
  | none => none

def munmap (p : Process) (pageSz addr n : ℕ) : Process :=
  { p with pages := p.pages.unmap (addr / pageSz) n }

theorem memfdCreate_eq_some {p p' : Process} {wish : Option ℕ} {fd : ℕ}
    (h : p.memfdCreate wish = some (fd, p')) : p.fds fd = none ∧ p' = p.openFd fd := by
  unfold memfdCreate at h
  cases wish with
  | none => cases h
  | some fd' =>
    simp only at h
    split_ifs at h with hfd
    obtain ⟨rfl, rfl⟩ := Prod.mk.inj (Option.some.inj h)
    exact ⟨hfd, rfl⟩

theorem mmap_eq_some {p p' : Process} {wish : Option ℕ} {n fd file page : ℕ}
    (hfile : p.fds fd = some file) (h : p.mmap wish n fd = some (page, p')) :
    0 < page ∧ p.pages.Free page n ∧ p' = { p with pages := p.pages.map page n file } := by
  unfold mmap at h
  rw [hfile] at h
  cases wish with
  | none => cases h
  | some page' =>
    simp only at h
    split_ifs at h with hfree
    obtain ⟨rfl, rfl⟩ := Prod.mk.inj (Option.some.inj h)
    exact ⟨hfree.1, hfree.2, rfl⟩

theorem mmapFixed_eq_some {p p' : Process} {pageSz addr n fd file : ℕ} {good : Bool}
    (hfile : p.fds fd = some file) (h : p.mmapFixed pageSz addr n fd good = some p') :
    pageSz ∣ addr ∧ p' = { p with pages := p.pages.map (addr / pageSz) n file } := by
  unfold mmapFixed at h
  rw [hfile] at h
  simp only at h
  split_ifs at h with hgood
  exact ⟨hgood.1, (Option.some.inj h).symm⟩

/-- All that failed tries do to a process: they use up files, and may leave descriptor 0 open. -/
structure Spared (p p' : Process) : Prop where
  pages : p'.pages = p.pages
  files : p.files ≤ p'.files
  fds : p'.fds = p.fds ∨ p.fds 0 = none ∧ ∃ file, p.files ≤ file ∧ file < p'.files ∧
    p'.fds = Function.update p.fds 0 (some file)

theorem Spared.refl (p : Process) : Spared p p := ⟨rfl, Nat.le_refl _, .inl rfl⟩

theorem Spared.trans {p p' p'' : Process} (h : Spared p p') (h' : Spared p' p'') :
    Spared p p'' := by
  refine ⟨h'.pages.trans h.pages, h.files.trans h'.files, ?_⟩
  rcases h.fds with heq | ⟨h0, file, hle, hlt, heq⟩
  · rcases h'.fds with heq' | ⟨h0, file, hle, hlt, heq'⟩
    · exact .inl (heq'.trans heq)
    · rw [heq] at h0 heq'
      exact .inr ⟨h0, file, h.files.trans hle, hlt, heq'⟩
  · rcases h'.fds with heq' | ⟨h0', -⟩
    · exact .inr ⟨h0, file, hle, hlt.trans_le h'.files, heq'.trans heq⟩
    · rw [heq, Function.update_self] at h0'
      cases h0'

/-- A descriptor that is opened and closed again. -/
theorem Spared.close_openFd {p : Process} {fd : ℕ} (hfd : p.fds fd = none) :
    Spared p ((p.openFd fd).close fd) where
  pages := rfl
  files := Nat.le_succ _
  fds := .inl (by
    simp only [close, openFd, Function.update_idem]
    rw [← hfd, Function.update_eq_self])

end Process

/-- How the system calls of one try end, where that is open. -/
structure Outcomes where
  memfd : Option ℕ
  ftruncate : Bool
  mmap : Option ℕ
  mirror : Bool

namespace RingBuffer

/-- `MMAP_MAX_TRIES`. -/
def mmapMaxTries : ℕ := 16

/-- The members that own memory; addresses are in bytes, and -1 is no descriptor. -/
structure Mapping where
  mBuf : ℕ
  mBufMirror : ℕ
  mMemfd : Option ℕ
  deriving DecidableEq, Repr

/-- Where a try leads. -/
inductive Flow where
  | continue
  | break
  deriving DecidableEq, Repr

namespace Instantiation
variable (t : Instantiation)

/-- The pages of the buffer. -/
def bufPages : ℕ := t.bufSzPhys.toNat / t.pageSz.toNat

/-- The bytes from `m_buf` to `m_buf + static_size_raw`. -/
def mirrorOff : ℕ := t.staticSizeRaw.toNat * t.sizeofT.toNat

/-- The body of the constructor's loop. -/
def tryMap (o : Outcomes) (m : Mapping) (p : Process) : Exec (Flow × Mapping × Process) :=
  match p.memfdCreate o.memfd with
  | none => .ok (.continue, { m with mMemfd := none }, p)
  | some (fd, p) =>
    -- descriptor 0 counts as a failure, and stays open
    if fd = 0 then .ok (.continue, { m with mMemfd := some fd }, p)
    else if !o.ftruncate then .ok (.continue, { m with mMemfd := none }, p.close fd)
    else match p.mmap o.mmap t.bufPages fd with
      -- `MAP_FAILED` is not null, and `0xdeadbeef` is written there
      | none => .error .outOfBounds
      | some (page, p) =>
        let mBuf := page * t.pageSz.toNat
        if mBuf = 0 then .ok (.continue, { m with mBuf := mBuf, mMemfd := none }, p.close fd)
        else
          let mBufMirror := mBuf + t.mirrorOff
          match p.mmapFixed t.pageSz.toNat mBufMirror t.bufPages fd o.mirror with
          -- the assertion is that `MAP_FAILED` is null
          | none => .error .assertFailed
          | some p => .ok (.break, ⟨mBuf, mBufMirror, some fd⟩, p)

def mapLoop (outcomes : ℕ → Outcomes) : ℕ → ℕ → Mapping → Process → Exec (Mapping × Process)
  | 0, _, m, p => .ok (m, p)
  | left + 1, tryNum, m, p => do
    let (flow, m, p) ← t.tryMap (outcomes tryNum) m p
    match flow with
    | .continue => mapLoop outcomes left (tryNum + 1) m p
    | .break => return (m, p)

/-- The constructor, which gives the mappings and leaves the process with them. -/
def construct (outcomes : ℕ → Outcomes) (p : Process) : Exec (Mapping × Process) := do
  let (m, p) ← t.mapLoop outcomes mmapMaxTries 0 ⟨0, 0, none⟩ p
  assertThat (m.mBuf ≠ 0 && m.mBufMirror ≠ 0)
  return (m, p)

/-- The destructor. -/
def destruct (m : Mapping) (p : Process) : Process :=
  let p := p.munmap t.pageSz.toNat m.mBuf t.bufPages
  let p := p.munmap t.pageSz.toNat m.mBufMirror t.bufPages
  match m.mMemfd with
  | some fd => p.close fd
  | none => p

variable {t}

/-! ### One try -/

theorem bufPages_mul (t : Instantiation) : t.bufPages * t.pageSz.toNat = t.bufSzPhys.toNat := by
  obtain ⟨e, he⟩ := t.pageSz_pow2
  rw [bufPages, he, t.toNat_bufSzPhys he]
  exact Nat.div_mul_cancel (dvd_roundUp _ _)

theorem pageSz_pos (t : Instantiation) : 0 < t.pageSz.toNat := by
  obtain ⟨e, he⟩ := t.pageSz_pow2
  rw [he]
  exact Nat.two_pow_pos e

/-- The mirror starts on a page only where the buffer's pages end. -/
theorem mirrorOff_eq (h : t.pageSz.toNat ∣ t.mirrorOff) : t.mirrorOff = t.bufSzPhys.toNat := by
  obtain ⟨e, he⟩ := t.pageSz_pow2
  have hphys := t.toNat_bufSzPhys he
  have hraw : t.staticSizeRaw.toNat = t.bufSzPhys.toNat / t.sizeofT.toNat := UInt64.toNat_div ..
  have hle : t.mirrorOff ≤ t.bufSzPhys.toNat := by
    rw [mirrorOff, hraw]
    exact Nat.div_mul_le_self _ _
  have hnum : t.evenNum ≤ t.staticSizeRaw.toNat := by
    rw [hraw, Nat.le_div_iff_mul_le t.sizeofT_pos, hphys, mul_comm]
    exact le_roundUp _ (Nat.two_pow_pos e)
  refine Nat.le_antisymm hle ?_
  rw [hphys]
  refine roundUp_le (Nat.two_pow_pos e) (he ▸ h) ?_
  rw [mirrorOff, mul_comm]
  exact Nat.mul_le_mul_right _ hnum

/-- What a successful try makes of a process: a new file, twice in a row. -/
structure Doubled (t : Instantiation) (p : Process) (fd page : ℕ) (m : Mapping) (p' : Process) :
    Prop where
  fd_pos : fd ≠ 0
  fd_new : p.fds fd = none
  free : p.pages.Free page t.bufPages
  members : m = ⟨page * t.pageSz.toNat, (page + t.bufPages) * t.pageSz.toNat, some fd⟩
  whole : t.mirrorOff = t.bufPages * t.pageSz.toNat
  process : p' = ⟨Function.update p.fds fd (some p.files), p.files + 1,
    (p.pages.map page t.bufPages p.files).map (page + t.bufPages) t.bufPages p.files⟩

/-- A try that does not stop the program leaves the members as they were and spares the process,
or maps the buffer. -/
theorem tryMap_eq_ok {o : Outcomes} {m m' : Mapping} {p p' : Process} {flow : Flow}
    (h : t.tryMap o m p = .ok (flow, m', p')) :
    (flow = .continue ∧ p.Spared p' ∧ m'.mBuf = m.mBuf ∧ m'.mBufMirror = m.mBufMirror) ∨
      (flow = .break ∧ ∃ fd page, Doubled t p fd page m' p') := by
  unfold tryMap at h
  cases hcreate : p.memfdCreate o.memfd with
  | none =>
    rw [hcreate] at h
    obtain ⟨rfl, hrest⟩ := Prod.mk.inj (Except.ok.inj h)
    obtain ⟨rfl, rfl⟩ := Prod.mk.inj hrest
    exact .inl ⟨rfl, .refl p, rfl, rfl⟩
  | some created =>
    obtain ⟨fd, p₁⟩ := created
    obtain ⟨hfd, rfl⟩ := Process.memfdCreate_eq_some hcreate
    rw [hcreate] at h
    simp only at h
    split_ifs at h with hzero htrunc
    · obtain ⟨rfl, hrest⟩ := Prod.mk.inj (Except.ok.inj h)
      obtain ⟨rfl, rfl⟩ := Prod.mk.inj hrest
      subst hzero
      exact .inl ⟨rfl, ⟨rfl, Nat.le_succ _, .inr ⟨hfd, p.files, Nat.le_refl _, Nat.lt_succ_self _,
        rfl⟩⟩, rfl, rfl⟩
    · obtain ⟨rfl, hrest⟩ := Prod.mk.inj (Except.ok.inj h)
      obtain ⟨rfl, rfl⟩ := Prod.mk.inj hrest
      exact .inl ⟨rfl, .close_openFd hfd, rfl, rfl⟩
    · have hfile : (p.openFd fd).fds fd = some p.files := Function.update_self ..
      cases hmap : (p.openFd fd).mmap o.mmap t.bufPages fd with
      | none =>
        rw [hmap] at h
        cases h
      | some mapped =>
        obtain ⟨page, p₂⟩ := mapped
        obtain ⟨hpage, hfree, rfl⟩ := Process.mmap_eq_some hfile hmap
        have hbuf : page * t.pageSz.toNat ≠ 0 :=
          Nat.mul_ne_zero hpage.ne' t.pageSz_pos.ne'
        rw [hmap] at h
        simp only [if_neg hbuf] at h
        split at h
        · cases h
        · rename_i p₃ hfixed
          obtain ⟨hdvd, rfl⟩ := Process.mmapFixed_eq_some (by exact hfile) hfixed
          obtain ⟨rfl, hrest⟩ := Prod.mk.inj (Except.ok.inj h)
          obtain ⟨rfl, rfl⟩ := Prod.mk.inj hrest
          have hoff : t.mirrorOff = t.bufPages * t.pageSz.toNat := by
            rw [bufPages_mul]
            exact mirrorOff_eq ((Nat.dvd_add_right (Nat.dvd_mul_left _ _)).mp hdvd)
          have hmirror : page * t.pageSz.toNat + t.mirrorOff =
              (page + t.bufPages) * t.pageSz.toNat := by rw [hoff, ← Nat.add_mul]
          refine .inr ⟨rfl, fd, page, hzero, hfd, hfree, ?_, hoff, ?_⟩
          · rw [hmirror]
          · rw [hmirror, Nat.mul_div_cancel _ t.pageSz_pos]
            rfl

section mapLoop
variable {outcomes : ℕ → Outcomes} {tryNum : ℕ} {m m' : Mapping} {p p' : Process}

theorem mapLoop_continue (left : ℕ)
    (h : t.tryMap (outcomes tryNum) m p = .ok (.continue, m', p')) :
    t.mapLoop outcomes (left + 1) tryNum m p = t.mapLoop outcomes left (tryNum + 1) m' p' := by
  rw [mapLoop, h]
  rfl

theorem mapLoop_break (left : ℕ) (h : t.tryMap (outcomes tryNum) m p = .ok (.break, m', p')) :
    t.mapLoop outcomes (left + 1) tryNum m p = .ok (m', p') := by
  rw [mapLoop, h]
  rfl

/-- The loop ends with its tries used up or at the first one that maps the buffer. -/
theorem mapLoop_eq_ok {left : ℕ} (h : t.mapLoop outcomes left tryNum m p = .ok (m', p')) :
    (m'.mBuf = m.mBuf ∧ m'.mBufMirror = m.mBufMirror) ∨
      ∃ p₁ fd page, p.Spared p₁ ∧ Doubled t p₁ fd page m' p' := by
  induction left generalizing tryNum m p with
  | zero =>
    obtain ⟨rfl, rfl⟩ := Prod.mk.inj (Except.ok.inj h)
    exact .inl ⟨rfl, rfl⟩
  | succ left ih =>
    obtain ⟨⟨flow, m₁, p₁⟩, htry, h⟩ := bind_eq_ok.mp h
    rcases tryMap_eq_ok htry with ⟨rfl, hspared, hbuf, hmirror⟩ | ⟨rfl, fd, page, hdoubled⟩
    · rcases ih h with ⟨hbuf', hmirror'⟩ | ⟨p₂, fd, page, hspared', hdoubled⟩
      · exact .inl ⟨hbuf'.trans hbuf, hmirror'.trans hmirror⟩
      · exact .inr ⟨p₂, fd, page, hspared.trans hspared', hdoubled⟩
    · obtain ⟨rfl, rfl⟩ := Prod.mk.inj (Except.ok.inj h)
      exact .inr ⟨p, fd, page, .refl p, hdoubled⟩

end mapLoop

/-- A constructor that returns has mapped the buffer. -/
theorem construct_eq_ok {outcomes : ℕ → Outcomes} {m : Mapping} {p p' : Process}
    (h : t.construct outcomes p = .ok (m, p')) :
    ∃ p₁ fd page, p.Spared p₁ ∧ Doubled t p₁ fd page m p' := by
  obtain ⟨⟨m₁, p₁⟩, hloop, h⟩ := bind_eq_ok.mp h
  obtain ⟨_, hassert, h⟩ := bind_eq_ok.mp h
  obtain ⟨rfl, rfl⟩ := Prod.mk.inj (Except.ok.inj h)
  rcases mapLoop_eq_ok hloop with ⟨hbuf, -⟩ | hmapped
  · -- the pointers are still null, and the assertion fails
    rw [hbuf] at hassert
    cases hassert
  · exact hmapped

/-! ### Construction and destruction -/

/-- The two mappings show the same new file one after the other, and nothing else has changed but
that descriptor 0 may have been left open. Destruction undoes all this, except that what the
mirror has replaced is gone. -/
structure Cycles (t : Instantiation) (p : Process) (m : Mapping) (p' : Process) : Prop where
  mirror : m.mBufMirror = m.mBuf + t.bufSzPhys.toNat
  shows : ∃ fd file, m.mMemfd = some fd ∧ p'.fds fd = some file ∧ p.files ≤ file ∧
    p'.pages.Shows (m.mBuf / t.pageSz.toNat) t.bufPages file ∧
    p'.pages.Shows (m.mBufMirror / t.pageSz.toNat) t.bufPages file
  others : ∀ q, ¬InRange (m.mBuf / t.pageSz.toNat) t.bufPages q →
    ¬InRange (m.mBufMirror / t.pageSz.toNat) t.bufPages q → p'.pages q = p.pages q
  descriptors : (t.destruct m p').fds = p.fds ∨ p.fds 0 = none ∧
    ∃ file, p.files ≤ file ∧ (t.destruct m p').fds = Function.update p.fds 0 (some file)
  restores : (t.destruct m p').pages = p.pages ↔
    p.pages.Free (m.mBufMirror / t.pageSz.toNat) t.bufPages

section doubled
variable {p p' : Process} {fd page : ℕ} {m : Mapping}

/-- The two halves are next to each other. -/
theorem apart_halves (page n : ℕ) : Apart page n (page + n) n := fun q h h' => by
  unfold InRange at h h'
  omega

theorem Doubled.mBuf_div (h : Doubled t p fd page m p') : m.mBuf / t.pageSz.toNat = page := by
  rw [h.members]
  exact Nat.mul_div_cancel _ t.pageSz_pos

theorem Doubled.mBufMirror_div (h : Doubled t p fd page m p') :
    m.mBufMirror / t.pageSz.toNat = page + t.bufPages := by
  rw [h.members]
  exact Nat.mul_div_cancel _ t.pageSz_pos

theorem Doubled.mirror (h : Doubled t p fd page m p') :
    m.mBufMirror = m.mBuf + t.bufSzPhys.toNat := by
  rw [h.members, ← t.bufPages_mul, Nat.add_mul]

theorem Doubled.fds (h : Doubled t p fd page m p') : p'.fds fd = some p.files := by
  rw [h.process]
  exact Function.update_self ..

theorem Doubled.pages (h : Doubled t p fd page m p') : p'.pages =
    (p.pages.map page t.bufPages p.files).map (page + t.bufPages) t.bufPages p.files := by
  rw [h.process]

theorem Doubled.shows (h : Doubled t p fd page m p') :
    p'.pages.Shows page t.bufPages p.files ∧
      p'.pages.Shows (page + t.bufPages) t.bufPages p.files := by
  rw [h.pages]
  exact ⟨(shows_map _ _ _ _).map (apart_halves page t.bufPages), shows_map _ _ _ _⟩

/-- What destruction leaves of the process before the try. -/
theorem Doubled.destruct_eq (h : Doubled t p fd page m p') :
    (t.destruct m p').fds = p.fds ∧
      (t.destruct m p').pages = p.pages.unmap (page + t.bufPages) t.bufPages := by
  have hfirst := h.mBuf_div
  have hsecond := h.mBufMirror_div
  have hfd : m.mMemfd = some fd := by rw [h.members]
  unfold destruct Process.munmap
  rw [hfirst, hsecond, hfd, h.process]
  constructor
  · simp only [Process.close, Function.update_idem]
    rw [← h.fd_new, Function.update_eq_self]
  · simp only [Process.close]
    rw [map_unmap_of_apart _ (apart_halves page t.bufPages), unmap_map, unmap_map,
      unmap_eq_self_iff.mpr h.free]

end doubled

/-- Every constructor that returns, on whatever tries failed before. -/
theorem construct_cycles {outcomes : ℕ → Outcomes} {m : Mapping} {p p' : Process}
    (h : t.construct outcomes p = .ok (m, p')) : t.Cycles p m p' := by
  obtain ⟨p₁, fd, page, hspared, hdoubled⟩ := construct_eq_ok h
  obtain ⟨hfds, hpages⟩ := hdoubled.destruct_eq
  refine ⟨hdoubled.mirror, ⟨fd, p₁.files, ?_, hdoubled.fds, hspared.files, ?_⟩, ?_, ?_, ?_⟩
  · rw [hdoubled.members]
  · rw [hdoubled.mBuf_div, hdoubled.mBufMirror_div]
    exact hdoubled.shows
  · intro q hbuf hmirror
    rw [hdoubled.mBuf_div] at hbuf
    rw [hdoubled.mBufMirror_div] at hmirror
    rw [hdoubled.pages, map_of_not_inRange hmirror, map_of_not_inRange hbuf, hspared.pages]
  · rw [hfds]
    rcases hspared.fds with heq | ⟨h0, file, hle, -, heq⟩
    · exact .inl heq
    · exact .inr ⟨h0, file, hle, heq⟩
  · rw [hpages, hspared.pages, hdoubled.mBufMirror_div]
    exact unmap_eq_self_iff

/-- One page for 1024 words. -/
def aWordPage : Instantiation :=
  ⟨wordPage, by decide, by decide, wordPage_pow2, wordPage_fits, wordPage_staticAssert⟩

/-- Standard input closed, and one page mapped. -/
def withoutStdin : Process := ⟨fun _ => none, 7, fun q => if q = 9 then some (3, 0) else none⟩

/-- Descriptor 0, then a file that cannot be made larger, then the page before the mapped one. -/
def thirdTime : ℕ → Outcomes
  | 0 => ⟨some 0, true, none, false⟩
  | 1 => ⟨some 3, false, none, false⟩
  | _ => ⟨some 3, true, some 8, true⟩

def atPageEight : Mapping := ⟨8 * 4096, 9 * 4096, some 3⟩

theorem bufPages_aWordPage : aWordPage.bufPages = 1 := by
  have hgcd : gcd wordPage.minBufSzRaw 2 = 2 := by
    rw [gcd, if_neg (by decide), gcd, if_pos (by decide)]
  rw [bufPages, aWordPage, Params.bufSzPhys, Params.minBufSz, lcm, hgcd]
  decide

theorem mirrorOff_aWordPage : aWordPage.mirrorOff = 4096 := by
  rw [mirrorOff, aWordPage, staticSizeRaw_wordPage]
  rfl

/-- The mirror replaces the page that was there. -/
theorem construct_thirdTime : ∃ p', aWordPage.construct thirdTime withoutStdin =
    .ok (atPageEight, p') := by
  have hfirst : aWordPage.tryMap (thirdTime 0) ⟨0, 0, none⟩ withoutStdin =
      .ok (.continue, ⟨0, 0, some 0⟩, withoutStdin.openFd 0) := rfl
  have hsecond : aWordPage.tryMap (thirdTime 1) ⟨0, 0, some 0⟩ (withoutStdin.openFd 0) =
      .ok (.continue, ⟨0, 0, none⟩, ((withoutStdin.openFd 0).openFd 3).close 3) := rfl
  obtain ⟨p', htry⟩ : ∃ p', aWordPage.tryMap (thirdTime 2) ⟨0, 0, none⟩
      (((withoutStdin.openFd 0).openFd 3).close 3) =
        .ok (.break, atPageEight, p') := by
    unfold tryMap
    rw [bufPages_aWordPage, mirrorOff_aWordPage]
    exact ⟨_, rfl⟩
  have h : aWordPage.construct thirdTime withoutStdin =
      .ok (atPageEight, p') := by
    have hloop : aWordPage.mapLoop thirdTime mmapMaxTries 0 ⟨0, 0, none⟩ withoutStdin =
        .ok (atPageEight, p') :=
      (mapLoop_continue 15 hfirst).trans ((mapLoop_continue 14 hsecond).trans
        (mapLoop_break 13 htry))
    rw [construct, hloop]
    rfl
  exact ⟨p', h⟩

theorem construct_cycles_thirdTime :
    ∃ p', aWordPage.Cycles withoutStdin atPageEight p' := by
  obtain ⟨p', h⟩ := construct_thirdTime
  exact ⟨p', construct_cycles h⟩

/-! ### Elements -/

/-- The index that an element is accessed at, in the buffer or in its mirror, leads to the bytes
of its slot in the file. -/
theorem translate_masked {outcomes : ℕ → Outcomes} {m : Mapping} {p p' : Process}
    (h : t.construct outcomes p = .ok (m, p')) :
    ∃ file, p.files ≤ file ∧ ∀ (idxRaw : UInt64) (b : ℕ), b < t.sizeofT.toNat →
      p'.pages.translate t.pageSz.toNat
          (m.mBuf + ((idxRaw &&& t.geometry.idxMask).toNat * t.sizeofT.toNat + b)) =
        some (file, t.geometry.slot idxRaw * t.sizeofT.toNat + b) := by
  obtain ⟨p₁, fd, page, hspared, hdoubled⟩ := construct_eq_ok h
  refine ⟨p₁.files, hspared.files, fun idxRaw b hb => ?_⟩
  obtain ⟨hbuf, hmirror⟩ := hdoubled.shows
  have hwhole : t.geometry.cellCount * t.sizeofT.toNat = t.bufPages * t.pageSz.toNat :=
    hdoubled.whole
  have hin : ∀ i < t.geometry.cellCount,
      i * t.sizeofT.toNat + b < t.bufPages * t.pageSz.toNat := by
    intro i hi
    have hle := Nat.mul_le_mul_right t.sizeofT.toNat (Nat.succ_le_of_lt hi)
    rw [Nat.succ_mul] at hle
    omega
  have hmasked : (idxRaw &&& t.geometry.idxMask).toNat < 2 * t.geometry.cellCount := by
    rw [t.geometry.toNat_and_idxMask]
    exact Nat.mod_lt _ (Nat.mul_pos (by decide) t.geometry.cellCount_pos)
  have hm : m.mBuf = page * t.pageSz.toNat := by rw [hdoubled.members]
  rw [hm, Geometry.slot]
  rcases Nat.lt_or_ge (idxRaw &&& t.geometry.idxMask).toNat t.geometry.cellCount with hlt | hge
  · rw [Nat.mod_eq_of_lt hlt]
    exact hbuf.translate (hin _ hlt)
  · -- in the mirror
    obtain ⟨j, hj⟩ := Nat.exists_eq_add_of_le hge
    rw [hj] at hmasked ⊢
    have hjlt : j < t.geometry.cellCount := by omega
    have haddr : page * t.pageSz.toNat + ((t.geometry.cellCount + j) * t.sizeofT.toNat + b) =
        (page + t.bufPages) * t.pageSz.toNat + (j * t.sizeofT.toNat + b) := by
      rw [Nat.add_mul, Nat.add_mul, hwhole]
      omega
    rw [haddr, Nat.add_mod_left, Nat.mod_eq_of_lt hjlt]
    exact hmirror.translate (hin j hjlt)

/-- The word with index 1025 is the second one in the mirror, and the second one in the file. -/
theorem translate_thirdTime : ∃ (p' : Process) (file : ℕ),
    p'.pages.translate aWordPage.pageSz.toNat (atPageEight.mBuf +
        ((1025 &&& aWordPage.geometry.idxMask).toNat * aWordPage.sizeofT.toNat + 3)) =
      some (file, aWordPage.geometry.slot 1025 * aWordPage.sizeofT.toNat + 3) := by
  obtain ⟨p', h⟩ := construct_thirdTime
  obtain ⟨file, -, hbytes⟩ := translate_masked h
  exact ⟨p', file, hbytes 1025 3 (by decide)⟩

end Instantiation

end RingBuffer
end JevMachO

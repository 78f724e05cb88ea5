import JevMachO.Lib.Transition
import JevMachO.RingBuffer.Mapping

/-! Several ring buffers in one process: the mirror of a new one is put where the kernel has not
been asked whether anything is there, and must not hit the others. -/
namespace JevMachO
open Lib Pages

namespace RingBuffer

/-- A ring buffer of some instantiation. -/
structure Buffer where
  t : Instantiation
  m : Mapping

/-- The process and the buffers in the order they were constructed, those that were destroyed
gone. -/
structure Buffers where
  proc : Process
  live : List (Option Buffer)

inductive Action where
  | construct (t : Instantiation) (outcomes : ℕ → Outcomes)
  | destruct (i : ℕ)

namespace Buffers

/-- One constructor that returns, or one destructor; the page size is the machine's. -/
def step (pageSz : UInt64) (s : Buffers) : Action → Option Buffers
  | .construct t outcomes =>
    if t.pageSz = pageSz then
      match t.construct outcomes s.proc with
      | .ok (m, p) => some ⟨p, s.live ++ [some ⟨t, m⟩]⟩
      | .error _ => none
    else none
  | .destruct i =>
    match s.live[i]? with
    | some (some b) => some ⟨b.t.destruct b.m s.proc, s.live.set i none⟩
    | _ => none

end Buffers

/-- Both halves of the buffer show the file that its descriptor is open on. -/
def Buffer.Intact (p : Process) (b : Buffer) : Prop :=
  ∃ fd file, b.m.mMemfd = some fd ∧ p.fds fd = some file ∧
    p.pages.Shows (b.m.mBuf / b.t.pageSz.toNat) b.t.bufPages file ∧
    p.pages.Shows (b.m.mBufMirror / b.t.pageSz.toNat) b.t.bufPages file

namespace Buffers
open Instantiation

def Alive (s : Buffers) (i : ℕ) (b : Buffer) : Prop := s.live[i]? = some (some b)

/-- Every buffer that is alive is intact. -/
def Intact (s : Buffers) : Prop := ∀ i b, s.Alive i b → b.Intact s.proc

/-- The files that there are have been made, and those of the buffers that are alive differ. -/
structure Sane (s : Buffers) : Prop where
  fds : ∀ fd file, s.proc.fds fd = some file → file < s.proc.files
  opened : ∀ i b, s.Alive i b → ∃ fd file, b.m.mMemfd = some fd ∧ s.proc.fds fd = some file
  distinct : ∀ i j b b' fd fd', i ≠ j → s.Alive i b → s.Alive j b' → b.m.mMemfd = some fd →
    b'.m.mMemfd = some fd' → s.proc.fds fd ≠ s.proc.fds fd'

/-- The mirror of a new buffer takes no page from a buffer that is alive. -/
def Clear (s : Buffers) : Action → Prop
  | .construct t outcomes => ∀ m p, t.construct outcomes s.proc = .ok (m, p) →
      ∀ i b, s.Alive i b →
        Apart (b.m.mBuf / b.t.pageSz.toNat) b.t.bufPages
          (m.mBufMirror / t.pageSz.toNat) t.bufPages ∧
        Apart (b.m.mBufMirror / b.t.pageSz.toNat) b.t.bufPages
          (m.mBufMirror / t.pageSz.toNat) t.bufPages
  | .destruct _ => True

variable {pageSz : UInt64} {s s' : Buffers}

theorem alive_concat {p : Process} {b b' : Buffer} {i : ℕ} :
    Alive ⟨p, s.live ++ [some b]⟩ i b' ↔ s.Alive i b' ∨ i = s.live.length ∧ b' = b := by
  unfold Alive
  rcases Nat.lt_trichotomy i s.live.length with hlt | rfl | hgt
  · rw [List.getElem?_append_left hlt]
    exact ⟨.inl, fun h => h.elim id fun h => absurd h.1 hlt.ne⟩
  · rw [List.getElem?_concat_length]
    simp [eq_comm]
  · rw [List.getElem?_eq_none (by simpa using Nat.succ_le_of_lt hgt), List.getElem?_eq_none hgt.le]
    simp [hgt.ne']

theorem alive_set {p : Process} {i j : ℕ} {b : Buffer} :
    Alive ⟨p, s.live.set i none⟩ j b ↔ i ≠ j ∧ s.Alive j b := by
  unfold Alive
  by_cases hij : i = j
  · subst hij
    rw [List.getElem?_set_self']
    cases s.live[i]? <;> simp
  · rw [List.getElem?_set_ne hij]
    exact (and_iff_right hij).symm

theorem step_construct {t : Instantiation} {outcomes : ℕ → Outcomes}
    (h : s.step pageSz (.construct t outcomes) = some s') : ∃ m p p₁ fd page,
      t.construct outcomes s.proc = .ok (m, p) ∧ s' = ⟨p, s.live ++ [some ⟨t, m⟩]⟩ ∧
      s.proc.Spared p₁ ∧ t.Doubled p₁ fd page m p := by
  simp only [step] at h
  split_ifs at h
  split at h
  · rename_i m p hconstruct
    obtain ⟨p₁, fd, page, hspared, hdoubled⟩ := Instantiation.construct_eq_ok hconstruct
    exact ⟨m, p, p₁, fd, page, hconstruct, (Option.some.inj h).symm, hspared, hdoubled⟩
  · cases h

theorem step_destruct {i : ℕ} (h : s.step pageSz (.destruct i) = some s') :
    ∃ b, s.Alive i b ∧ s' = ⟨b.t.destruct b.m s.proc, s.live.set i none⟩ := by
  simp only [step] at h
  split at h
  · rename_i b hb
    exact ⟨b, hb, (Option.some.inj h).symm⟩
  · cases h

/-- A file that a descriptor was open on before a constructor is the one after it. -/
theorem fds_construct {t : Instantiation} {p p₁ p' : Process} {fd page : ℕ} {m : Mapping}
    (hspared : p.Spared p₁) (hdoubled : t.Doubled p₁ fd page m p') {fd' file : ℕ}
    (hfd : p.fds fd' = some file) : fd' ≠ fd ∧ p'.fds fd' = some file := by
  have hfd₁ : p₁.fds fd' = some file := by
    rcases hspared.fds with heq | ⟨h0, _, -, -, heq⟩
    · rw [heq, hfd]
    · have hne : fd' ≠ 0 := by
        rintro rfl
        rw [h0] at hfd
        cases hfd
      rw [heq, Function.update_of_ne hne, hfd]
  have hne : fd' ≠ fd := by
    rintro rfl
    rw [hdoubled.fd_new] at hfd₁
    cases hfd₁
  refine ⟨hne, ?_⟩
  rw [hdoubled.process]
  exact (Function.update_of_ne hne _ _).trans hfd₁

/-- Every file was made. -/
theorem fds_lt_construct {t : Instantiation} {p p₁ p' : Process} {fd page : ℕ} {m : Mapping}
    (h : ∀ fd file, p.fds fd = some file → file < p.files) (hspared : p.Spared p₁)
    (hdoubled : t.Doubled p₁ fd page m p') (fd' file : ℕ) (hfile : p'.fds fd' = some file) :
    file < p'.files := by
  have hle := hspared.files
  have h₁ : ∀ fd' file, p₁.fds fd' = some file → file < p₁.files := by
    intro fd' file hfile
    rcases hspared.fds with heq | ⟨-, leaked, -, hlt, heq⟩
    · rw [heq] at hfile
      exact (h fd' file hfile).trans_le hle
    · rw [heq] at hfile
      by_cases h0 : fd' = 0
      · rw [h0, Function.update_self] at hfile
        exact Option.some.inj hfile ▸ hlt
      · rw [Function.update_of_ne h0] at hfile
        exact (h fd' file hfile).trans_le hle
  have hfds : p'.fds = Function.update p₁.fds fd (some p₁.files) := by rw [hdoubled.process]
  have hfiles : p'.files = p₁.files + 1 := by rw [hdoubled.process]
  rw [hfds] at hfile
  rw [hfiles]
  by_cases hne : fd' = fd
  · rw [hne, Function.update_self] at hfile
    exact Option.some.inj hfile ▸ Nat.lt_succ_self _
  · rw [Function.update_of_ne hne] at hfile
    exact Nat.lt_succ_of_lt (h₁ fd' file hfile)

theorem Sane.construct {t : Instantiation} {p p₁ : Process} {fd page : ℕ} {m : Mapping}
    (h : s.Sane) (hspared : s.proc.Spared p₁) (hdoubled : t.Doubled p₁ fd page m p) :
    Sane ⟨p, s.live ++ [some ⟨t, m⟩]⟩ := by
  have hnew : p.fds fd = some p₁.files := hdoubled.fds
  have hfd : m.mMemfd = some fd := by rw [hdoubled.members]
  have hold : ∀ i b fd', s.Alive i b → b.m.mMemfd = some fd' →
      ∃ file, file < p₁.files ∧ s.proc.fds fd' = some file ∧ p.fds fd' = some file := by
    intro i b fd' hb hfd'
    obtain ⟨fd'', file, hfd'', hfile⟩ := h.opened i b hb
    rw [hfd'] at hfd''
    obtain rfl := Option.some.inj hfd''
    exact ⟨file, (h.fds _ file hfile).trans_le hspared.files, hfile,
      (fds_construct hspared hdoubled hfile).2⟩
  constructor
  · exact fds_lt_construct h.fds hspared hdoubled
  · intro i b hb
    rcases alive_concat.mp hb with hb | ⟨-, rfl⟩
    · obtain ⟨fd', file, hfd', hfile⟩ := h.opened i b hb
      exact ⟨fd', file, hfd', (fds_construct hspared hdoubled hfile).2⟩
    · exact ⟨fd, p₁.files, hfd, hnew⟩
  · intro i j b b' fd₁ fd₂ hij hb hb' hfd₁ hfd₂
    rcases alive_concat.mp hb with hb | ⟨rfl, rfl⟩
    · obtain ⟨file₁, hlt₁, hs₁, hp₁⟩ := hold i b fd₁ hb hfd₁
      rcases alive_concat.mp hb' with hb' | ⟨rfl, rfl⟩
      · obtain ⟨file₂, -, hs₂, hp₂⟩ := hold j b' fd₂ hb' hfd₂
        rw [hp₁, hp₂, ← hs₁, ← hs₂]
        exact h.distinct i j b b' fd₁ fd₂ hij hb hb' hfd₁ hfd₂
      · obtain rfl := Option.some.inj (hfd.symm.trans hfd₂)
        rw [hp₁, hnew]
        simp [hlt₁.ne]
    · obtain rfl := Option.some.inj (hfd.symm.trans hfd₁)
      rcases alive_concat.mp hb' with hb' | ⟨rfl, -⟩
      · obtain ⟨file₂, hlt₂, -, hp₂⟩ := hold j b' fd₂ hb' hfd₂
        rw [hp₂, hnew]
        simp [hlt₂.ne']
      · exact absurd rfl hij

/-- A destructor closes the descriptor of its own buffer. -/
theorem fds_destruct (b : Buffer) (p : Process) {fd : ℕ} (hfd : b.m.mMemfd = some fd) :
    (b.t.destruct b.m p).fds = Function.update p.fds fd none := by
  unfold Instantiation.destruct
  rw [hfd]
  rfl

theorem pages_destruct (b : Buffer) (p : Process) :
    (b.t.destruct b.m p).pages =
      (p.pages.unmap (b.m.mBuf / b.t.pageSz.toNat) b.t.bufPages).unmap
        (b.m.mBufMirror / b.t.pageSz.toNat) b.t.bufPages := by
  unfold Instantiation.destruct
  cases b.m.mMemfd <;> rfl

theorem files_destruct (b : Buffer) (p : Process) : (b.t.destruct b.m p).files = p.files := by
  unfold Instantiation.destruct
  cases b.m.mMemfd <;> rfl

/-- The other buffers' descriptors stay open. -/
theorem Sane.fds_destruct_of_ne (h : s.Sane) {i j : ℕ} {b b' : Buffer} (hb : s.Alive i b)
    (hb' : s.Alive j b') (hij : i ≠ j) {fd' : ℕ} (hfd' : b'.m.mMemfd = some fd') :
    (b.t.destruct b.m s.proc).fds fd' = s.proc.fds fd' := by
  obtain ⟨fd, file, hfd, hfile⟩ := h.opened i b hb
  have hne : fd' ≠ fd := by
    rintro rfl
    exact h.distinct i j b b' fd' fd' hij hb hb' hfd hfd' rfl
  rw [fds_destruct b s.proc hfd, Function.update_of_ne hne]

theorem Sane.destruct {i : ℕ} {b : Buffer} (h : s.Sane) (hb : s.Alive i b) :
    Sane ⟨b.t.destruct b.m s.proc, s.live.set i none⟩ := by
  constructor
  · intro fd' file hfile
    obtain ⟨fd, _, hfd, -⟩ := h.opened i b hb
    rw [fds_destruct b s.proc hfd] at hfile
    rw [files_destruct]
    by_cases hne : fd' = fd
    · rw [hne, Function.update_self] at hfile
      cases hfile
    · rw [Function.update_of_ne hne] at hfile
      exact h.fds fd' file hfile
  · intro j b' hb'
    obtain ⟨hij, hb'⟩ := alive_set.mp hb'
    obtain ⟨fd', file, hfd', hfile⟩ := h.opened j b' hb'
    exact ⟨fd', file, hfd', (h.fds_destruct_of_ne hb hb' hij hfd').trans hfile⟩
  · intro j k b₁ b₂ fd₁ fd₂ hjk hb₁ hb₂ hfd₁ hfd₂
    obtain ⟨hij, hb₁⟩ := alive_set.mp hb₁
    obtain ⟨hik, hb₂⟩ := alive_set.mp hb₂
    rw [h.fds_destruct_of_ne hb hb₁ hij hfd₁, h.fds_destruct_of_ne hb hb₂ hik hfd₂]
    exact h.distinct j k b₁ b₂ fd₁ fd₂ hjk hb₁ hb₂ hfd₁ hfd₂

/-- The pages of two intact buffers are apart, so that destroying one spares the other. -/
theorem Intact.destruct {i : ℕ} {b : Buffer} (h : s.Intact) (hsane : s.Sane) (hb : s.Alive i b) :
    Intact ⟨b.t.destruct b.m s.proc, s.live.set i none⟩ := by
  intro j b' hb'
  obtain ⟨hij, hb'⟩ := alive_set.mp hb'
  obtain ⟨fd, file, hfd, hfile, hbuf, hmirror⟩ := h i b hb
  obtain ⟨fd', file', hfd', hfile', hbuf', hmirror'⟩ := h j b' hb'
  have hne : file' ≠ file := by
    rintro rfl
    exact hsane.distinct i j b b' fd fd' hij hb hb' hfd hfd' (hfile.trans hfile'.symm)
  refine ⟨fd', file', hfd', (hsane.fds_destruct_of_ne hb hb' hij hfd').trans hfile', ?_, ?_⟩
  · rw [pages_destruct]
    exact (hbuf'.unmap (hbuf'.apart hbuf hne)).unmap (hbuf'.apart hmirror hne)
  · rw [pages_destruct]
    exact (hmirror'.unmap (hmirror'.apart hbuf hne)).unmap (hmirror'.apart hmirror hne)

/-- A new buffer is intact, and so are the others if its mirror keeps off their pages. -/
theorem Intact.construct {t : Instantiation} {p p₁ : Process} {fd page : ℕ} {m : Mapping}
    (h : s.Intact) (hspared : s.proc.Spared p₁) (hdoubled : t.Doubled p₁ fd page m p)
    (hclear : ∀ i b, s.Alive i b →
      Apart (b.m.mBuf / b.t.pageSz.toNat) b.t.bufPages
          (m.mBufMirror / t.pageSz.toNat) t.bufPages ∧
        Apart (b.m.mBufMirror / b.t.pageSz.toNat) b.t.bufPages
          (m.mBufMirror / t.pageSz.toNat) t.bufPages) :
    Intact ⟨p, s.live ++ [some ⟨t, m⟩]⟩ := by
  intro i b hb
  rcases alive_concat.mp hb with hb | ⟨-, rfl⟩
  · obtain ⟨fd', file, hfd', hfile, hbuf, hmirror⟩ := h i b hb
    obtain ⟨hapart, hapart'⟩ := hclear i b hb
    rw [hdoubled.mBufMirror_div] at hapart hapart'
    rw [← hspared.pages] at hbuf hmirror
    refine ⟨fd', file, hfd', (fds_construct hspared hdoubled hfile).2, ?_, ?_⟩
    · rw [hdoubled.pages]
      exact (hbuf.map (hbuf.apart_free hdoubled.free)).map hapart
    · rw [hdoubled.pages]
      exact (hmirror.map (hmirror.apart_free hdoubled.free)).map hapart'
  · refine ⟨fd, p₁.files, by rw [hdoubled.members], hdoubled.fds, ?_⟩
    rw [hdoubled.mBuf_div, hdoubled.mBufMirror_div]
    exact hdoubled.shows

/-- The mirror of a new buffer is on no page of the others if they are intact afterwards. -/
theorem Intact.clear {t : Instantiation} {p p₁ : Process} {fd page : ℕ} {m : Mapping}
    (hsane : s.Sane) (hspared : s.proc.Spared p₁) (hdoubled : t.Doubled p₁ fd page m p)
    (h : Intact ⟨p, s.live ++ [some ⟨t, m⟩]⟩) {i : ℕ} {b : Buffer} (hb : s.Alive i b) :
    Apart (b.m.mBuf / b.t.pageSz.toNat) b.t.bufPages
        (m.mBufMirror / t.pageSz.toNat) t.bufPages ∧
      Apart (b.m.mBufMirror / b.t.pageSz.toNat) b.t.bufPages
        (m.mBufMirror / t.pageSz.toNat) t.bufPages := by
  obtain ⟨fd', file, hfd', hfile, hbuf, hmirror⟩ := h i b (alive_concat.mpr (.inl hb))
  obtain ⟨fd'', file', hfd'', hfile'⟩ := hsane.opened i b hb
  obtain rfl := Option.some.inj (hfd'.symm.trans hfd'')
  have hold := (fds_construct hspared hdoubled hfile').2
  obtain rfl : file = file' := Option.some.inj (hfile.symm.trans hold)
  have hne : file ≠ p₁.files := ((hsane.fds _ file hfile').trans_le hspared.files).ne
  rw [hdoubled.pages] at hbuf hmirror
  rw [hdoubled.mBufMirror_div]
  exact ⟨hbuf.apart_of_map hne, hmirror.apart_of_map hne⟩

/-- The invariant of the runs. -/
structure Holds (s : Buffers) : Prop where
  sane : s.Sane
  intact : s.Intact

theorem Holds.step (s : Buffers) (a : Action) (s' : Buffers) (h : s.Holds) (hok : s.Clear a)
    (hs : s.step pageSz a = some s') : s'.Holds := by
  cases a with
  | construct t outcomes =>
    obtain ⟨m, p, p₁, fd, page, hconstruct, rfl, hspared, hdoubled⟩ := step_construct hs
    exact ⟨h.sane.construct hspared hdoubled,
      h.intact.construct hspared hdoubled (hok m p hconstruct)⟩
  | destruct i =>
    obtain ⟨b, hb, rfl⟩ := step_destruct hs
    exact ⟨h.sane.destruct hb, h.intact.destruct h.sane hb⟩

theorem Holds.not_intact (s : Buffers) (a : Action) (s' : Buffers) (h : s.Holds)
    (hok : ¬s.Clear a) (hs : s.step pageSz a = some s') : ¬s'.Intact := by
  intro hintact
  cases a with
  | construct t outcomes =>
    obtain ⟨m, p, p₁, fd, page, hconstruct, rfl, hspared, hdoubled⟩ := step_construct hs
    refine hok fun m' p' hconstruct' i b hb => ?_
    obtain ⟨rfl, rfl⟩ := Prod.mk.inj (Except.ok.inj (hconstruct.symm.trans hconstruct'))
    exact hintact.clear h.sane hspared hdoubled hb
  | destruct i => exact hok trivial

theorem not_alive_nil {p : Process} {i : ℕ} {b : Buffer} : ¬Alive ⟨p, []⟩ i b := fun hb => by
  rw [Alive, List.getElem?_nil] at hb
  cases hb

/-- Buffers stay doubly mapped all through a run exactly when no mirror is put on another's pages,
which nothing in the constructor prevents. -/
theorem intact_iff {p : Process} (hfds : ∀ fd file, p.fds fd = some file → file < p.files)
    (as : List Action) {r : Buffers} (hrun : Lib.run (step pageSz) ⟨p, []⟩ as = some r) :
    Throughout (step pageSz) Intact ⟨p, []⟩ as ↔ RunsWithin (step pageSz) Clear ⟨p, []⟩ as := by
  have hstart : Holds ⟨p, []⟩ :=
    ⟨⟨hfds, fun _ _ hb => absurd hb not_alive_nil,
      fun _ _ _ _ _ _ _ hb => absurd hb not_alive_nil⟩, fun _ _ hb => absurd hb not_alive_nil⟩
  exact throughout_iff_runsWithin Holds.step (fun _ h => h.intact) Holds.not_intact hstart hrun

/-- Tries that all go well, with the buffer at a page of the kernel's choice. -/
def placed (fd page : ℕ) : ℕ → Outcomes := fun _ => ⟨some fd, true, some page, true⟩

/-- The buffer that this gives, of a page. -/
def wordBuffer (fd page : ℕ) : Buffer :=
  ⟨aWordPage, ⟨page * 4096, (page + 1) * 4096, some fd⟩⟩

/-- A process with such a buffer besides what it has. -/
def withBuffer (p : Process) (fd page : ℕ) : Process where
  fds := Function.update p.fds fd (some p.files)
  files := p.files + 1
  pages := (p.pages.map page 1 p.files).map (page + 1) 1 p.files

section placed
variable {fd page : ℕ} {p : Process}

theorem construct_placed (hfd : fd ≠ 0) (hnew : p.fds fd = none) (hpage : 0 < page)
    (hfree : p.pages.Free page 1) :
    aWordPage.construct (placed fd page) p =
      .ok ((wordBuffer fd page).m, withBuffer p fd page) := by
  have hsz : aWordPage.pageSz.toNat = 4096 := rfl
  have hcreate : p.memfdCreate (some fd) = some (fd, p.openFd fd) := if_pos hnew
  have hfile : (p.openFd fd).fds fd = some p.files := Function.update_self ..
  have hmap : (p.openFd fd).mmap (some page) 1 fd =
      some (page, { p.openFd fd with pages := p.pages.map page 1 p.files }) := by
    unfold Process.mmap
    rw [hfile]
    exact if_pos ⟨hpage, hfree⟩
  have hfixed : Process.mmapFixed { p.openFd fd with pages := p.pages.map page 1 p.files } 4096
      (page * 4096 + 4096) 1 fd true = some ⟨(p.openFd fd).fds, p.files + 1,
        (p.pages.map page 1 p.files).map (page + 1) 1 p.files⟩ := by
    have hdiv : (page * 4096 + 4096) / 4096 = page + 1 := by omega
    have hdvd : 4096 ∣ page * 4096 + 4096 := ⟨page + 1, by ring⟩
    simp only [Process.mmapFixed, hfile, hdvd, hdiv, and_self, if_true]
    rfl
  have htry : aWordPage.tryMap (placed fd page 0) ⟨0, 0, none⟩ p =
      .ok (.break, ⟨page * 4096, page * 4096 + 4096, some fd⟩, ⟨(p.openFd fd).fds, p.files + 1,
        (p.pages.map page 1 p.files).map (page + 1) 1 p.files⟩) := by
    unfold tryMap
    rw [bufPages_aWordPage, mirrorOff_aWordPage, hsz]
    simp only [placed, hcreate, if_neg hfd, hmap, hfixed, Bool.not_true, Bool.false_eq_true,
      if_false, if_neg (Nat.mul_ne_zero hpage.ne' (by decide : 4096 ≠ 0))]
  have hmirror : page * 4096 + 4096 = (page + 1) * 4096 := by ring
  rw [hmirror] at htry
  have hloop : aWordPage.mapLoop (placed fd page) mmapMaxTries 0 ⟨0, 0, none⟩ p = _ :=
    mapLoop_break 15 htry
  have hassert : assertThat (decide (page * 4096 ≠ 0) && decide ((page + 1) * 4096 ≠ 0)) =
      .ok () := by
    rw [decide_eq_true (Nat.mul_ne_zero hpage.ne' (by decide : 4096 ≠ 0)),
      decide_eq_true (Nat.mul_ne_zero page.succ_ne_zero (by decide : 4096 ≠ 0))]
    rfl
  rw [construct, hloop, ok_bind]
  simp only [hassert]
  rfl

theorem step_placed (live : List (Option Buffer)) (hfd : fd ≠ 0) (hnew : p.fds fd = none)
    (hpage : 0 < page) (hfree : p.pages.Free page 1) :
    step 4096 ⟨p, live⟩ (.construct aWordPage (placed fd page)) =
      some ⟨withBuffer p fd page, live ++ [some (wordBuffer fd page)]⟩ := by
  have hsz : aWordPage.pageSz = 4096 := rfl
  simp only [step, hsz, if_true, construct_placed hfd hnew hpage hfree]
  rfl

/-- The pages of the other buffers are apart from the mirror's. -/
theorem clear_placed {live : List (Option Buffer)} (hfd : fd ≠ 0) (hnew : p.fds fd = none)
    (hpage : 0 < page) (hfree : p.pages.Free page 1)
    (halive : ∀ i b, Alive ⟨p, live⟩ i b → ∃ fd' page', b = wordBuffer fd' page' ∧
      page' ≠ page + 1 ∧ page' ≠ page) :
    Clear ⟨p, live⟩ (.construct aWordPage (placed fd page)) := by
  intro m p' hconstruct i b hb
  have hm := (Prod.mk.inj (Except.ok.inj
    (hconstruct.symm.trans (construct_placed hfd hnew hpage hfree)))).1
  obtain ⟨fd', page', rfl, hbuf, hmirror⟩ := halive i b hb
  have hsz : aWordPage.pageSz.toNat = 4096 := rfl
  simp only [wordBuffer, hm, hsz, bufPages_aWordPage, Nat.mul_div_cancel _ (by decide : 0 < 4096)]
  refine ⟨fun q hq hq' => ?_, fun q hq hq' => ?_⟩ <;> simp only [InRange] at hq hq' <;> omega

end placed

/-- A process without files or memory. -/
def fresh : Process := ⟨fun _ => none, 0, fun _ => none⟩

/-- Two buffers side by side; the first one is destroyed and another one put in its place. -/
def sideBySide : List Action :=
  [.construct aWordPage (placed 3 8), .construct aWordPage (placed 4 10), .destruct 0,
    .construct aWordPage (placed 5 8)]

/-- The process when the first buffer is gone. -/
def oneGone : Process :=
  aWordPage.destruct (wordBuffer 3 8).m (withBuffer (withBuffer fresh 3 8) 4 10)

theorem free_oneGone : oneGone.pages.Free 8 1 := by
  have hsz : aWordPage.pageSz.toNat = 4096 := rfl
  have hpages := pages_destruct (wordBuffer 3 8) (withBuffer (withBuffer fresh 3 8) 4 10)
  simp only [wordBuffer, hsz, bufPages_aWordPage] at hpages
  intro k hk
  obtain rfl : k = 0 := by omega
  change (aWordPage.destruct _ _).pages 8 = none
  rw [wordBuffer, hpages]
  rfl

theorem intact_sideBySide : Throughout (step 4096) Intact ⟨fresh, []⟩ sideBySide := by
  have hfree : ∀ page, fresh.pages.Free page 1 := fun _ _ _ => rfl
  have hfree₁ : (withBuffer fresh 3 8).pages.Free 10 1 := by decide
  have h₁ : step 4096 ⟨fresh, []⟩ (.construct aWordPage (placed 3 8)) =
      some ⟨withBuffer fresh 3 8, [some (wordBuffer 3 8)]⟩ :=
    step_placed [] (by decide) rfl (by decide) (hfree 8)
  have h₂ : step 4096 ⟨withBuffer fresh 3 8, [some (wordBuffer 3 8)]⟩
      (.construct aWordPage (placed 4 10)) = some ⟨withBuffer (withBuffer fresh 3 8) 4 10,
        [some (wordBuffer 3 8), some (wordBuffer 4 10)]⟩ :=
    step_placed _ (by decide) rfl (by decide) hfree₁
  have h₃ : step 4096 ⟨withBuffer (withBuffer fresh 3 8) 4 10,
      [some (wordBuffer 3 8), some (wordBuffer 4 10)]⟩ (.destruct 0) =
        some ⟨oneGone, [none, some (wordBuffer 4 10)]⟩ := rfl
  have h₄ : step 4096 ⟨oneGone, [none, some (wordBuffer 4 10)]⟩
      (.construct aWordPage (placed 5 8)) = some ⟨withBuffer oneGone 5 8,
        [none, some (wordBuffer 4 10), some (wordBuffer 5 8)]⟩ :=
    step_placed _ (by decide) rfl (by decide) free_oneGone
  have hrun : Lib.run (step 4096) ⟨fresh, []⟩ sideBySide = some ⟨withBuffer oneGone 5 8,
      [none, some (wordBuffer 4 10), some (wordBuffer 5 8)]⟩ := by
    simp only [sideBySide, Lib.run, h₁, h₂, h₃, h₄, Option.bind_some]
  have hone : ∀ (p : Process) (i : ℕ) (b : Buffer),
      Alive ⟨p, [some (wordBuffer 3 8)]⟩ i b → b = wordBuffer 3 8 := by
    intro p i b hb
    exact Option.some.inj (List.mem_singleton.mp (List.mem_of_getElem? hb))
  have hother : ∀ (p : Process) (i : ℕ) (b : Buffer),
      Alive ⟨p, [none, some (wordBuffer 4 10)]⟩ i b → b = wordBuffer 4 10 := by
    intro p i b hb
    obtain hnone | hsome := List.mem_cons.mp (List.mem_of_getElem? hb)
    · cases hnone
    · exact Option.some.inj (List.mem_singleton.mp hsome)
  refine (intact_iff (fun _ _ h => by cases h) _ hrun).mpr ⟨?_, ?_⟩
  · exact clear_placed (by decide) rfl (by decide) (hfree 8) fun _ _ hb => absurd hb not_alive_nil
  rw [h₁]
  refine ⟨clear_placed (by decide) rfl (by decide) hfree₁ fun i b hb => ?_, ?_⟩
  · exact ⟨3, 8, hone _ i b hb, by decide, by decide⟩
  rw [h₂]
  refine ⟨trivial, ?_⟩
  rw [h₃]
  refine ⟨clear_placed (by decide) rfl (by decide) free_oneGone fun i b hb => ?_, ?_⟩
  · exact ⟨4, 10, hother _ i b hb, by decide, by decide⟩
  rw [h₄]
  trivial

end Buffers
end RingBuffer
end JevMachO

import JevMachO.MachO.RangeHull

/-! Load commands while other memory changes. A walk reads the headers of the commands and, of
segments, the fields; as long as these bytes stay, it sees the same commands. -/
namespace JevMachO
open Lib

namespace MachO

/-- The commands a complete walk from the header sees. -/
def Commands (mem : Bytes) (macho : ℕ) (lcs : List ℕ) : Prop :=
  ∃ cend, lcCend mem macho = .ok cend ∧ (LoadCommand.cursor mem cend).Visits (lcCbegin macho) lcs

def isSegment (mem : Bytes) (lc : ℕ) : Bool :=
  hasType mem LoadCommandType.segment64 lc = .ok true

/-- `sizeof(SegmentCommand)`. -/
def sizeofSegmentCommand : ℕ := 64

/-- The bytes of a command that a walk over the segments reads. -/
def commandRange (mem : Bytes) (lc : ℕ) : Set ℕ :=
  Set.Ico lc (LoadCommand.subcmd lc + if isSegment mem lc then sizeofSegmentCommand else 0)

/-- The bytes that decide what segments there are. -/
def commandBytes (mem : Bytes) (macho : ℕ) : Set ℕ :=
  { i | i ∈ Set.Ico (macho + 20) (macho + 24) ∨
    ∃ lcs, Commands mem macho lcs ∧ ∃ lc ∈ lcs, i ∈ commandRange mem lc }

variable {S : Set ℕ} {mem mem' : Bytes} {macho cend p lc seg : ℕ} {lcs : List ℕ}

theorem header_subset_commandRange (mem : Bytes) (lc : ℕ) :
    Set.Ico lc (lc + LoadCommand.sizeofLoadCommand) ⊆ commandRange mem lc :=
  Set.Ico_subset_Ico_right (Nat.le_add_right _ _)

/-- A walk can only step from a header that is inside the image, and only forward. -/
theorem length_le_of_visits (h : (LoadCommand.cursor mem cend).Visits p lcs) (hne : lcs ≠ []) :
    p + lcs.length ≤ mem.length := by
  induction h with
  | nil => exact absurd rfl hne
  | @cons p p' lc lcs he hd hn hrest ih =>
    obtain rfl := Except.ok.inj hd
    obtain ⟨sz, hsz, hp'⟩ := bind_eq_ok.mp hn
    obtain rfl := Except.ok.inj hp'
    obtain ⟨bs, hbs, -⟩ := bind_eq_ok.mp hsz
    have hin := (load_eq_ok hbs).1
    have hpos : 0 < sz.toNat := by
      by_contra h0
      rw [Nat.not_lt, Nat.le_zero] at h0
      rw [h0, Nat.add_zero] at hrest hn
      exact List.cons_ne_self _ _ ((Cursor.Visits.cons he hd hn hrest).unique hrest)
    rw [List.length_cons]
    cases lcs with
    | nil =>
      rw [List.length_nil]
      omega
    | cons q qs =>
      have hle := ih (by simp)
      omega

theorem length_le_of_commands (h : Commands mem macho lcs) : lcs.length ≤ mem.length := by
  obtain ⟨cend, -, hv⟩ := h
  cases lcs with
  | nil => exact Nat.zero_le _
  | cons q qs =>
    have := length_le_of_visits hv (by simp)
    omega

/-- Every command a walk steps from has a readable header. -/
theorem hasType_of_visits (h : (LoadCommand.cursor mem cend).Visits p lcs) (hlc : lc ∈ lcs) :
    hasType mem LoadCommandType.segment64 lc = .ok (isSegment mem lc) := by
  induction h with
  | nil => cases hlc
  | @cons p p' a as he hd hn hrest ih =>
    rcases List.mem_cons.mp hlc with rfl | hlc
    · obtain rfl := Except.ok.inj hd
      obtain ⟨sz, hsz, -⟩ := bind_eq_ok.mp hn
      obtain ⟨bs, hbs, -⟩ := bind_eq_ok.mp hsz
      have hin := (load_eq_ok hbs).1
      have hl : load mem p 4 = .ok ((mem.drop p).take 4) := load_of_le (by omega)
      unfold isSegment hasType LoadCommand.cmd loadU32
      simp only [hl, ok_bind, pure_eq_ok, Except.ok.injEq, Bool.decide_eq_true]
    · exact ih hlc

/-! ### What stays -/

theorem cmdsize_changedIn (hc : ChangedIn S mem mem')
    (hd : Disjoint (Set.Ico lc (lc + LoadCommand.sizeofLoadCommand)) S) :
    LoadCommand.cmdsize mem' lc = LoadCommand.cmdsize mem lc :=
  loadU32_changedIn hc (hd.mono_left (Set.Ico_subset_Ico (by omega)
    (by simp only [LoadCommand.sizeofLoadCommand]; omega)))

theorem visits_changedIn (hc : ChangedIn S mem mem')
    (hd : ∀ lc ∈ lcs, Disjoint (Set.Ico lc (lc + LoadCommand.sizeofLoadCommand)) S)
    (h : (LoadCommand.cursor mem cend).Visits p lcs) :
    (LoadCommand.cursor mem' cend).Visits p lcs := by
  induction h with
  | nil he => exact .nil he
  | @cons p p' a as he hda hn _ ih =>
    rw [List.forall_mem_cons] at hd
    obtain rfl := Except.ok.inj hda
    refine .cons he hda ?_ (ih hd.2)
    simp only [LoadCommand.cursor, cmdsize_changedIn hc hd.1]
    exact hn

theorem hasType_changedIn (hc : ChangedIn S mem mem')
    (hd : Disjoint (Set.Ico lc (lc + LoadCommand.sizeofLoadCommand)) S) (type : UInt32) :
    hasType mem' type lc = hasType mem type lc := by
  have hcmd : LoadCommand.cmd mem' lc = LoadCommand.cmd mem lc :=
    loadU32_changedIn hc (hd.mono_left (Set.Ico_subset_Ico_right (by
      simp only [LoadCommand.sizeofLoadCommand]
      omega)))
  unfold hasType
  rw [hcmd]

theorem disjoint_commandRange (hd : Disjoint (commandBytes mem macho) S)
    (h : Commands mem macho lcs) (hlc : lc ∈ lcs) : Disjoint (commandRange mem lc) S :=
  hd.mono_left fun _ hi => .inr ⟨lcs, h, lc, hlc, hi⟩

/-- The commands of a table lie behind its header. -/
theorem CommandTable.commandBytes_subset {cmds : List Command} (h : CommandTable mem macho cmds)
    (hok : ∀ c ∈ cmds, c.SegmentOk) : commandBytes mem macho ⊆
      Set.Ico macho (lcCbegin macho + (cmds.flatMap Command.bytes).length) := by
  rintro i (hi | ⟨lcs, ⟨cend, hcend, hv⟩, lc, hlc, hi⟩)
  · rw [Set.mem_Ico] at hi ⊢
    unfold lcCbegin sizeofMachO
    omega
  · obtain ⟨r, hr, hsees⟩ := h.loadCommands_eq
    unfold loadCommands at hr
    rw [hcend, ok_bind] at hr
    obtain rfl := Except.ok.inj hr
    obtain rfl := hv.unique hsees
    obtain ⟨c, hc, rfl⟩ := List.mem_map.mp hlc
    have hb := locate_bounds Command.cmdsize hc
    rw [length_flatMap_enc Command.cmdsize Command.length_bytes]
    have hend : i < c.1 + c.2.cmdsize := by
      have hsegment := hok c.2 (mem_of_mem_commandsAt hc)
      unfold commandRange isSegment at hi
      rw [h.hasType_eq _ c hc, Set.mem_Ico, LoadCommand.subcmd] at hi
      unfold Command.cmdsize
      split_ifs at hi with htype
      · have := hsegment (eq_of_beq (by simpa using htype))
        unfold sizeofSegmentCommand at hi
        omega
      · omega
    have hlo := hi.1
    unfold lcCbegin at hb ⊢
    rw [Set.mem_Ico]
    omega

section segments
variable (hc : ChangedIn S mem mem') (hd : Disjoint (commandBytes mem macho) S)
include hc hd

theorem lcCend_changedIn : lcCend mem' macho = lcCend mem macho := by
  have hsz : lcSizeof mem' macho = lcSizeof mem macho :=
    loadU32_changedIn hc (hd.mono_left fun _ hi => .inl hi)
  unfold lcCend
  rw [hsz]

/-- The fields of a segment are read unchanged. -/
theorem field_changedIn (h : Commands mem macho lcs) (hlc : lc ∈ lcs)
    (hseg : isSegment mem lc = true) {k : ℕ} (hk : k + 8 ≤ sizeofSegmentCommand) :
    loadU64 mem' (LoadCommand.subcmd lc + k) = loadU64 mem (LoadCommand.subcmd lc + k) := by
  refine loadU64_changedIn hc ((disjoint_commandRange hd h hlc).mono_left ?_)
  unfold commandRange
  rw [if_pos hseg]
  refine Set.Ico_subset_Ico ?_ (by omega)
  unfold LoadCommand.subcmd
  omega

theorem fileRange_changedIn (h : Commands mem macho lcs) (hlc : lc ∈ lcs)
    (hseg : isSegment mem lc = true) :
    SegmentCommand.fileRange mem' (LoadCommand.subcmd lc) =
      SegmentCommand.fileRange mem (LoadCommand.subcmd lc) := by
  unfold SegmentCommand.fileRange SegmentCommand.fileoffAt SegmentCommand.filesizeAt
  rw [field_changedIn hc hd h hlc hseg (by decide), field_changedIn hc hd h hlc hseg (by decide)]

theorem vmaddrRange_changedIn (h : Commands mem macho lcs) (hlc : lc ∈ lcs)
    (hseg : isSegment mem lc = true) :
    SegmentCommand.vmaddrRange mem' (LoadCommand.subcmd lc) =
      SegmentCommand.vmaddrRange mem (LoadCommand.subcmd lc) := by
  unfold SegmentCommand.vmaddrRange SegmentCommand.vmaddrAt SegmentCommand.vmsizeAt
  rw [field_changedIn hc hd h hlc hseg (by decide), field_changedIn hc hd h hlc hseg (by decide)]

/-- A name that ends in its field is read unchanged. -/
theorem segname_changedIn (h : Commands mem macho lcs) (hlc : lc ∈ lcs)
    (hseg : isSegment mem lc = true) {name : Bytes}
    (hname : cstr mem (LoadCommand.subcmd lc) = .ok name) (hlt : name.length < 16) :
    cstr mem' (LoadCommand.subcmd lc) = .ok name := by
  obtain ⟨hno, hat⟩ := cstr_eq_ok hname
  have hat' : At mem' (LoadCommand.subcmd lc) (name ++ [0]) := by
    refine hc.at_of_at ((disjoint_commandRange hd h hlc).mono_left ?_) hat
    unfold commandRange
    rw [if_pos hseg]
    apply Set.Ico_subset_Ico (Nat.le_add_right _ _)
    rw [List.length_append, List.length_singleton]
    unfold sizeofSegmentCommand
    omega
  rw [cstr_of_at hat' (List.mem_append_right _ List.mem_cons_self), untilNul_concat_nul,
    untilNul_of_not_mem hno]

end segments

/-! ### Segments -/

/-- `find_if` for a segment gets as far as in the image from before the change. -/
theorem exists_findSegment (hc : ChangedIn S mem mem')
    (hd : ∀ lc ∈ lcs, Disjoint (Set.Ico lc (lc + LoadCommand.sizeofLoadCommand)) S)
    (hv : (LoadCommand.cursor mem cend).Visits p lcs) :
    ∃ p', (LoadCommand.cursor mem' cend).findIf (hasType mem' LoadCommandType.segment64)
      mem'.length p = .ok p' ∧
      (LoadCommand.cursor mem cend).Visits p' (lcs.dropWhile fun lc => !isSegment mem lc) := by
  have hv' := visits_changedIn hc hd hv
  have hlen : lcs.length ≤ mem'.length := by
    cases lcs with
    | nil => exact Nat.zero_le _
    | cons q qs =>
      have := length_le_of_visits hv' (by simp)
      omega
  rw [← List.map_id lcs] at hv'
  obtain ⟨r, hr, hvr⟩ := hv'.findIf (f := id) (hasType mem' LoadCommandType.segment64)
    (isSegment mem) (fun lc hlc => by
      rw [id, hasType_changedIn hc (hd lc hlc), hasType_of_visits hv hlc]) mem'.length hlen
  rw [List.map_id] at hvr
  exact ⟨r, hr, visits_changedIn hc.symm
    (fun lc hlc => hd lc ((List.dropWhile_suffix _).subset hlc)) hvr⟩

/-- A range of the segments that is walked to its end walks all commands. -/
theorem commands_of_visits {r : Range Fault ℕ ℕ} (hr : segments mem macho = .ok r) {as : List ℕ}
    (hv : r.cursor.Visits r.first as) : ∃ lcs, Commands mem macho lcs := by
  obtain ⟨r₁, hr₁, h⟩ := bind_eq_ok.mp hr
  obtain rfl := Except.ok.inj h
  obtain ⟨r₀, hr₀, hfilter⟩ := bind_eq_ok.mp hr₁
  obtain ⟨cend, hcend, h⟩ := bind_eq_ok.mp hr₀
  obtain rfl := Except.ok.inj h
  obtain ⟨first, hfirst, h⟩ := bind_eq_ok.mp hfilter
  obtain rfl := Except.ok.inj h
  obtain ⟨bs, hbs⟩ := Cursor.visits_of_transform hv
  obtain ⟨lcs, hlcs⟩ := Cursor.visits_of_filter hfirst hbs
  exact ⟨lcs, cend, hcend, hlcs⟩

theorem commands_of_collapseRange {range : ℕ → Exec AddrRange} {res : AddrRange}
    (h : collapseRange mem macho range = .ok res) : ∃ lcs, Commands mem macho lcs := by
  obtain ⟨r, hr, h⟩ := bind_eq_ok.mp h
  obtain ⟨as, hv, -⟩ := Cursor.visits_of_accumulate h
  exact commands_of_visits hr hv

/-- The segments among the commands. -/
def segmentsIn (mem : Bytes) (lcs : List ℕ) : List ℕ :=
  (lcs.filter (isSegment mem)).map LoadCommand.subcmd

theorem segmentsIn_dropWhile (mem : Bytes) (lcs : List ℕ) :
    segmentsIn mem (lcs.dropWhile fun lc => !isSegment mem lc) = segmentsIn mem lcs := by
  unfold segmentsIn
  rw [Cursor.filter_dropWhile_not]

theorem Commands.sees_segments (h : Commands mem macho lcs) :
    ∃ r, segments mem macho = .ok r ∧ r.Sees (segmentsIn mem lcs) := by
  have hlen := length_le_of_commands h
  obtain ⟨cend, hcend, hv⟩ := h
  have hs : (Range.mk (lcCbegin macho) (LoadCommand.cursor mem cend)).Sees (lcs.map id) := by
    rw [List.map_id]
    exact hv
  obtain ⟨r, hr, hs'⟩ := hs.filter (fun lc hlc => hasType_of_visits hv hlc) hlen
  refine ⟨_, ?_, hs'.transform (f := fun segLC => .ok (LoadCommand.subcmd segLC)) fun _ _ => rfl⟩
  rw [segments, segmentLoadCommands, loadCommands, hcend]
  simp only [ok_bind, pure_eq_ok, hr]

/-- `vmaddr_range` and `file_range` give the hull of what the segments span. -/
theorem Commands.collapseRange_eq (h : Commands mem macho lcs) {range : ℕ → Exec AddrRange}
    {res : AddrRange} (hres : collapseRange mem macho range = .ok res) :
    ∃ rs : List AddrRange, (segmentsIn mem lcs).map range = rs.map Except.ok ∧
      res = AddrRange.collapseRange rs := by
  obtain ⟨r, hr, hs⟩ := h.sees_segments
  obtain ⟨r', hr', hacc⟩ := bind_eq_ok.mp hres
  obtain rfl := Except.ok.inj (hr.symm.trans hr')
  obtain ⟨as, hv, hfold⟩ := Cursor.visits_of_accumulate hacc
  obtain rfl := hs.unique hv
  exact foldl_of_foldlM hfold

/-- Every segment's range ends inside the collapsed one. -/
theorem Commands.max_le (h : Commands mem macho lcs) {range : ℕ → Exec AddrRange}
    (hvalid : ∀ seg r, range seg = .ok r → r.Valid) {res : AddrRange}
    (hres : collapseRange mem macho range = .ok res) :
    ∀ seg ∈ segmentsIn mem lcs, ∃ r, range seg = .ok r ∧ r.max ≤ res.max := by
  obtain ⟨rs, hrs, rfl⟩ := h.collapseRange_eq hres
  have hok : ∀ r ∈ rs, r.Ok := by
    intro r hr
    obtain ⟨seg, -, hseg⟩ := List.mem_map.mp (hrs ▸ List.mem_map_of_mem hr)
    exact .inr (hvalid seg r hseg)
  intro seg hseg
  obtain ⟨r, hr, hrange⟩ := List.mem_map.mp (hrs ▸ List.mem_map_of_mem (f := range) hseg)
  have hv := hvalid seg r hrange.symm
  exact ⟨r, hrange.symm, (AddrRange.spans_collapseRange hok).max_le hr hv⟩

end MachO
end JevMachO

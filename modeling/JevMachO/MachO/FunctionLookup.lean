import JevMachO.MachO.FunctionStarts

/-! Which function an offset belongs to, and how the file and the memory view relate. -/
namespace JevMachO
namespace FunctionStarts
open Lib

/-- The data of the load command: the deltas, then zero bytes. -/
def payload (deltas : List Varint) (padding : ℕ) : Bytes :=
  Varint.concat deltas ++ List.replicate padding 0

theorem payload_eq_concat (deltas : List Varint) (padding : ℕ) :
    payload deltas padding = Varint.concat (deltas ++ List.replicate padding Varint.zero) := by
  unfold payload
  rw [Varint.concat_append]
  congr 1
  induction padding with
  | zero => rfl
  | succ n ih => rw [List.replicate_succ, List.replicate_succ, Varint.concat_cons, ← ih]; rfl

/-- Where the functions start: the base and the deltas up to each one. -/
def starts : ℕ → List Varint → List ℕ
  | _, [] => []
  | t, v :: vs => (t + v.value.toNat) :: starts (t + v.value.toNat) vs

/-- The result is the greatest start that is at most the offset, or 0 when there is none. -/
def FindsStart (t off : ℕ) (deltas : List Varint) (r : Exec UInt64) : Prop :=
  ∃ f, r = .ok f ∧
    (IsGreatest {s | s ∈ starts t deltas ∧ s ≤ off} f.toNat ∨
      f = 0 ∧ ∀ s ∈ starts t deltas, off < s)

/-- The offsets for which the lookup finds the start. -/
structure Findable (t off : ℕ) (deltas : List Varint) (padding : ℕ) : Prop where
  /-- The base is 0 where it would be taken for a start. -/
  base : t = 0 ∨ off < t ∨ ∃ s ∈ starts t deltas, s ≤ off
  /-- Something follows the last delta where the last start is looked for. -/
  last : padding ≠ 0 ∨ off < t + total deltas
  /-- The delta that leads above the offset is encoded in no more bytes than stand before it. -/
  back : ∀ pre v cur suf, deltas = pre ++ v :: cur :: suf → t + total pre ≤ off →
    off < t + total pre + v.value.toNat →
    cur.bytes.length ≤ (Varint.concat (pre ++ [v])).length

/-! ### Where an offset lies -/

theorem starts_append (t : ℕ) (vs ws : List Varint) :
    starts t (vs ++ ws) = starts t vs ++ starts (t + total vs) ws := by
  induction vs generalizing t with
  | nil => rfl
  | cons v vs ih =>
    rw [List.cons_append, starts, ih, starts, total_cons, Nat.add_assoc, List.cons_append]

theorem le_of_mem_starts {t s : ℕ} {vs : List Varint} (h : s ∈ starts t vs) :
    t ≤ s ∧ s ≤ t + total vs := by
  induction vs generalizing t with
  | nil => simp [starts] at h
  | cons v vs ih =>
    rw [total_cons]
    rcases List.mem_cons.mp h with rfl | h
    · omega
    · have := ih h
      omega

theorem lt_of_mem_starts_cons {t s : ℕ} {v : Varint} {vs : List Varint}
    (h : s ∈ starts t (v :: vs)) : t + v.value.toNat ≤ s := by
  rcases List.mem_cons.mp h with rfl | h
  · exact le_rfl
  · exact (le_of_mem_starts h).1

theorem total_mem_starts (t : ℕ) {vs : List Varint} (hne : vs ≠ []) :
    t + total vs ∈ starts t vs := by
  obtain ⟨ws, w, rfl⟩ := (List.eq_nil_or_concat' vs).resolve_left hne
  rw [starts_append, total_append, total_cons, total_nil, Nat.add_zero, ← Nat.add_assoc]
  exact List.mem_append_right _ List.mem_cons_self

theorem total_split {pre suf : List Varint} {v : Varint} :
    total (pre ++ v :: suf) = total pre + v.value.toNat + total suf := by
  rw [total_append, total_cons, Nat.add_assoc]

/-- An offset from the base on lies below one of the deltas, or above all but the last. -/
theorem exists_split {t off : ℕ} {vs : List Varint} (hne : vs ≠ []) (h : t ≤ off) :
    ∃ pre v suf, vs = pre ++ v :: suf ∧ t + total pre ≤ off ∧
      (off < t + total pre + v.value.toNat ∨ suf = [] ∧ t + total pre + v.value.toNat ≤ off) := by
  induction vs generalizing t with
  | nil => exact absurd rfl hne
  | cons v vs ih =>
    by_cases hlt : off < t + v.value.toNat
    · exact ⟨[], v, vs, rfl, h, .inl hlt⟩
    cases vs with
    | nil => exact ⟨[], v, [], rfl, h, .inr ⟨rfl, Nat.not_lt.mp hlt⟩⟩
    | cons w vs =>
      obtain ⟨pre, u, suf, heq, hle, hor⟩ := ih (by simp) (Nat.not_lt.mp hlt)
      refine ⟨v :: pre, u, suf, by rw [heq]; rfl, ?_, ?_⟩
      · rw [total_cons]
        omega
      · rw [total_cons]
        rcases hor with hor | ⟨hsuf, hor⟩
        · left
          omega
        · right
          exact ⟨hsuf, by omega⟩

/-- Only one delta leads above an offset. -/
theorem split_unique {x : ℕ} {pre pre' suf suf' : List Varint} {v v' : Varint}
    (heq : pre ++ v :: suf = pre' ++ v' :: suf') (hle : total pre ≤ x)
    (hlt : x < total pre + v.value.toNat) (hle' : total pre' ≤ x)
    (hlt' : x < total pre' + v'.value.toNat) : pre = pre' ∧ v = v' ∧ suf = suf' := by
  induction pre generalizing x pre' with
  | nil =>
    cases pre' with
    | nil =>
      obtain ⟨rfl, rfl⟩ := List.cons.inj heq
      exact ⟨rfl, rfl, rfl⟩
    | cons p pre' =>
      obtain ⟨rfl, -⟩ := List.cons.inj heq
      rw [total_cons] at hle'
      rw [total_nil] at hlt
      omega
  | cons p pre ih =>
    cases pre' with
    | nil =>
      obtain ⟨rfl, -⟩ := List.cons.inj heq
      rw [total_cons] at hle
      rw [total_nil] at hlt'
      omega
    | cons p' pre' =>
      obtain ⟨rfl, htail⟩ := List.cons.inj heq
      rw [total_cons] at hle hlt hle' hlt'
      obtain ⟨rfl, rfl, rfl⟩ := ih (x := x - p.value.toNat) htail (by omega) (by omega)
        (by omega) (by omega)
      exact ⟨rfl, rfl, rfl⟩

section lookup
variable {t off : ℕ} {pre suf deltas : List Varint} {v : Varint} {f : UInt64}

/-- Between two starts the sum of the deltas before the offset is the right answer, unless it is
the base. -/
theorem findsStart_between (hf : f.toNat = t + total pre) (hle : t + total pre ≤ off)
    (hlt : off < t + total pre + v.value.toNat) :
    FindsStart t off (pre ++ v :: suf) (.ok f) ↔
      t = 0 ∨ off < t ∨ ∃ s ∈ starts t (pre ++ v :: suf), s ≤ off := by
  have habove : ∀ s ∈ starts (t + total pre) (v :: suf), off < s := fun s hs =>
    Nat.lt_of_lt_of_le hlt (lt_of_mem_starts_cons hs)
  constructor
  · rintro ⟨f', hf', hgreatest | ⟨hzero, -⟩⟩
    · exact .inr (.inr ⟨_, hgreatest.1⟩)
    · left
      have hzero' : f.toNat = 0 := by
        rw [Except.ok.inj hf', hzero]
        rfl
      omega
  · intro hbase
    refine ⟨f, rfl, ?_⟩
    rw [starts_append] at hbase ⊢
    by_cases hpre : pre = []
    · -- the base is no start
      subst hpre
      have hzero : t = 0 := by
        rcases hbase with h | h | ⟨s, hs, hle'⟩
        · exact h
        · omega
        · exact absurd (habove s hs) (by omega)
      refine .inr ⟨UInt64.toNat_inj.mp ?_, habove⟩
      rw [hf, hzero]
      rfl
    · refine .inl ⟨⟨?_, by omega⟩, ?_⟩
      · rw [hf]
        exact List.mem_append_left _ (total_mem_starts t hpre)
      · rintro s ⟨hs, hle'⟩
        rcases List.mem_append.mp hs with hs | hs
        · rw [hf]
          exact (le_of_mem_starts hs).2
        · exact absurd (habove s hs) (by omega)

/-- The deltas around the offset decide whether it is findable. -/
theorem findable_between (hle : t + total pre ≤ off) (hlt : off < t + total pre + v.value.toNat)
    (padding : ℕ) :
    Findable t off (pre ++ v :: suf) padding ↔
      (t = 0 ∨ off < t ∨ ∃ s ∈ starts t (pre ++ v :: suf), s ≤ off) ∧
        ∀ cur rest, suf = cur :: rest →
          cur.bytes.length ≤ (Varint.concat (pre ++ [v])).length := by
  constructor
  · intro h
    refine ⟨h.base, ?_⟩
    rintro cur rest rfl
    exact h.back pre v cur rest rfl hle hlt
  · rintro ⟨hbase, hback⟩
    refine ⟨hbase, .inr ?_, ?_⟩
    · rw [total_append, total_cons]
      omega
    · intro pre' v' cur suf' heq hle' hlt'
      obtain ⟨rfl, rfl, rfl⟩ := split_unique (x := off - t) heq (by omega) (by omega) (by omega)
        (by omega)
      exact hback cur suf' rfl

/-- From the last start on, the last start is the right answer. -/
theorem findsStart_above (hne : deltas ≠ []) (hf : f.toNat = t + total deltas)
    (hle : t + total deltas ≤ off) : FindsStart t off deltas (.ok f) := by
  refine ⟨f, rfl, .inl ⟨⟨?_, by omega⟩, ?_⟩⟩
  · rw [hf]
    exact total_mem_starts t hne
  · rintro s ⟨hs, -⟩
    rw [hf]
    exact (le_of_mem_starts hs).2

end lookup

/-! ### The lookup by file offset -/

variable {decode : DecodeUleb128} {deltas : List Varint}

theorem funcStartForFileOffset_concat (hdec : decode.Decodes) {vs : List Varint} (hne : vs ≠ [])
    (off : UInt64) (textSeg : SegmentCommand) :
    funcStartForFileOffset decode off (Varint.concat vs) textSeg =
      funcStartForOffsets decode off (offsets textSeg.fileoff vs) := by
  unfold funcStartForFileOffset
  rw [fileOffsets_concat hdec hne]
  rfl

theorem findsStart_before {t off : ℕ} (hoff : off < t) :
    FindsStart t off deltas (.ok 0) :=
  ⟨0, rfl, .inr ⟨rfl, fun _ hs => Nat.lt_of_lt_of_le hoff (le_of_mem_starts hs).1⟩⟩

theorem findable_before {t off : ℕ} (hoff : off < t) (padding : ℕ) :
    Findable t off deltas padding where
  base := .inr (.inl hoff)
  last := .inr (by omega)
  back := fun pre v cur suf _ hle _ => by omega

@[simp] theorem total_zeros (n : ℕ) : total (List.replicate n Varint.zero) = 0 := by
  induction n with
  | zero => rfl
  | succ n ih => rw [List.replicate_succ, total_cons, ih]; rfl

/-- The lookup of an offset between two starts. Padding behind the last delta is one byte each,
so it never makes the step back fail. -/
theorem funcStartForOffsets_padded (hdec : decode.Decodes) {t off : UInt64}
    {pre : List Varint} {v : Varint} (suf : List Varint) (padding : ℕ)
    (hle : t.toNat + total pre ≤ off.toNat)
    (hlt : off.toNat < t.toNat + total pre + v.value.toNat)
    (h64 : t.toNat + total pre + v.value.toNat < 2 ^ 64) :
    ((∀ cur rest, suf = cur :: rest →
        cur.bytes.length ≤ (Varint.concat (pre ++ [v])).length) →
      funcStartForOffsets decode off
        (offsets t (pre ++ v :: suf ++ List.replicate padding Varint.zero)) =
          .ok (sumFrom t pre)) ∧
    ((∃ cur rest, suf = cur :: rest ∧
        ¬cur.bytes.length ≤ (Varint.concat (pre ++ [v])).length) →
      funcStartForOffsets decode off
        (offsets t (pre ++ v :: suf ++ List.replicate padding Varint.zero)) =
          .error .assertFailed) := by
  cases suf with
  | nil =>
    refine ⟨fun _ => ?_, by simp⟩
    cases padding with
    | zero =>
      rw [List.replicate_zero, List.append_nil]
      exact funcStartForOffsets_last hdec hle
    | succ n =>
      have hone : Varint.zero.bytes.length ≤ (Varint.concat (pre ++ [v])).length := by
        have := v.length_bytes_pos
        simp
        omega
      have h := funcStartForOffsets_between hdec Varint.zero (List.replicate n Varint.zero)
        hle hlt h64
      rw [if_pos hone] at h
      rw [List.replicate_succ, List.append_assoc, List.cons_append, List.nil_append]
      exact h
  | cons cur rest =>
    have h := funcStartForOffsets_between hdec cur (rest ++ List.replicate padding Varint.zero)
      hle hlt h64
    rw [List.append_assoc, List.cons_append, List.cons_append]
    constructor
    · intro hback
      rw [h, if_pos (hback cur rest rfl)]
    · rintro ⟨cur', rest', heq, hback⟩
      obtain ⟨rfl, rfl⟩ := List.cons.inj heq
      rw [h, if_neg hback]

/-- An offset below one of the deltas. -/
theorem finds_iff_between (hdec : decode.Decodes) {t off : UInt64} {pre suf : List Varint}
    {v : Varint} (padding : ℕ) (hsum : t.toNat + total (pre ++ v :: suf) < 2 ^ 64)
    (hle : t.toNat + total pre ≤ off.toNat)
    (hlt : off.toNat < t.toNat + total pre + v.value.toNat) :
    FindsStart t.toNat off.toNat (pre ++ v :: suf) (funcStartForOffsets decode off
        (offsets t (pre ++ v :: suf ++ List.replicate padding Varint.zero))) ↔
      Findable t.toNat off.toNat (pre ++ v :: suf) padding := by
  rw [total_split] at hsum
  have hf : (sumFrom t pre).toNat = t.toNat + total pre := toNat_sumFrom (by omega)
  obtain ⟨hok, herr⟩ := funcStartForOffsets_padded hdec suf padding hle hlt (by omega)
  rw [findable_between hle hlt padding]
  by_cases hback : ∀ cur rest, suf = cur :: rest →
      cur.bytes.length ≤ (Varint.concat (pre ++ [v])).length
  · rw [hok hback, findsStart_between hf hle hlt]
    exact (and_iff_left hback).symm
  · have hlong : ∃ cur rest, suf = cur :: rest ∧
        ¬cur.bytes.length ≤ (Varint.concat (pre ++ [v])).length := by
      simpa only [not_forall, exists_prop] using hback
    rw [herr hlong]
    refine iff_of_false ?_ fun h => hback h.2
    rintro ⟨f, hf, -⟩
    cases hf

/-- The lookup of an offset from the last start on. The last element of the view leaves the last
delta out, so that the last start is found only where padding follows it. -/
theorem funcStartForOffsets_padded_last (hdec : decode.Decodes) {t off : UInt64}
    {pre : List Varint} {v : Varint} (padding : ℕ) (hsum : t.toNat + total (pre ++ [v]) < 2 ^ 64)
    (hle : t.toNat + total (pre ++ [v]) ≤ off.toNat) :
    ∃ f, funcStartForOffsets decode off
        (offsets t (pre ++ [v] ++ List.replicate padding Varint.zero)) = .ok f ∧
      f.toNat = t.toNat + if padding = 0 then total pre else total (pre ++ [v]) := by
  have hlen : total (pre ++ [v]) = total pre + v.value.toNat := total_split
  cases padding with
  | zero =>
    rw [List.replicate_zero, List.append_nil, funcStartForOffsets_last hdec (by omega)]
    exact ⟨_, rfl, toNat_sumFrom (by omega)⟩
  | succ n =>
    have hzeros : total (pre ++ [v] ++ List.replicate n Varint.zero) = total (pre ++ [v]) := by
      rw [total_append, total_zeros, Nat.add_zero]
    rw [List.replicate_succ', ← List.append_assoc,
      funcStartForOffsets_last hdec (by rw [hzeros]; omega)]
    refine ⟨_, rfl, ?_⟩
    rw [toNat_sumFrom (by rw [hzeros]; exact hsum), hzeros]
    rfl

/-- An offset from the last start on. -/
theorem finds_iff_above (hdec : decode.Decodes) {t off : UInt64} {pre : List Varint} {v : Varint}
    (hv : 0 < v.value.toNat) (padding : ℕ) (hsum : t.toNat + total (pre ++ [v]) < 2 ^ 64)
    (hle : t.toNat + total (pre ++ [v]) ≤ off.toNat) :
    FindsStart t.toNat off.toNat (pre ++ [v]) (funcStartForOffsets decode off
        (offsets t (pre ++ [v] ++ List.replicate padding Varint.zero))) ↔
      Findable t.toNat off.toNat (pre ++ [v]) padding := by
  have hne : pre ++ [v] ≠ [] := by simp
  have hlast := total_mem_starts t.toNat hne
  have hlen : total (pre ++ [v]) = total pre + v.value.toNat := total_split
  obtain ⟨f, hrun, hf⟩ := funcStartForOffsets_padded_last hdec padding hsum hle
  rw [hrun]
  by_cases hpad : padding = 0
  · rw [if_pos hpad] at hf
    refine iff_of_false ?_ fun h => ?_
    · rintro ⟨f', hf', hgreatest | ⟨-, habove⟩⟩
      · have hmax := hgreatest.2 ⟨hlast, hle⟩
        rw [← Except.ok.inj hf', hf] at hmax
        omega
      · exact absurd (habove _ hlast) (by omega)
    · rcases h.last with hzero | hlt
      · exact hzero hpad
      · omega
  · rw [if_neg hpad] at hf
    refine iff_of_true (findsStart_above hne hf hle) ⟨?_, .inl hpad, ?_⟩
    · exact .inr (.inr ⟨_, hlast, hle⟩)
    · intro pre' v' cur suf heq _ hlt
      rw [heq, total_split] at hle
      omega

theorem findsStart_iff (hdec : decode.Decodes) (hne : deltas ≠ [])
    (hpos : ∀ v ∈ deltas, 0 < v.value.toNat) (padding : ℕ) (textSeg : SegmentCommand)
    (hsum : textSeg.fileoff.toNat + total deltas < 2 ^ 64) (fileoff : UInt64) :
    FindsStart textSeg.fileoff.toNat fileoff.toNat deltas
        (funcStartForFileOffset decode fileoff (payload deltas padding) textSeg) ↔
      Findable textSeg.fileoff.toNat fileoff.toNat deltas padding := by
  rw [payload_eq_concat, funcStartForFileOffset_concat hdec (by simp [hne])]
  generalize textSeg.fileoff = t at *
  by_cases hoff : fileoff < t
  · rw [funcStartForOffsets_before hoff]
    rw [UInt64.lt_iff_toNat_lt] at hoff
    exact iff_of_true (findsStart_before hoff) (findable_before hoff padding)
  have hle : t.toNat ≤ fileoff.toNat := by
    rw [← UInt64.le_iff_toNat_le]
    exact UInt64.not_lt.mp hoff
  obtain ⟨pre, v, suf, rfl, hpre, hlt | ⟨rfl, hlast⟩⟩ := exists_split hne hle
  · exact finds_iff_between hdec padding hsum hpre hlt
  · apply finds_iff_above hdec (hpos v (by simp)) padding hsum
    rw [total_split, total_nil]
    omega

/-- Two functions, at 4 and at 12, and a padding byte. -/
def twoDeltas : List Varint := [Varint.single 4 rfl, Varint.single 8 rfl]

theorem findsStart_twoDeltas : FindsStart 0 12 twoDeltas
    (funcStartForFileOffset Varint.read 12 (payload twoDeltas 1) ⟨0x100000000, 0⟩) := by
  refine (findsStart_iff DecodeUleb128.decodes_read (by decide) (by decide) 1 ⟨0x100000000, 0⟩
    (by decide) 12).mpr ⟨.inl rfl, .inl (by decide), ?_⟩
  intro pre v cur suf heq _ hlt
  have htotal := congrArg total heq
  simp only [total_append, total_cons] at htotal
  have : total twoDeltas = 12 := by decide
  change 12 < 0 + total pre + v.value.toNat at hlt
  omega

theorem not_findsStart_lastFunction :
    funcStartForFileOffset Varint.read 12 (payload twoDeltas 0) ⟨0x100000000, 0⟩ = .ok 4 ∧
      ¬FindsStart 0 12 twoDeltas
        (funcStartForFileOffset Varint.read 12 (payload twoDeltas 0) ⟨0x100000000, 0⟩) := by
  have hret : funcStartForFileOffset Varint.read 12 (payload twoDeltas 0) ⟨0x100000000, 0⟩ =
      .ok 4 := by decide
  refine ⟨hret, ?_⟩
  rw [hret]
  rintro ⟨f, hf, hgreatest | ⟨hzero, -⟩⟩
  · have hmem : 12 ∈ {s | s ∈ starts 0 twoDeltas ∧ s ≤ 12} := by
      constructor <;> decide
    have hmax := hgreatest.2 hmem
    rw [← Except.ok.inj hf] at hmax
    exact absurd hmax (by decide)
  · rw [hzero] at hf
    exact absurd hf (by decide)

/-! ### What the lookup makes of any list -/

/-- The distances from the base that the search compares with: the base itself and the starts,
without the last one where nothing follows its delta. -/
def searchStarts (deltas : List Varint) (padding : ℕ) : List ℕ :=
  if padding = 0 then (0 :: starts 0 deltas).dropLast else 0 :: starts 0 deltas

/-- The delta that leads above an offset is encoded in no more bytes than stand before it. -/
def StepsBack (off : ℕ) (deltas : List Varint) : Prop :=
  ∀ pre v cur suf, deltas = pre ++ v :: cur :: suf → total pre ≤ off →
    off < total pre + v.value.toNat → cur.bytes.length ≤ (Varint.concat (pre ++ [v])).length

section searchStarts
variable {pre suf : List Varint} {v : Varint} {padding off : ℕ}

theorem starts_ne_nil (t : ℕ) (v : Varint) (vs : List Varint) : starts t (v :: vs) ≠ [] := by
  simp [starts]

theorem searchStarts_split (pre : List Varint) (v : Varint) (suf : List Varint) (padding : ℕ) :
    searchStarts (pre ++ v :: suf) padding = (0 :: starts 0 pre) ++
      if padding = 0 then (starts (total pre) (v :: suf)).dropLast
      else starts (total pre) (v :: suf) := by
  have h : 0 :: starts 0 (pre ++ v :: suf) =
      (0 :: starts 0 pre) ++ starts (total pre) (v :: suf) := by
    rw [starts_append, Nat.zero_add, List.cons_append]
  unfold searchStarts
  rw [h, List.dropLast_append_of_ne_nil (starts_ne_nil _ _ _)]
  split_ifs <;> rfl

theorem total_mem_searchStarts (pre : List Varint) : total pre ∈ 0 :: starts 0 pre := by
  by_cases hpre : pre = []
  · rw [hpre]
    exact List.mem_cons_self
  · have h := total_mem_starts 0 hpre
    rw [Nat.zero_add] at h
    exact List.mem_cons_of_mem _ h

theorem le_total_of_mem {x : ℕ} (h : x ∈ 0 :: starts 0 pre) : x ≤ total pre := by
  rcases List.mem_cons.mp h with rfl | h
  · exact Nat.zero_le _
  · have := (le_of_mem_starts h).2
    omega

theorem isGreatest_searchStarts_between (hle : total pre ≤ off)
    (hlt : off < total pre + v.value.toNat) :
    IsGreatest {x | x ∈ searchStarts (pre ++ v :: suf) padding ∧ x ≤ off} (total pre) := by
  rw [searchStarts_split]
  refine ⟨⟨List.mem_append_left _ (total_mem_searchStarts pre), hle⟩, ?_⟩
  rintro x ⟨hx, hxle⟩
  rcases List.mem_append.mp hx with hx | hx
  · exact le_total_of_mem hx
  · have hmem : x ∈ starts (total pre) (v :: suf) := by
      split_ifs at hx
      · exact List.mem_of_mem_dropLast hx
      · exact hx
    have := lt_of_mem_starts_cons hmem
    omega

theorem isGreatest_searchStarts_last (padding : ℕ) (hle : total (pre ++ [v]) ≤ off) :
    IsGreatest {x | x ∈ searchStarts (pre ++ [v]) padding ∧ x ≤ off}
      (if padding = 0 then total pre else total (pre ++ [v])) := by
  rw [searchStarts_split]
  have htotal : total (pre ++ [v]) = total pre + v.value.toNat := total_split
  split_ifs with hpad
  · have hnil : (starts (total pre) [v]).dropLast = [] := rfl
    rw [hnil, List.append_nil]
    exact ⟨⟨total_mem_searchStarts pre, by omega⟩, fun x hx => le_total_of_mem hx.1⟩
  · refine ⟨⟨List.mem_append_right _ ?_, hle⟩, ?_⟩
    · rw [htotal]
      exact List.mem_cons_self
    · rintro x ⟨hx, -⟩
      rcases List.mem_append.mp hx with hx | hx
      · exact (le_total_of_mem hx).trans (by omega)
      · have := (le_of_mem_starts hx).2
        rw [total_cons, total_nil] at this
        omega

theorem stepsBack_between (hle : total pre ≤ off) (hlt : off < total pre + v.value.toNat) :
    StepsBack off (pre ++ v :: suf) ↔ ∀ cur rest, suf = cur :: rest →
      cur.bytes.length ≤ (Varint.concat (pre ++ [v])).length := by
  constructor
  · rintro h cur rest rfl
    exact h pre v cur rest rfl hle hlt
  · intro h pre' v' cur suf' heq hle' hlt'
    obtain ⟨rfl, rfl, rfl⟩ := split_unique heq hle hlt hle' hlt'
    exact h cur suf' rfl

theorem stepsBack_last (hle : total (pre ++ [v]) ≤ off) : StepsBack off (pre ++ [v]) := by
  intro pre' v' cur suf heq _ hlt
  rw [heq, total_split] at hle
  omega

end searchStarts

/-- Without deltas the padding is one list of zeros, and nothing at all is no list. -/
theorem funcStartForFileOffset_noDeltas (hdec : decode.Decodes) (padding : ℕ)
    {textSeg : SegmentCommand} {fileoff : UInt64} (hle : textSeg.fileoff.toNat ≤ fileoff.toNat) :
    funcStartForFileOffset decode fileoff (payload [] padding) textSeg =
      if padding = 0 then .error .assertFailed else .ok textSeg.fileoff := by
  rw [payload_eq_concat, List.nil_append]
  cases padding with
  | zero =>
    rw [List.replicate_zero, Varint.concat_nil, funcStartForFileOffset, fileOffsets, rawOffsets,
      LEB128Iterator.ofBuf_nil hdec.empty]
    rfl
  | succ n =>
    have hlt := textSeg.fileoff.toNat_lt
    rw [funcStartForFileOffset_concat hdec (by simp), List.replicate_succ',
      funcStartForOffsets_last hdec (by rw [total_zeros]; exact hle)]
    refine congrArg Except.ok (UInt64.toNat_inj.mp ?_)
    rw [toNat_sumFrom (by rw [total_zeros]; exact hlt), total_zeros, Nat.add_zero]

/-- The lookup of an offset from the base on: it finds the greatest distance the search compares
with, or fails when there is nothing to compare with or the step back is too long. -/
theorem funcStartForFileOffset_cases (hdec : decode.Decodes) (padding : ℕ)
    (textSeg : SegmentCommand) (hsum : textSeg.fileoff.toNat + total deltas < 2 ^ 64)
    {fileoff : UInt64} {off : ℕ} (hoff : fileoff.toNat = textSeg.fileoff.toNat + off) :
    (StepsBack off deltas ∧ ∃ f b, funcStartForFileOffset decode fileoff (payload deltas padding)
        textSeg = .ok f ∧ f.toNat = textSeg.fileoff.toNat + b ∧
        IsGreatest {x | x ∈ searchStarts deltas padding ∧ x ≤ off} b) ∨
      (¬StepsBack off deltas ∨ searchStarts deltas padding = []) ∧ ∃ e,
        funcStartForFileOffset decode fileoff (payload deltas padding) textSeg = .error e := by
  by_cases hne : deltas = []
  · subst hne
    rw [funcStartForFileOffset_noDeltas hdec padding (by omega)]
    by_cases hpad : padding = 0
    · rw [if_pos hpad]
      exact .inr ⟨.inr (if_pos hpad), .assertFailed, rfl⟩
    · have hstarts : searchStarts [] padding = [0] := if_neg hpad
      rw [if_neg hpad, hstarts]
      refine .inl ⟨fun pre v cur suf heq => by simp at heq, _, 0, rfl, rfl,
        ⟨List.mem_singleton_self 0, Nat.zero_le _⟩, fun x hx => ?_⟩
      exact (List.mem_singleton.mp hx.1).le
  · rw [payload_eq_concat]
    obtain ⟨pre, v, suf, rfl, hpre, hor⟩ := exists_split hne (Nat.zero_le off)
    rw [Nat.zero_add] at hpre hor
    rw [funcStartForFileOffset_concat hdec (by simp)]
    rcases hor with hlt | ⟨rfl, hlast⟩
    · have hlt' : fileoff.toNat < textSeg.fileoff.toNat + total pre + v.value.toNat := by omega
      have hle' : textSeg.fileoff.toNat + total pre ≤ fileoff.toNat := by omega
      rw [total_split] at hsum
      obtain ⟨hok, herr⟩ := funcStartForOffsets_padded hdec suf padding hle' hlt' (by omega)
      rw [stepsBack_between hpre hlt]
      by_cases hback : ∀ cur rest, suf = cur :: rest →
          cur.bytes.length ≤ (Varint.concat (pre ++ [v])).length
      · refine .inl ⟨hback, sumFrom textSeg.fileoff pre, total pre, hok hback,
          toNat_sumFrom (by omega), isGreatest_searchStarts_between hpre hlt⟩
      · refine .inr ⟨.inl hback, .assertFailed, herr ?_⟩
        simpa only [not_forall, exists_prop] using hback
    · have htotal : total (pre ++ [v]) = total pre + v.value.toNat := total_split
      have hle : total (pre ++ [v]) ≤ off := by omega
      have hgreatest := isGreatest_searchStarts_last padding hle
      have hle' : textSeg.fileoff.toNat + total (pre ++ [v]) ≤ fileoff.toNat := by omega
      obtain ⟨f, hrun, hf⟩ := funcStartForOffsets_padded_last hdec padding hsum hle'
      exact .inl ⟨stepsBack_last hle, f, _, hrun, hf, hgreatest⟩

/-! ### The two address spaces -/

/-- Every element of the memory view is the one of the file view plus the delta, and a start that
is found in the file is found in memory too. -/
structure Agree (decode : DecodeUleb128) (deltas : List Varint) (textSeg : SegmentCommand) :
    Prop where
  elements : (vmAddrs decode (Varint.concat deltas) textSeg >>= elements decode) =
    (List.map (· + textSeg.vmaddrFileoffDelta)) <$>
      (fileOffsets decode (Varint.concat deltas) textSeg >>= elements decode)
  lookup : ∀ a f : UInt64,
    textSeg.vmaddrFileoffDelta.toNat + textSeg.fileoff.toNat + total deltas < 2 ^ 64 →
    textSeg.vmaddrFileoffDelta ≤ a → f ≠ 0 →
    funcStartForFileOffset decode (a - textSeg.vmaddrFileoffDelta) (Varint.concat deltas) textSeg =
      .ok f →
    funcStartForVmAddr decode a (Varint.concat deltas) textSeg =
      .ok (f + textSeg.vmaddrFileoffDelta)

theorem sumFrom_shift (d : UInt64) (vs : List Varint) : sumFrom d vs = sumFrom 0 vs + d := by
  have h := foldl_add_shift 0 d (values vs)
  rwa [UInt64.zero_add] at h

/-- A search from base `d` takes the same steps as one from base 0, `d` further on. -/
theorem funcStartForOffsets_shift (hdec : decode.Decodes) {d a f : UInt64} (hne : deltas ≠ [])
    (h64 : d.toNat + total deltas < 2 ^ 64) (hd : d ≤ a)
    (hfile : funcStartForOffsets decode (a - d) (offsets 0 deltas) = .ok f) :
    funcStartForOffsets decode a (offsets d deltas) = .ok (f + d) := by
  have hoff : d.toNat + (a - d).toNat = a.toNat := by
    rw [UInt64.toNat_sub_of_le _ _ hd, Nat.add_sub_cancel']
    exact UInt64.le_iff_toNat_le.mp hd
  have hzero : (0 : UInt64).toNat = 0 := rfl
  obtain ⟨pre, v, suf, rfl, hle, hor⟩ := exists_split (t := 0) hne (Nat.zero_le (a - d).toNat)
  rw [total_split] at h64
  cases suf with
  | nil =>
    rw [funcStartForOffsets_last hdec (by omega)] at hfile ⊢
    rw [sumFrom_shift, Except.ok.inj hfile]
  | cons cur suf =>
    have hlt : (a - d).toNat < 0 + total pre + v.value.toNat := by
      rcases hor with hlt | ⟨hnil, -⟩
      · exact hlt
      · cases hnil
    rw [funcStartForOffsets_between hdec cur suf (by omega) (by omega) (by omega)] at hfile ⊢
    split_ifs at hfile ⊢ with hback
    rw [sumFrom_shift, Except.ok.inj hfile]

theorem agree_iff (hdec : decode.Decodes) (deltas : List Varint) (textSeg : SegmentCommand) :
    Agree decode deltas textSeg ↔ textSeg.fileoff = 0 ∨ deltas = [] := by
  by_cases hne : deltas = []
  · -- neither view has a first element to read
    subst hne
    refine iff_of_true ⟨?_, fun a f _ _ _ h => ?_⟩ (.inr rfl)
    · rw [Varint.concat_nil, vmAddrs, fileOffsets, rawOffsets, LEB128Iterator.ofBuf_nil hdec.empty]
      rfl
    · rw [Varint.concat_nil, funcStartForFileOffset, fileOffsets, rawOffsets,
        LEB128Iterator.ofBuf_nil hdec.empty] at h
      simp at h
  have hvm := vmAddrs_concat hdec hne textSeg
  have hfile := fileOffsets_concat hdec hne textSeg
  rw [or_iff_left hne]
  constructor
  · intro h
    have helems := h.elements
    rw [hvm, hfile, ok_bind, ok_bind, elements_offsets hdec, elements_offsets hdec,
      map_ok] at helems
    obtain ⟨v, vs, rfl⟩ := List.exists_cons_of_ne_nil hne
    have hhead := (List.cons.inj (Except.ok.inj helems)).1
    exact UInt64.add_eq_right.mp hhead.symm
  · intro h0
    refine ⟨?_, fun a f h64 hle _ hret => ?_⟩
    · rw [hvm, hfile, ok_bind, ok_bind, elements_offsets hdec, elements_offsets hdec, map_ok, h0,
        ← partialSums_shift, UInt64.zero_add]
    · rw [funcStartForFileOffset, hfile, h0] at hret
      unfold funcStartForVmAddr
      rw [hvm]
      exact funcStartForOffsets_shift hdec hne (by omega) hle hret

theorem agree_twoDeltas : Agree Varint.read twoDeltas ⟨0x100000000, 0⟩ :=
  (agree_iff DecodeUleb128.decodes_read twoDeltas ⟨0x100000000, 0⟩).mpr (.inl rfl)

/-- A text segment at file offset 0x200 that is mapped at 0x1000. -/
theorem not_agree_filesetEntry :
    (vmAddrs Varint.read (Varint.concat twoDeltas) ⟨0x1000, 0x200⟩ >>= elements Varint.read) =
        .ok [0xe00, 0xe04] ∧
      (fileOffsets Varint.read (Varint.concat twoDeltas) ⟨0x1000, 0x200⟩ >>=
        elements Varint.read) = .ok [0x200, 0x204] ∧
      ¬Agree Varint.read twoDeltas ⟨0x1000, 0x200⟩ :=
  ⟨by decide, by decide, fun h => absurd h.elements (by decide)⟩

end FunctionStarts
end JevMachO

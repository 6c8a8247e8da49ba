import CampNode.Core.Route
import CampNode.Dump.Writer

/-!
# CampNode.Dump.Dataset — one pass over the missing ranges of a dataset

`dump_impl` asks each table of a dataset for its missing ranges, merges them, deals them
out to partitions and scans each range of each partition. While a range is scanned every
table has a writer for the part of its own missing ranges that lies in the range.

The tables do not depend on each other, so that a scan does for each table what its rows
do (`foldlM_routeStep`). `Covered` says what the files of a table hold during a scan and
`Dumped` what they hold after the scan of some ranges; both are assembled block by block
and range by range. After a pass nothing is missing (`dump_completes`), provided that the
last block number is not in the desired range: there `merge_ranges` keeps overlapping
ranges apart, and blocks are written twice (`last_block_dumped_twice`).
-/

namespace CampNode

open List RawTableWriter

variable {τ β : Type}

/-! ## The rows of one table -/

/-- The files hold the blocks of the ranges before block `n`. -/
structure Covered (p : Provider τ β) (t : τ) (ranges : List RangeInclusive) (n : Nat)
    (files : List (ParquetFile β)) : Prop where
  written : ∀ f ∈ files, p.Written t f
  below : (files.map (·.range.numbers)).Pairwise RangeInclusive.Below
  holds : ∀ b, Holds (files.map (·.range.numbers)) b ↔ b < n ∧ Holds ranges b

section

variable {p : Provider τ β} {t : τ} {ranges : List RangeInclusive} {n : Nat}
  {files : List (ParquetFile β)}

theorem Covered.stop_lt (h : Covered p t ranges n files) {f : ParquetFile β} (hf : f ∈ files) :
    f.range.stop < n := by
  have hholds : Holds (files.map (·.range.numbers)) f.range.stop :=
    ⟨f.range.numbers, mem_map.mpr ⟨f, hf, rfl⟩, (h.written f hf).valid, Nat.le_refl _⟩
  exact ((h.holds _).mp hholds).1

theorem Covered.skip (h : Covered p t ranges n files) (hn : ¬ Holds ranges n) :
    Covered p t ranges (n + 1) files := by
  refine ⟨h.written, h.below, ?_⟩
  intro b
  rw [h.holds b]
  constructor
  · rintro ⟨hb, hr⟩
    exact ⟨Nat.lt_succ_of_lt hb, hr⟩
  · rintro ⟨hb, hr⟩
    rcases Nat.lt_succ_iff_lt_or_eq.mp hb with hb | rfl
    · exact ⟨hb, hr⟩
    · exact absurd hr hn

theorem Covered.begin (h : Covered p t ranges n files) (hn : Holds ranges n) :
    Covered p t ranges (n + 1) (files ++ [p.blockFile t n]) := by
  refine ⟨?_, ?_, ?_⟩
  · intro f hf
    rcases mem_append.mp hf with hf | hf
    · exact h.written f hf
    · rw [mem_singleton.mp hf]
      exact p.written_blockFile t n
  · rw [map_append, pairwise_append]
    refine ⟨h.below, pairwise_singleton _ _, ?_⟩
    intro a ha b hb
    rcases mem_map.mp ha with ⟨f, hf, rfl⟩
    rw [map_singleton, mem_singleton] at hb
    rw [hb]
    exact h.stop_lt hf
  · intro b
    rw [map_append, holds_append, h.holds b, map_singleton, holds_cons]
    have hblock : (p.blockFile t n).range.numbers.Contains b ↔ b = n := by
      show n ≤ b ∧ b ≤ n ↔ b = n
      omega
    rw [hblock]
    constructor
    · rintro (⟨hb, hr⟩ | rfl | hr)
      · exact ⟨Nat.lt_succ_of_lt hb, hr⟩
      · exact ⟨Nat.lt_succ_self b, hn⟩
      · exact absurd hr holds_nil
    · rintro ⟨hb, hr⟩
      rcases Nat.lt_succ_iff_lt_or_eq.mp hb with hb | rfl
      · exact .inl ⟨hb, hr⟩
      · exact .inr (.inl rfl)

theorem Covered.extend {f : ParquetFile β} (h : Covered p t ranges n (files ++ [f]))
    (hstop : f.range.stop + 1 = n) (hn : Holds ranges n) :
    Covered p t ranges (n + 1) (files ++ [p.extendFile t n f]) := by
  have hf := h.written f (mem_append_right _ (mem_singleton_self f))
  have hbelow := h.below
  rw [map_append, pairwise_append] at hbelow
  refine ⟨?_, ?_, ?_⟩
  · intro g hg
    rcases mem_append.mp hg with hg | hg
    · exact h.written g (mem_append_left _ hg)
    · rw [mem_singleton.mp hg]
      exact hf.extend hstop
  · -- the file starts where it started before
    rw [map_append, pairwise_append]
    refine ⟨hbelow.1, pairwise_singleton _ _, ?_⟩
    intro a ha b hb
    rw [map_singleton, mem_singleton] at hb
    rw [hb]
    exact hbelow.2.2 a ha f.range.numbers (mem_singleton_self _)
  · intro b
    have hold := h.holds b
    rw [map_append, holds_append, map_singleton, holds_cons] at hold ⊢
    have hvalid : f.range.start ≤ f.range.stop := hf.valid
    have hcontains : (p.extendFile t n f).range.numbers.Contains b ↔
        f.range.numbers.Contains b ∨ b = n := by
      show f.range.start ≤ b ∧ b ≤ n ↔ (f.range.start ≤ b ∧ b ≤ f.range.stop) ∨ b = n
      omega
    rw [hcontains]
    constructor
    · rintro (hb | (hb | rfl) | hb)
      · exact (hold.mp (.inl hb)).imp_left Nat.lt_succ_of_lt
      · exact (hold.mp (.inr (.inl hb))).imp_left Nat.lt_succ_of_lt
      · exact ⟨Nat.lt_succ_self b, hn⟩
      · exact absurd hb holds_nil
    · rintro ⟨hb, hr⟩
      rcases Nat.lt_succ_iff_lt_or_eq.mp hb with hb | rfl
      · rcases hold.mpr ⟨hb, hr⟩ with hb | hb | hb
        · exact .inl hb
        · exact .inr (.inl (.inl hb))
        · exact absurd hb holds_nil
      · exact .inr (.inl (.inr rfl))

theorem Took.covered {files' : List (ParquetFile β)}
    (h : Took p t n (decide (Holds ranges n)) files files') (hc : Covered p t ranges n files) :
    Covered p t ranges (n + 1) files' := by
  by_cases hn : Holds ranges n
  · rw [decide_eq_true hn] at h
    cases h with
    | begin => exact hc.begin hn
    | extend hstop => exact hc.extend hstop hn
  · rw [decide_eq_false hn] at h
    cases h with
    | skip => exact hc.skip hn

end

/-- The part of a dump that belongs to one table: its writer and the files registered for
it. -/
structure TableDump (τ β : Type) where
  writer : Option (RawTableWriter τ β)
  files : List (ParquetFile β)

namespace TableDump

/-- The state before a scan. -/
def initial : TableDump τ β := ⟨none, []⟩

def write [DecidableEq τ] (opts : WriterProperties β) (s : TableDump τ β)
    (rows : RawTableRows τ β) : Option (TableDump τ β) := do
  let w ← s.writer
  let (out, w) ← w.write opts rows
  some ⟨some w, s.files ++ out.toList⟩

/-- The writer is consumed. -/
def close (s : TableDump τ β) : Option (TableDump τ β) := do
  let w ← s.writer
  let out ← w.close
  some ⟨none, s.files ++ out.toList⟩

end TableDump

/-- A table during a scan, before block `n`. -/
structure Dumping (p : Provider τ β) (t : τ) (ranges : List RangeInclusive) (n : Nat)
    (s : TableDump τ β) (w : RawTableWriter τ β) : Prop where
  writer : s.writer = some w
  ready : Ready p t n w
  ahead : ∀ b, n ≤ b → (Holds w.rangesToWrite b ↔ Holds ranges b)
  covered : Covered p t ranges n (s.files ++ w.pending)

section

variable [DecidableEq τ] {p : Provider τ β} {t : τ} {ranges : List RangeInclusive}
  {opts : WriterProperties β}

/-- One block. -/
theorem Dumping.write {n : Nat} {s : TableDump τ β} {w : RawTableWriter τ β}
    (h : Dumping p t ranges n s w) (hempty : opts.bytesWritten [] < opts.partitionBytes)
    (hu64 : n < 2 ^ 64) :
    ∃ s' w', s.write opts (p.tableRows t n) = some s' ∧ Dumping p t ranges (n + 1) s' w' := by
  rcases write_spec h.ready hempty hu64 with ⟨out, w', hw', hwrote⟩
  have htook := hwrote.took.append s.files
  rw [decide_eq_decide.mpr (h.ahead n (Nat.le_refl n)), ← append_assoc] at htook
  refine ⟨⟨some w', s.files ++ out.toList⟩, w', ?_, rfl, hwrote.ready, ?_, htook.covered h.covered⟩
  · rw [TableDump.write, h.writer]
    show (w.write opts (p.tableRows t n)).bind _ = _
    rw [hw']
    rfl
  · intro b hb
    exact (hwrote.ahead b hb).trans (h.ahead b (Nat.le_of_succ_le hb))

/-- A run of blocks. -/
theorem Dumping.writeAll {n count : Nat} {s : TableDump τ β} {w : RawTableWriter τ β}
    (h : Dumping p t ranges n s w) (hempty : opts.bytesWritten [] < opts.partitionBytes)
    (hu64 : n + count ≤ 2 ^ 64) :
    ∃ s' w', ((range' n count).map (p.tableRows t)).foldlM (TableDump.write opts) s =
      some s' ∧ Dumping p t ranges (n + count) s' w' := by
  induction count generalizing n s w with
  | zero => exact ⟨s, w, rfl, h⟩
  | succ count ih =>
    rcases h.write hempty (by omega) with ⟨s₁, w₁, hs₁, h₁⟩
    rcases ih h₁ (by omega) with ⟨s', w', hs', h'⟩
    refine ⟨s', w', ?_, ?_⟩
    · rw [range'_succ, map_cons, foldlM_cons, hs₁]
      exact hs'
    · rw [Nat.add_right_comm, Nat.add_assoc] at h'
      exact h'

omit [DecidableEq τ] in
/-- The end of a scan. -/
theorem Dumping.close {n : Nat} {s : TableDump τ β} {w : RawTableWriter τ β}
    (h : Dumping p t ranges n s w) (hend : ∀ r ∈ ranges, r.stop < n) :
    ∃ files, s.close = some ⟨none, files⟩ ∧ Covered p t ranges n files := by
  have hlast : ∀ r ∈ w.rangesToWrite, r.stop < n := by
    intro r hr
    by_contra hn
    have hholds : Holds w.rangesToWrite r.stop := ⟨r, hr, h.ready.valid r hr, Nat.le_refl _⟩
    rcases (h.ahead r.stop (Nat.le_of_not_lt hn)).mp hholds with ⟨q, hq, -, hle⟩
    have := hend q hq
    omega
  rcases close_spec h.ready hlast with ⟨out, hout, hpending⟩
  refine ⟨s.files ++ out.toList, ?_, ?_⟩
  · rw [TableDump.close, h.writer]
    show (w.close).bind _ = _
    rw [hout]
    rfl
  · rw [hpending]
    exact h.covered

end

/-! ## A scan -/

/-- The parts of the ranges inside `range`. -/
def clipRanges (ranges : List RangeInclusive) (range : RangeInclusive) : List RangeInclusive :=
  ranges.filterMap fun missing => blockRangeIntersection missing range

/-- The rows of the blocks of a range in the order in which they are delivered. -/
def Provider.blockStream (p : Provider τ β) (range : RangeInclusive) : List (RawTableRows τ β) :=
  (List.range' range.start (range.stop + 1 - range.start)).flatMap fun n =>
    (p.order n).map fun t => p.tableRows t n

/-- The state of all tables. -/
abbrev RawDatasetWriter (τ β : Type) := τ → TableDump τ β

section

variable [DecidableEq τ]

namespace RawDatasetWriter

/-- A writer for every table. -/
def new (tables : List τ) (missing : τ → List RangeInclusive) : Option (RawDatasetWriter τ β) :=
  tables.foldlM (routeStep id fun s t =>
    (RawTableWriter.new t (missing t)).map fun w => { s with writer := some w }) fun _ => .initial

def write (opts : WriterProperties β) :
    RawDatasetWriter τ β → RawTableRows τ β → Option (RawDatasetWriter τ β) :=
  routeStep RawTableRows.table (TableDump.write opts)

def close (tables : List τ) (s : RawDatasetWriter τ β) : Option (RawDatasetWriter τ β) :=
  tables.foldlM (routeStep id fun s _ => s.close) s

end RawDatasetWriter

variable {σ : SegmentSort} {p : Provider τ β} {t : τ} {opts : WriterProperties β} {tables : List τ}
  {segments : τ → List Segment} {desired : RangeInclusive} {maxWriters : Nat}
  {missing : τ → List RangeInclusive}

variable (p opts tables missing) in
/-- Scan a range; the result is the files that were registered for each table. -/
def runRange (range : RangeInclusive) : Option (τ → List (ParquetFile β)) := do
  let s ← RawDatasetWriter.new tables fun t => clipRanges (missing t) range
  let s ← (p.blockStream range).foldlM (RawDatasetWriter.write opts) s
  let s ← RawDatasetWriter.close tables s
  some fun t => (s t).files

theorem clipRanges_spec {ranges : List RangeInclusive} {range : RangeInclusive}
    (hpair : ranges.Pairwise RangeInclusive.Below) :
    (∀ r ∈ clipRanges ranges range, r.Valid ∧ range.start ≤ r.start ∧ r.stop ≤ range.stop) ∧
      (clipRanges ranges range).Pairwise RangeInclusive.Below ∧
      ∀ b, Holds (clipRanges ranges range) b ↔ Holds ranges b ∧ range.Contains b := by
  refine ⟨?_, ?_, ?_⟩
  · intro r hr
    rcases mem_filterMap.mp hr with ⟨m, -, hm⟩
    rcases blockRangeIntersection_some hm with ⟨hrvalid, hcontains⟩
    have hinside := hrvalid.inside fun b hb => ((hcontains b).mp hb).2
    exact ⟨hrvalid, hinside.1.1, hinside.2.2⟩
  · refine List.Pairwise.filterMap _ ?_ hpair
    intro a a' haa' b hb b' hb'
    rcases blockRangeIntersection_some hb with ⟨hbvalid, hbcontains⟩
    rcases blockRangeIntersection_some hb' with ⟨hbvalid', hbcontains'⟩
    have hstop := ((hbcontains b.stop).mp ⟨hbvalid, Nat.le_refl _⟩).1.2
    have hstart := ((hbcontains' b'.start).mp ⟨Nat.le_refl _, hbvalid'⟩).1.1
    exact Nat.lt_of_le_of_lt hstop (Nat.lt_of_lt_of_le haa' hstart)
  · intro b
    constructor
    · rintro ⟨r, hr, hrb⟩
      rcases mem_filterMap.mp hr with ⟨m, hmem, hm⟩
      rcases ((blockRangeIntersection_some hm).2 b).mp hrb with ⟨hmb, hb⟩
      exact ⟨⟨m, hmem, hmb⟩, hb⟩
    · rintro ⟨⟨m, hmem, hmb⟩, hb⟩
      cases hm : blockRangeIntersection m range with
      | none => exact absurd hb (blockRangeIntersection_none hm b hmb)
      | some r =>
        exact ⟨r, mem_filterMap.mpr ⟨m, hmem, hm⟩,
          ((blockRangeIntersection_some hm).2 b).mpr ⟨hmb, hb⟩⟩

omit [DecidableEq τ] in
/-- A new writer stands before the first block of the scan. -/
theorem dumping_new (p : Provider τ β) (t : τ) {ranges : List RangeInclusive}
    {range : RangeInclusive} (hvalid : ∀ r ∈ ranges, r.Valid)
    (hpair : ranges.Pairwise RangeInclusive.Below)
    (hinside : ∀ r ∈ ranges, range.start ≤ r.start ∧ r.stop ≤ range.stop)
    (hu64 : range.stop < 2 ^ 64 - 1) :
    ∃ w, new t ranges = some w ∧ Dumping p t ranges range.start ⟨some w, []⟩ w := by
  have hmax : 0 < maxPartitionBlockRange := by decide
  have hstops : ∀ r ∈ ranges, r.stop < 2 ^ 64 - 1 := fun r hr =>
    Nat.lt_of_le_of_lt (hinside r hr).2 hu64
  rcases limitRanges_cut hmax hvalid hstops with ⟨parts, hparts, hcut⟩
  have hpvalid := hcut.valid hvalid
  have hstarts : ∀ r ∈ parts, range.start ≤ r.start := by
    intro r hr
    rcases (hcut.holds r.start).mp ⟨r, hr, Nat.le_refl _, hpvalid r hr⟩ with ⟨q, hq, hqr⟩
    exact (hinside q hq).1.trans hqr.1
  have hnew : new t ranges =
      some (⟨t, parts, parts.head?.map fun _ => [], none⟩ : RawTableWriter τ β) := by
    rw [new, hparts]
    rfl
  have hcovered : Covered p t ranges range.start ([] : List (ParquetFile β)) := by
    refine ⟨nofun, .nil, ?_⟩
    intro b
    refine iff_of_false holds_nil ?_
    rintro ⟨hb, q, hq, hqb⟩
    exact absurd ((hinside q hq).1.trans hqb.1) (Nat.not_le_of_lt hb)
  refine ⟨_, hnew, rfl, ⟨?_, hpvalid, hcut.pairwise hvalid hpair⟩, fun b _ => hcut.holds b, ?_⟩
  · cases parts with
    | nil => exact .done
    | cons r rest => exact .waiting (hstarts r mem_cons_self)
  · cases parts with
    | nil => exact hcovered
    | cons r rest => exact hcovered

theorem filter_eq_singleton {l : List τ} (hnodup : l.Nodup) (ht : t ∈ l) :
    (l.filter fun x => x = t) = [t] := by
  have hfilter : (l.filter fun x => x = t) = l.filter (· == t) := rfl
  rw [hfilter, filter_beq, count_eq_one_of_mem hnodup ht]
  rfl

theorem filter_eq_nil {l : List τ} (ht : t ∉ l) : (l.filter fun x => x = t) = [] := by
  rw [filter_eq_nil_iff]
  intro x hx hxt
  rw [decide_eq_true_eq] at hxt
  exact ht (hxt ▸ hx)

/-- The rows of one block for one table. -/
theorem filter_tableRows (l : List τ) (t : τ) (n : Nat) :
    ((l.map fun t' => p.tableRows t' n).filter fun rows => rows.table = t) =
      (l.filter fun x => x = t).map fun t' => p.tableRows t' n := by
  rw [filter_map]
  rfl

/-- The rows of the stream for one table. -/
theorem filter_blockStream (hnodup : tables.Nodup) (horder : ∀ n, (p.order n).Perm tables)
    (ht : t ∈ tables) (range : RangeInclusive) :
    ((p.blockStream range).filter fun rows => rows.table = t) =
      (range' range.start (range.stop + 1 - range.start)).map (p.tableRows t) := by
  have hblock : (fun n => ((p.order n).map fun t' => p.tableRows t' n).filter
      fun rows => rows.table = t) = fun n => [p.tableRows t n] := by
    funext n
    rw [filter_tableRows, filter_eq_singleton ((horder n).nodup_iff.mpr hnodup)
      ((horder n).mem_iff.mpr ht)]
    rfl
  rw [Provider.blockStream, filter_flatMap, hblock]
  exact flatMap_pure_eq_map _ _

theorem filter_blockStream_nil (horder : ∀ n, (p.order n).Perm tables) (ht : t ∉ tables)
    (range : RangeInclusive) :
    ((p.blockStream range).filter fun rows => rows.table = t) = [] := by
  rw [filter_eq_nil_iff]
  intro rows hrows hrt
  rcases mem_flatMap.mp hrows with ⟨n, -, hn⟩
  rcases mem_map.mp hn with ⟨t', ht', rfl⟩
  rw [decide_eq_true_eq] at hrt
  exact ht ((horder n).mem_iff.mp (hrt ▸ ht'))

/-- What the rows of one table do in a scan. -/
theorem runRange_table {opts : WriterProperties β} {t : τ}
    {missing : List RangeInclusive} {range : RangeInclusive}
    (hempty : opts.bytesWritten [] < opts.partitionBytes)
    (hpair : missing.Pairwise RangeInclusive.Below) (hrange : range.Valid)
    (hu64 : range.stop < 2 ^ 64 - 1) :
    ∃ w s files, new t (clipRanges missing range) = some w ∧
      ((range' range.start (range.stop + 1 - range.start)).map (p.tableRows t)).foldlM
        (TableDump.write opts) ⟨some w, []⟩ = some s ∧
      s.close = some ⟨none, files⟩ ∧
      Covered p t (clipRanges missing range) (range.stop + 1) files := by
  have hstart : range.start ≤ range.stop := hrange
  rcases @clipRanges_spec missing range hpair with ⟨hcvalid, hcpair, -⟩
  rcases dumping_new p t (fun r hr => (hcvalid r hr).1) hcpair (fun r hr => (hcvalid r hr).2)
    hu64 with ⟨w, hw, hdumping⟩
  have hcount : range.start + (range.stop + 1 - range.start) = range.stop + 1 := by omega
  have hbound : range.start + (range.stop + 1 - range.start) ≤ 2 ^ 64 := by omega
  rcases hdumping.writeAll hempty hbound with ⟨s, w', hs, hdumping'⟩
  rw [hcount] at hdumping'
  rcases hdumping'.close fun r hr => Nat.lt_succ_of_le (hcvalid r hr).2.2 with
    ⟨files, hfiles, hcovered⟩
  exact ⟨w, s, files, hw, hs, hfiles, hcovered⟩

/-- A scan writes the blocks of the range that a table misses. -/
theorem runRange_spec {opts : WriterProperties β} {range : RangeInclusive} (hnodup : tables.Nodup)
    (horder : ∀ n, (p.order n).Perm tables) (hempty : opts.bytesWritten [] < opts.partitionBytes)
    (hpair : ∀ t ∈ tables, (missing t).Pairwise RangeInclusive.Below) (hrange : range.Valid)
    (hu64 : range.stop < 2 ^ 64 - 1) :
    ∃ files, runRange p opts tables missing range = some files ∧ ∀ t ∈ tables,
      Covered p t (clipRanges (missing t) range) (range.stop + 1) (files t) := by
  -- the state of each table after each stage
  have htable : ∀ t, ∃ s₁ s₂ s₃ : TableDump τ β,
      ((tables.filter fun t' => id t' = t).foldlM (fun s t' =>
        (new t' (clipRanges (missing t') range)).map
          fun w => { s with writer := some w }) TableDump.initial) = some s₁ ∧
      ((p.blockStream range).filter fun rows => rows.table = t).foldlM (TableDump.write opts) s₁ =
        some s₂ ∧
      ((tables.filter fun t' => id t' = t).foldlM (fun s _ => s.close) s₂) = some s₃ ∧
      (t ∈ tables → Covered p t (clipRanges (missing t) range) (range.stop + 1) s₃.files) := by
    intro t
    by_cases ht : t ∈ tables
    · rcases @runRange_table τ β _ p opts t (missing t) range hempty (hpair t ht) hrange hu64 with
        ⟨w, s, files, hw, hs, hfiles, hcovered⟩
      refine ⟨⟨some w, []⟩, s, ⟨none, files⟩, ?_, ?_, ?_, fun _ => hcovered⟩
      · simp only [id_eq, filter_eq_singleton hnodup ht, foldlM_cons, foldlM_nil, hw]
        rfl
      · rw [filter_blockStream hnodup horder ht]
        exact hs
      · simp only [id_eq, filter_eq_singleton hnodup ht, foldlM_cons, foldlM_nil, hfiles]
        rfl
    · refine ⟨.initial, .initial, .initial, ?_, ?_, ?_, fun ht' => absurd ht' ht⟩
      · simp only [id_eq, filter_eq_nil ht]
        rfl
      · rw [filter_blockStream_nil horder ht]
        rfl
      · simp only [id_eq, filter_eq_nil ht]
        rfl
  choose s₁ s₂ s₃ hnew hwrite hclose hcovered using htable
  refine ⟨fun t => (s₃ t).files, ?_, hcovered⟩
  have hnew' : RawDatasetWriter.new tables (fun t => clipRanges (missing t) range) = some s₁ :=
    foldlM_routeStep _ _ _ _ _ hnew
  have hwrite' : (p.blockStream range).foldlM (RawDatasetWriter.write opts) s₁ = some s₂ :=
    foldlM_routeStep _ _ _ _ _ hwrite
  have hclose' : RawDatasetWriter.close tables s₂ = some s₃ := foldlM_routeStep _ _ _ _ _ hclose
  unfold runRange
  rw [hnew', Option.bind_eq_bind, Option.bind_some, hwrite', Option.bind_some, hclose']
  rfl

/-! ## A pass -/

/-- Run some parts of a dump; the files of each table are collected. -/
def collect {α : Type} (run : α → Option (τ → List (ParquetFile β))) (l : List α) :
    Option (τ → List (ParquetFile β)) :=
  l.foldlM (fun files a => (run a).map fun new t => files t ++ new t) fun _ => []

variable (p opts tables missing) in
/-- `DumpPartition::run`: the ranges are run sequentially. -/
def runPartition (ranges : List RangeInclusive) : Option (τ → List (ParquetFile β)) :=
  collect (runRange p opts tables missing) ranges

section

variable (σ p opts tables)

/-- The partitions run in parallel. They do not read what the others register, so that the
order of their files is all that depends on the schedule; here it is the order of the
partitions. -/
def dumpRanges (missingDatasetRanges : List RangeInclusive) (maxWriters : Nat)
    (missing : τ → List RangeInclusive) : Option (τ → List (ParquetFile β)) := do
  let partitions ← splitAndPartition missingDatasetRanges maxWriters 2000
  collect (runPartition p opts tables missing) partitions

/-- One iteration of `dump_impl` for the desired range. -/
def dumpPass (segments : τ → List Segment) (desired : RangeInclusive) (maxWriters : Nat) :
    Option (τ → List (ParquetFile β)) :=
  let missing := fun t => missingRanges σ (segments t) desired
  dumpRanges p opts tables (mergeRanges (tables.flatMap missing)) maxWriters missing

end

/-- What the files of a table hold after the scan of some ranges. -/
structure Dumped (p : Provider τ β) (t : τ) (missing scanned : List RangeInclusive)
    (files : List (ParquetFile β)) : Prop where
  written : ∀ f ∈ files, p.Written t f
  below : (files.map (·.range.numbers)).Pairwise RangeInclusive.Below
  holds : ∀ b, Holds (files.map (·.range.numbers)) b ↔ Holds missing b ∧ Holds scanned b

omit [DecidableEq τ] in
theorem Dumped.nil (p : Provider τ β) (t : τ) (missing : List RangeInclusive) :
    Dumped p t missing [] [] := by
  refine ⟨nofun, .nil, ?_⟩
  intro b
  exact iff_of_false holds_nil fun h => holds_nil h.2

omit [DecidableEq τ] in
/-- The ranges that were scanned first come before the others, and so do their files. -/
theorem Dumped.append {missing scanned scanned' : List RangeInclusive}
    {files files' : List (ParquetFile β)} (h : Dumped p t missing scanned files)
    (h' : Dumped p t missing scanned' files') (hbelow : ∀ r ∈ scanned, ∀ r' ∈ scanned', r.Below r') :
    Dumped p t missing (scanned ++ scanned') (files ++ files') := by
  refine ⟨?_, ?_, ?_⟩
  · intro f hf
    rcases mem_append.mp hf with hf | hf
    · exact h.written f hf
    · exact h'.written f hf
  · rw [map_append, pairwise_append]
    refine ⟨h.below, h'.below, ?_⟩
    intro a ha b hb
    rcases mem_map.mp ha with ⟨f, hf, rfl⟩
    rcases mem_map.mp hb with ⟨g, hg, rfl⟩
    have hfstop : Holds (files.map (·.range.numbers)) f.range.numbers.stop :=
      ⟨_, ha, (h.written f hf).valid, Nat.le_refl _⟩
    have hgstart : Holds (files'.map (·.range.numbers)) g.range.numbers.start :=
      ⟨_, hb, Nat.le_refl _, (h'.written g hg).valid⟩
    rcases ((h.holds _).mp hfstop).2 with ⟨r, hr, -, hle⟩
    rcases ((h'.holds _).mp hgstart).2 with ⟨r', hr', hge, -⟩
    exact Nat.lt_of_le_of_lt hle (Nat.lt_of_lt_of_le (hbelow r hr r' hr') hge)
  · intro b
    rw [map_append, holds_append, holds_append, h.holds b, h'.holds b, ← and_or_left]

omit [DecidableEq τ] in
/-- Parts that scan ranges in order, one after the other. -/
theorem collect_spec {α : Type} {run : α → Option (τ → List (ParquetFile β))}
    {scanned : α → List RangeInclusive} {l : List α}
    (hpair : (l.flatMap scanned).Pairwise RangeInclusive.Below)
    (hrun : ∀ a ∈ l, ∃ files, run a = some files ∧
      ∀ t ∈ tables, Dumped p t (missing t) (scanned a) (files t)) :
    ∃ files, collect run l = some files ∧
      ∀ t ∈ tables, Dumped p t (missing t) (l.flatMap scanned) (files t) := by
  -- after some parts, with the ranges they scanned
  have hfold : ∀ (l : List α) (done : List RangeInclusive) (acc : τ → List (ParquetFile β)),
      (∀ t ∈ tables, Dumped p t (missing t) done (acc t)) →
      (done ++ l.flatMap scanned).Pairwise RangeInclusive.Below →
      (∀ a ∈ l, ∃ files, run a = some files ∧
        ∀ t ∈ tables, Dumped p t (missing t) (scanned a) (files t)) →
      ∃ files, l.foldlM (fun files a => (run a).map fun new t => files t ++ new t) acc =
        some files ∧
        ∀ t ∈ tables, Dumped p t (missing t) (done ++ l.flatMap scanned) (files t) := by
    intro l
    induction l with
    | nil =>
      intro done acc hacc _ _
      refine ⟨acc, rfl, ?_⟩
      rw [flatMap_nil, append_nil]
      exact hacc
    | cons a l ih =>
      intro done acc hacc hpair hrun
      rcases hrun a mem_cons_self with ⟨new, hnew, hdumped⟩
      rw [flatMap_cons, ← append_assoc] at hpair ⊢
      have hbelow := (pairwise_append.mp (pairwise_append.mp hpair).1).2.2
      have hacc' : ∀ t ∈ tables, Dumped p t (missing t) (done ++ scanned a) (acc t ++ new t) :=
        fun t ht => (hacc t ht).append (hdumped t ht) hbelow
      rcases ih _ _ hacc' hpair fun b hb => hrun b (mem_cons_of_mem a hb) with
        ⟨files, hfiles, hall⟩
      refine ⟨files, ?_, hall⟩
      rw [foldlM_cons, hnew]
      exact hfiles
  exact hfold l [] _ (fun t _ => .nil p t (missing t)) hpair hrun

/-- What `dump_ranges` writes. -/
theorem dumpRanges_spec {opts : WriterProperties β} {ranges : List RangeInclusive}
    {maxWriters : Nat} (hnodup : tables.Nodup) (horder : ∀ n, (p.order n).Perm tables)
    (hempty : opts.bytesWritten [] < opts.partitionBytes)
    (hpair : ∀ t ∈ tables, (missing t).Pairwise RangeInclusive.Below)
    (hvalid : ∀ r ∈ ranges, r.Valid) (hbelow : ranges.Pairwise RangeInclusive.Below)
    (hu64 : ∀ r ∈ ranges, r.stop < 2 ^ 64 - 1) (hwriters : 0 < maxWriters) :
    ∃ files, dumpRanges p opts tables ranges maxWriters missing = some files ∧
      ∀ t ∈ tables, ∃ scanned, (∀ b, Holds scanned b ↔ Holds ranges b) ∧
        Dumped p t (missing t) scanned (files t) := by
  rcases @splitAndPartition_cut ranges maxWriters 2000 hvalid hbelow hu64 hwriters (by decide) with
    ⟨partitions, hsplit, hcut⟩
  have hcvalid := hcut.valid hvalid
  have hcpair := hcut.pairwise hvalid hbelow
  have hcu64 := hcut.stop_lt hvalid hu64
  have hpartition : ∀ part ∈ partitions, ∃ files,
      runPartition p opts tables missing part = some files ∧
      ∀ t ∈ tables, Dumped p t (missing t) (id part) (files t) := by
    intro part hpart
    have hmem : ∀ r ∈ part, r ∈ partitions.flatten := fun r hr =>
      mem_flatten.mpr ⟨part, hpart, hr⟩
    have hsub : (part.flatMap fun r => [r]).Pairwise RangeInclusive.Below := by
      rw [flatMap_singleton']
      exact hcpair.sublist (sublist_flatten_of_mem hpart)
    have hrange : ∀ r ∈ part, ∃ files, runRange p opts tables missing r = some files ∧
        ∀ t ∈ tables, Dumped p t (missing t) [r] (files t) := by
      intro r hr
      rcases runRange_spec hnodup horder hempty hpair (hcvalid r (hmem r hr))
        (hcu64 r (hmem r hr)) with ⟨files, hfiles, hcovered⟩
      refine ⟨files, hfiles, ?_⟩
      intro t ht
      refine ⟨(hcovered t ht).written, (hcovered t ht).below, ?_⟩
      intro b
      have hclip := (@clipRanges_spec (missing t) r (hpair t ht)).2.2 b
      rw [(hcovered t ht).holds b, hclip, holds_cons]
      constructor
      · rintro ⟨-, hmissing, hb⟩
        exact ⟨hmissing, .inl hb⟩
      · rintro ⟨hmissing, hb | hb⟩
        · exact ⟨Nat.lt_succ_of_le hb.2, hmissing, hb⟩
        · exact absurd hb holds_nil
    rcases collect_spec hsub hrange with ⟨files, hfiles, hdumped⟩
    rw [flatMap_singleton'] at hdumped
    exact ⟨files, hfiles, hdumped⟩
  have hflat : partitions.flatMap id = partitions.flatten := flatMap_id
  rcases collect_spec (hflat ▸ hcpair) hpartition with ⟨files, hfiles, hdumped⟩
  refine ⟨files, ?_, fun t ht => ⟨partitions.flatMap id, ?_, hdumped t ht⟩⟩
  · rw [dumpRanges, hsplit]
    exact hfiles
  · rw [hflat]
    exact hcut.holds

omit [DecidableEq τ] in
theorem Provider.Agrees.adj {s s' : Segment} (hs : p.Agrees s.range) (hs' : p.Agrees s'.range)
    (hstop : s.range.stop + 1 = s'.range.start) : s.Adj s' := by
  refine BlockRange.adjacent_iff.mpr ⟨hs.network.trans hs'.network.symm, hstop, ?_⟩
  intro h hprev
  rw [hs.hash]
  apply p.linked
  rw [hstop]
  exact hs'.prevHash h hprev

/-- Segments of one chain without common blocks. -/
structure OneChain (p : Provider τ β) (segments : List Segment) : Prop where
  valid : AllValid segments
  apart : segments.Pairwise fun s s' => s.range.numbers.Apart s'.range.numbers
  agrees : ∀ s ∈ segments, p.Agrees s.range

omit [DecidableEq τ] in
/-- Segments of one chain have no fork, so that the missing blocks are those that no
segment holds. -/
theorem OneChain.missingRanges_spec {segments : List Segment} (h : OneChain p segments)
    (σ : SegmentSort) {desired : RangeInclusive} (hdesired : desired.Valid)
    (hu64 : desired.stop < 2 ^ 64) :
    (∀ r ∈ missingRanges σ segments desired, r.Valid ∧ r.stop ≤ desired.stop) ∧
      (missingRanges σ segments desired).Pairwise RangeInclusive.Below ∧
      ∀ b, Holds (missingRanges σ segments desired) b ↔
        desired.Contains b ∧ ∀ s ∈ segments, ¬ s.range.Contains b := by
  rcases CampNode.missingRanges_spec σ h.valid hdesired hu64 with ⟨hvalid, hbefore, hholds⟩
  have hnofork : ∀ b, ¬ ReorgBlock σ segments b := by
    rintro b ⟨out, fork, hchains, hfork, -⟩
    rw [fork_eq_none hchains h.valid h.apart fun s hs s' hs' =>
      (h.agrees s hs).adj (h.agrees s' hs')] at hfork
    cases hfork
  refine ⟨?_, hbefore.imp fun hab => Nat.lt_of_succ_lt hab, ?_⟩
  · intro r hr
    exact ⟨hvalid r hr, ((hholds r.stop).mp ⟨r, hr, hvalid r hr, Nat.le_refl _⟩).1.2⟩
  · intro b
    rw [hholds b, or_iff_left (hnofork b)]

section

variable (σ p opts tables segments desired maxWriters)

/-- The situation before a pass: the segments of every table are ranges of the provider's
chain without common blocks, every block comes with rows for every table, and an empty file
is below the size limit. -/
structure DumpSetup : Prop where
  nodup : tables.Nodup
  order : ∀ n, (p.order n).Perm tables
  chain : ∀ t ∈ tables, OneChain p (segments t)
  desired : desired.Valid
  writers : 0 < maxWriters
  bytes : opts.bytesWritten [] < opts.partitionBytes

/-- A pass succeeds, the new files of a table have no block in common with each other or
with the old segments, and with them nothing is missing any more. The new segments have
any ids and timestamps and any place in the list. -/
def DumpComplete : Prop :=
  ∃ files, dumpPass σ p opts tables segments desired maxWriters = some files ∧ ∀ t ∈ tables,
    ((files t).map (·.range.numbers)).Pairwise RangeInclusive.Apart ∧
    (∀ f ∈ files t, ∀ s ∈ segments t, f.range.numbers.Apart s.range.numbers) ∧
    ∀ (σ' : SegmentSort) (segments' : List Segment), (segments'.map (·.range)).Perm
        ((segments t).map (·.range) ++ (files t).map (·.range)) →
      missingRanges σ' segments' desired = []

end

omit [DecidableEq τ] in
/-- The files of a table that hold its missing blocks complete it. -/
theorem OneChain.complete {segments : List Segment} (h : OneChain p segments)
    {files : List (ParquetFile β)} {desired : RangeInclusive}
    (hwritten : ∀ f ∈ files, p.Written t f)
    (hfiles : (files.map (·.range.numbers)).Pairwise RangeInclusive.Apart)
    (hapart : ∀ f ∈ files, ∀ s ∈ segments, f.range.numbers.Apart s.range.numbers)
    (hholds : ∀ b, desired.Contains b → (∀ s ∈ segments, ¬ s.range.Contains b) →
      Holds (files.map (·.range.numbers)) b) (hdesired : desired.Valid)
    (hu64 : desired.stop < 2 ^ 64) (σ : SegmentSort) {segments' : List Segment}
    (hperm : (segments'.map (·.range)).Perm (segments.map (·.range) ++ files.map (·.range))) :
    missingRanges σ segments' desired = [] := by
  -- a new segment has the range of an old one or of a file
  have hrange : ∀ s ∈ segments', (∃ s₀ ∈ segments, s₀.range = s.range) ∨
      ∃ f ∈ files, f.range = s.range := by
    intro s hs
    rcases mem_append.mp (hperm.mem_iff.mp (mem_map.mpr ⟨s, hs, rfl⟩)) with hs | hs
    · exact .inl (mem_map.mp hs)
    · exact .inr (mem_map.mp hs)
  have hmem : ∀ range ∈ segments.map (·.range) ++ files.map (·.range),
      ∃ s ∈ segments', s.range = range := fun range hr =>
    mem_map.mp (hperm.mem_iff.mpr hr)
  have hchain : OneChain p segments' := by
    refine ⟨?_, ?_, ?_⟩
    · intro s hs
      rcases hrange s hs with ⟨s₀, hs₀, heq⟩ | ⟨f, hf, heq⟩
      · exact heq ▸ h.valid s₀ hs₀
      · exact heq ▸ (hwritten f hf).valid
    · have hpair : (segments.map (·.range) ++ files.map (·.range)).Pairwise
          fun r r' => r.numbers.Apart r'.numbers := by
        rw [pairwise_append, pairwise_map]
        refine ⟨h.apart, ?_, ?_⟩
        · rw [pairwise_map] at hfiles ⊢
          exact hfiles
        · intro r hr r' hr'
          rcases mem_map.mp hr with ⟨s, hs, rfl⟩
          rcases mem_map.mp hr' with ⟨f, hf, rfl⟩
          exact (hapart f hf s hs).symm
      have hpair' := (hperm.pairwise_iff fun h => RangeInclusive.Apart.symm h).mpr hpair
      rw [pairwise_map] at hpair'
      exact hpair'
    · intro s hs
      rcases hrange s hs with ⟨s₀, hs₀, heq⟩ | ⟨f, hf, heq⟩
      · exact heq ▸ h.agrees s₀ hs₀
      · exact heq ▸ (hwritten f hf).agrees
  rcases hchain.missingRanges_spec σ hdesired hu64 with ⟨hvalid, -, hmissing⟩
  rw [eq_nil_iff_forall_not_mem]
  intro r hr
  rcases (hmissing r.start).mp ⟨r, hr, Nat.le_refl _, (hvalid r hr).1⟩ with ⟨hb, hnone⟩
  -- the first block of a missing range would be in a file
  have hold : ∀ s ∈ segments, ¬ s.range.Contains r.start := by
    intro s hs hsb
    rcases hmem s.range (mem_append_left _ (mem_map.mpr ⟨s, hs, rfl⟩)) with
      ⟨s', hs', heq⟩
    exact hnone s' hs' (heq ▸ hsb)
  rcases hholds r.start hb hold with ⟨q, hq, hqb⟩
  rcases mem_map.mp hq with ⟨f, hf, rfl⟩
  rcases hmem f.range (mem_append_right _ (mem_map.mpr ⟨f, hf, rfl⟩)) with
    ⟨s', hs', heq⟩
  refine hnone s' hs' ?_
  rw [heq]
  exact hqb

/-- A pass over a desired range below the last block number completes every table. -/
theorem dump_completes (σ : SegmentSort) (p : Provider τ β) (opts : WriterProperties β)
    (tables : List τ) (segments : τ → List Segment) (desired : RangeInclusive)
    (maxWriters : Nat) (h : DumpSetup p opts tables segments desired maxWriters)
    (hend : desired.stop < 2 ^ 64 - 1) :
    DumpComplete σ p opts tables segments desired maxWriters := by
  have hu64 : desired.stop < 2 ^ 64 := by omega
  have hmissing := fun t ht => (h.chain t ht).missingRanges_spec σ h.desired hu64
  -- the union of the missing ranges
  have hunion : ∀ r ∈ tables.flatMap fun t => missingRanges σ (segments t) desired,
      r.Valid ∧ r.stop ≤ desired.stop := by
    intro r hr
    rcases mem_flatMap.mp hr with ⟨t, ht, hr⟩
    exact (hmissing t ht).1 r hr
  have hnowrap : ((tables.flatMap fun t => missingRanges σ (segments t) desired).insertionSort
      fun a b => a.start ≤ b.start).Pairwise fun a _ => NoWrap a := by
    apply pairwise_of_forall_mem_list
    intro a ha _ _
    have hle := (hunion a ((perm_insertionSort _ _).mem_iff.mp ha)).2
    unfold NoWrap
    omega
  rcases mergeRanges_spec (fun r hr => (hunion r hr).1) hnowrap with ⟨hmvalid, hmbefore, hmholds⟩
  have hmstop : ∀ r ∈ mergeRanges (tables.flatMap fun t => missingRanges σ (segments t) desired),
      r.stop < 2 ^ 64 - 1 := by
    intro r hr
    rcases (hmholds r.stop).mp ⟨r, hr, hmvalid r hr, Nat.le_refl _⟩ with ⟨q, hq, hqr⟩
    exact Nat.lt_of_le_of_lt (hqr.2.trans (hunion q hq).2) hend
  rcases dumpRanges_spec h.nodup h.order h.bytes (fun t ht => (hmissing t ht).2.1) hmvalid
    (hmbefore.imp fun hab => Nat.lt_of_succ_lt hab) hmstop h.writers with ⟨files, hfiles, hdumped⟩
  refine ⟨files, hfiles, ?_⟩
  intro t ht
  rcases hdumped t ht with ⟨scanned, hscanned, hd⟩
  -- the files hold what the table missed
  have hholds : ∀ b, Holds ((files t).map (·.range.numbers)) b ↔
      desired.Contains b ∧ ∀ s ∈ segments t, ¬ s.range.Contains b := by
    intro b
    rw [hd.holds b, ← (hmissing t ht).2.2 b, hscanned b, hmholds b]
    refine and_iff_left_of_imp ?_
    rintro ⟨r, hr, hb⟩
    exact ⟨r, mem_flatMap.mpr ⟨t, ht, hr⟩, hb⟩
  have hnew : ((files t).map (·.range.numbers)).Pairwise RangeInclusive.Apart := by
    apply hd.below.imp
    intro a b hab n ha hb
    exact absurd (Nat.lt_of_le_of_lt ha.2 (Nat.lt_of_lt_of_le hab hb.1)) (Nat.lt_irrefl n)
  have hold : ∀ f ∈ files t, ∀ s ∈ segments t, f.range.numbers.Apart s.range.numbers := by
    intro f hf s hs b hfb hsb
    exact ((hholds b).mp ⟨_, mem_map.mpr ⟨f, hf, rfl⟩, hfb⟩).2 s hs hsb
  refine ⟨hnew, hold, ?_⟩
  intro σ' segments' hperm
  exact (h.chain t ht).complete hd.written hnew hold
    (fun b hb hnone => (hholds b).mpr ⟨hb, hnone⟩) h.desired hu64 σ' hperm

end

/-! ## Two passes -/

/-- A chain with the block number as the hash. -/
def countingProvider : Provider Bool Nat where
  network := "mainnet"
  hash n := BitVec.ofNat 256 n
  prevHash n := if n = 0 then none else some (BitVec.ofNat 256 (n - 1))
  linked n h hprev := by
    rw [if_neg (Nat.succ_ne_zero n), Option.some.injEq] at hprev
    exact hprev.symm
  rows _ n := n
  order _ := [false, true]

def countingSegment (id : Nat) (numbers : RangeInclusive) : Segment :=
  ⟨id, ⟨numbers, "mainnet", countingProvider.hash numbers.stop,
    countingProvider.prevHash numbers.start⟩, ⟨0⟩⟩

/-- Two batches fill a file. -/
def twoBatches : WriterProperties Nat := ⟨2, List.length⟩

/-- One table is empty, the other one has one segment. -/
def oneSegment (numbers : RangeInclusive) : Bool → List Segment
  | false => []
  | true => [countingSegment 1 numbers]

theorem oneSegment_setup {numbers desired : RangeInclusive} (hnumbers : numbers.Valid)
    (hdesired : desired.Valid) :
    DumpSetup countingProvider twoBatches [false, true] (oneSegment numbers) desired 1 where
  nodup := by decide
  order _ := .refl _
  chain t _ := by
    cases t with
    | false => exact ⟨nofun, .nil, nofun⟩
    | true =>
      refine ⟨?_, pairwise_singleton _ _, ?_⟩
      · intro s hs
        rw [mem_singleton.mp hs]
        exact hnumbers
      · intro s hs
        rw [mem_singleton.mp hs]
        exact ⟨rfl, rfl, fun _ h => h⟩
  desired := hdesired
  writers := by decide
  bytes := by decide

/-- Blocks 0 to 7, of which one table has blocks 3 and 4. -/
theorem dump_completes_counting :
    (dumpPass (insertionSort Segment.lastModified) countingProvider twoBatches [false, true]
      (oneSegment ⟨3, 4⟩) ⟨0, 7⟩ 1).map (fun files => (files true).map (·.range.numbers)) =
        some [⟨0, 1⟩, ⟨2, 2⟩, ⟨5, 6⟩, ⟨7, 7⟩] ∧
      DumpComplete (insertionSort Segment.lastModified) countingProvider twoBatches [false, true]
        (oneSegment ⟨3, 4⟩) ⟨0, 7⟩ 1 :=
  ⟨by decide, dump_completes _ _ _ _ _ _ _ (oneSegment_setup (by decide) (by decide)) (by decide)⟩

/-- The last four block numbers, of which one table has the first two. The ranges that the
tables miss end in the last block number and are not merged, so that the last two blocks are
scanned twice. -/
theorem last_block_dumped_twice :
    DumpSetup countingProvider twoBatches [false, true] (oneSegment ⟨2 ^ 64 - 4, 2 ^ 64 - 3⟩)
        ⟨2 ^ 64 - 4, 2 ^ 64 - 1⟩ 1 ∧
      ¬ DumpComplete (insertionSort Segment.lastModified) countingProvider twoBatches
        [false, true] (oneSegment ⟨2 ^ 64 - 4, 2 ^ 64 - 3⟩) ⟨2 ^ 64 - 4, 2 ^ 64 - 1⟩ 1 := by
  refine ⟨oneSegment_setup (by decide) (by decide), ?_⟩
  rintro ⟨files, hfiles, hcomplete⟩
  have htwice : (dumpPass (insertionSort Segment.lastModified) countingProvider twoBatches
      [false, true] (oneSegment ⟨2 ^ 64 - 4, 2 ^ 64 - 3⟩) ⟨2 ^ 64 - 4, 2 ^ 64 - 1⟩ 1).map
        (fun files => (files true).map (·.range.numbers)) =
      some [⟨2 ^ 64 - 2, 2 ^ 64 - 1⟩, ⟨2 ^ 64 - 2, 2 ^ 64 - 1⟩] := by decide
  rw [hfiles, Option.map_some, Option.some.injEq] at htwice
  have hapart := (hcomplete true (by decide)).1
  rw [htwice] at hapart
  exact pairwise_pair.mp hapart (2 ^ 64 - 1) (by decide) (by decide)

end CampNode

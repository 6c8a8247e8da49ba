import CampNode.Streaming.Blocks

/-!
# CampNode.Streaming.Query — the range of the next microbatch

How a streaming query finds the next range of blocks to process from snapshots of
its tables: `next_microbatch_range` of `dump/src/streaming_query.rs` and the
functions below it.

Errors of the metadata database and of the SQL engine end the query and are left
out. Sums of block numbers are those of `u64`, which wrap around in a release
build.
-/

namespace CampNode

open Option

/-- The fields of `StreamingQuery` that decide about ranges. -/
structure StreamingQuery where
  startBlock : Nat
  endBlock : Option Nat
  /-- A `u64`. -/
  microbatchMaxInterval : Nat
  network : String
  /-- `start_block` of the dataset of the `blocks` table. -/
  datasetStartBlock : Option Nat

/-- What one iteration of the loop sees. -/
structure Snapshot where
  /-- All files of the `blocks` table when its canonical chain is determined. -/
  files : List Segment
  sort : SegmentSort
  /-- All files of the `blocks` table when the context for forked blocks is made. -/
  forkFiles : List Segment
  limit : LimitOne
  /-- The canonical chains of the source tables. -/
  sources : List (List Segment)
  /-- The canonical chain of the destination table, if there is one. -/
  destination : Option Chain

structure SegmentStart where
  number : Nat
  prevHash : Option BlockHash
deriving DecidableEq, Repr

def BlockRow.segmentStart (row : BlockRow) : SegmentStart := ⟨row.number, row.prevHash⟩

/-- Direction of the stream. -/
inductive StreamDirection where
  | forwardFrom (start : SegmentStart)
  | reorgFrom (start : SegmentStart)
deriving DecidableEq, Repr

def StreamDirection.segmentStart : StreamDirection → SegmentStart
  | .forwardFrom start => start
  | .reorgFrom start => start

def StreamDirection.isReorg : StreamDirection → Bool
  | .forwardFrom _ => false
  | .reorgFrom _ => true

structure MicrobatchRange where
  range : BlockRange
  direction : StreamDirection
deriving DecidableEq, Repr

/-- `PhysicalTable::canonical_chain`, as the segments of a snapshot. A chain that
starts after the start block of the dataset does not count. -/
def Snapshot.canonicalSegments (query : StreamingQuery) (snapshot : Snapshot) : List Segment :=
  match canonicalChain snapshot.sort snapshot.files with
  | none => []
  | some canonical =>
      if query.datasetStartBlock.any (fun startBlock => decide (startBlock < canonical.start))
      then [] else canonical.segments

/-- The rows of the canonical chain. -/
def Snapshot.canonicalRows (rows : FileRows) (query : StreamingQuery) (snapshot : Snapshot) :
    List BlockRow :=
  allRows rows (snapshot.canonicalSegments query)

/-! ## The next range -/

section Range

variable (rows : FileRows) (query : StreamingQuery) (snapshot : Snapshot)
variable (number : Nat) (hash : Option BlockHash) (fuel : Nat) (prevWatermark : Option Watermark)

/-- Lookup in the canonical rows. -/
def canonicalFetch : Option BlockRow :=
  blocksTableFetch rows snapshot.limit (snapshot.canonicalSegments query) number hash

/-- Whether a block is canonical. -/
def canonicalContains (watermark : Watermark) : Bool :=
  blocksTableContains rows snapshot.limit (snapshot.canonicalSegments query) watermark

/-- Lookup in the rows of all files. -/
def forkFetch : Option BlockRow :=
  blocksTableFetch rows snapshot.limit snapshot.forkFiles number hash

/-- The watermark of a source table: the end of its latest segment that ends in a
canonical block. -/
def sourceWatermark (chain : List Segment) : Option Watermark :=
  (chain.reverse.map (·.range.watermark)).find? (canonicalContains rows query snapshot)

/-- The first watermark with the least number (`Iterator::min_by_key`). -/
def minWatermark : List Watermark → Option Watermark
  | [] => none
  | w :: ws =>
      match minWatermark ws with
      | none => some w
      | some m => if w.number ≤ m.number then some w else some m

/-- The latest common watermark of the source tables. -/
def latestSrcWatermark : Option Watermark :=
  match snapshot.sources.mapM (sourceWatermark rows query snapshot) with
  | none => none
  | some watermarks => minWatermark watermarks

/-- The loop of `reorg_base`: from block `fork` down along the parent hashes until
a canonical block. `none` if the loop takes more than `fuel` iterations. -/
def forkWalk : Nat → Nat → Option BlockRow → Option Nat
  | 0, _, _ => none
  | _ + 1, minForkBlockNum, none => some minForkBlockNum
  | fuel + 1, minForkBlockNum, some block =>
      if canonicalContains rows query snapshot block.watermark then some minForkBlockNum
      else forkWalk fuel block.number (forkFetch rows snapshot (block.number - 1) block.prevHash)

/-- The start of the segment of the destination table around the block. -/
def destinationStart (minForkBlockNum : Nat) : Nat :=
  match snapshot.destination with
  | none => minForkBlockNum
  | some chain =>
      match (chain.segments.reverse.map (·.range.numbers)).find?
        (fun r => decide (r.start ≤ minForkBlockNum) && decide (minForkBlockNum ≤ r.stop)) with
      | none => 0
      | some r => r.start

/-- The block to resume from after a reorg; the outer `none` is a loop that takes
more than `fuel` iterations. -/
def reorgBase (prev : Watermark) : Option (Option BlockRow) :=
  (forkWalk rows query snapshot fuel prev.number
    (forkFetch rows snapshot prev.number (some prev.hash))).map fun minForkBlockNum =>
      canonicalFetch rows query snapshot (destinationStart snapshot minForkBlockNum) none

def nextMicrobatchStart : Option (Option StreamDirection) :=
  match prevWatermark with
  -- start stream
  | none =>
      some ((canonicalFetch rows query snapshot query.startBlock none).map fun b =>
        .forwardFrom b.segmentStart)
  | some prev =>
      if canonicalContains rows query snapshot prev then
        -- continue stream
        some (some (.forwardFrom ⟨(prev.number + 1) % 2 ^ 64, some prev.hash⟩))
      else
        -- rewind stream due to reorg
        (reorgBase rows query snapshot fuel prev).map fun block =>
          block.map fun b => .reorgFrom b.segmentStart

/-- The number of the last block of the range, and whether it was limited by the
interval. -/
def microbatchEndNumber (start commonWatermark : Nat) : Nat × Bool :=
  let stop := match query.endBlock with
    | some endBlock => min commonWatermark endBlock
    | none => commonWatermark
  let limit := (start + query.microbatchMaxInterval + (2 ^ 64 - 1)) % 2 ^ 64
  if limit < stop then (limit, true) else (stop, false)

def nextMicrobatchEnd (start : SegmentStart) (commonWatermark : Watermark) : Option Watermark :=
  let number := (microbatchEndNumber query start.number commonWatermark.number).1
  -- invalid range: end block is before start block
  if number < start.number then none
  else if number = commonWatermark.number then some commonWatermark
  else (canonicalFetch rows query snapshot number none).map BlockRow.watermark

/-- The next range, and whether `set_ready` was called on the way; the outer `none`
is a walk that takes more than `fuel` iterations. -/
def nextMicrobatchRange : Option (Option MicrobatchRange × Bool) :=
  match latestSrcWatermark rows query snapshot with
  | none => some (none, false)
  | some commonWatermark =>
      if commonWatermark.number < query.startBlock then some (none, false)
      else
        (nextMicrobatchStart rows query snapshot fuel prevWatermark).map fun
          | none => (none, false)
          | some direction =>
              let start := direction.segmentStart
              ((nextMicrobatchEnd rows query snapshot start commonWatermark).map fun stop =>
                ⟨⟨⟨start.number, stop.number⟩, query.network, stop.hash, start.prevHash⟩,
                  direction⟩, (microbatchEndNumber query start.number commonWatermark.number).2)

end Range

/-! ## Canonical rows -/

section Canonical

variable {rows : FileRows} {query : StreamingQuery} {snapshot : Snapshot}

theorem canonicalSegments_cases (query : StreamingQuery) (snapshot : Snapshot) :
    snapshot.canonicalSegments query = [] ∨ ∃ out, chains snapshot.sort snapshot.files = some out ∧
        snapshot.canonicalSegments query = out.canonical.segments := by
  unfold Snapshot.canonicalSegments canonicalChain
  cases h : chains snapshot.sort snapshot.files with
  | none => exact .inl rfl
  | some out =>
    simp only [map_some]
    split
    · exact .inl rfl
    · exact .inr ⟨out, rfl, rfl⟩

theorem canonicalSegments_linked (query : StreamingQuery) (snapshot : Snapshot) :
    (snapshot.canonicalSegments query).IsChain Segment.Adj := by
  rcases canonicalSegments_cases query snapshot with h | ⟨out, -, h⟩
  · rw [h]
    exact List.IsChain.nil
  · rw [h]
    exact out.canonical.linked

theorem canonicalSegments_subset {s : Segment} (hs : s ∈ snapshot.canonicalSegments query) :
    s ∈ snapshot.files := by
  rcases canonicalSegments_cases query snapshot with h | ⟨out, hout, h⟩
  · rw [h] at hs
    simp at hs
  · rw [h] at hs
    exact chains_mem hout hs

variable (hhashes : BlockHashes rows) (hwf : ∀ s ∈ snapshot.files, WellFormedFile rows s)

include hwf in
theorem wellFormed_canonical : ∀ s ∈ snapshot.canonicalSegments query, WellFormedFile rows s :=
  fun s hs => hwf s (canonicalSegments_subset hs)

include hhashes hwf in
theorem canonicalRows_chain : BlockChain (snapshot.canonicalRows rows query) :=
  chain_allRows hhashes (canonicalSegments_linked query snapshot) (wellFormed_canonical hwf)

include hwf in
theorem canonicalContains_iff {w : Watermark} : canonicalContains rows query snapshot w = true ↔
      ∃ r ∈ snapshot.canonicalRows rows query, r.watermark = w := by
  unfold canonicalContains
  rw [blocksTableContains_iff (canonicalSegments_linked query snapshot) (wellFormed_canonical hwf)]
  constructor
  · rintro ⟨r, hr, hnum, hhash⟩
    exact ⟨r, hr, by cases w; simp_all [BlockRow.watermark]⟩
  · rintro ⟨r, hr, rfl⟩
    exact ⟨r, hr, rfl, rfl⟩

include hwf in
/-- The canonical chain starts at or below every readable row. -/
theorem canonicalRows_first {r : BlockRow} (hr : r ∈ snapshot.canonicalRows rows query) :
    ∃ f ∈ snapshot.canonicalRows rows query,
      ∀ x ∈ allRows rows snapshot.files, f.number ≤ x.number := by
  rcases mem_allRows.mp hr with ⟨s, hs, -⟩
  rcases canonicalSegments_cases query snapshot with h | ⟨out, hout, h⟩
  · rw [h] at hs
    simp at hs
  let a := out.canonical.segments.head out.canonical.nonempty
  have ha : a ∈ snapshot.canonicalSegments query := by
    rw [h]
    exact out.canonical.head_mem
  rcases (hwf a (canonicalSegments_subset ha)).first with ⟨f, hf, hnum, -⟩
  refine ⟨f, mem_allRows.mpr ⟨a, ha, List.mem_of_mem_head? hf⟩, ?_⟩
  intro x hx
  rcases mem_allRows.mp hx with ⟨t, ht, hxt⟩
  have hfirst : a.range.start ≤ t.range.start := canonical_startsFirst hout t ht
  have hstart : t.range.start ≤ x.number := (hwf t ht).start_le hxt
  omega

theorem canonicalFetch_some {number : Nat} {hash : Option BlockHash} {r : BlockRow}
    (h : canonicalFetch rows query snapshot number hash = some r) :
    r ∈ snapshot.canonicalRows rows query ∧ r.number = number :=
  ⟨(blocksTableFetch_some h).1, (blocksTableFetch_some h).2.1⟩

end Canonical

/-! ## The end of the range -/

section End

variable {rows : FileRows} {query : StreamingQuery} {snapshot : Snapshot}

theorem minWatermark_some {ws : List Watermark} {m : Watermark} (h : minWatermark ws = some m) :
    m ∈ ws ∧ ∀ w ∈ ws, m.number ≤ w.number := by
  induction ws generalizing m with
  | nil => simp [minWatermark] at h
  | cons w ws ih =>
    unfold minWatermark at h
    cases hmin : minWatermark ws with
    | none =>
      have hnil : ws = [] := by
        cases ws with
        | nil => rfl
        | cons v ws =>
          unfold minWatermark at hmin
          split at hmin
          · simp at hmin
          · split at hmin <;> simp at hmin
      simp only [hmin, some.injEq] at h
      subst h hnil
      simp
    | some k =>
      rcases ih hmin with ⟨hk, hle⟩
      simp only [hmin] at h
      split at h
      · rename_i hwk
        cases h
        refine ⟨by simp, ?_⟩
        intro v hv
        rcases List.mem_cons.mp hv with rfl | hv
        · exact Nat.le_refl _
        · exact hwk.trans (hle v hv)
      · cases h
        refine ⟨List.mem_cons_of_mem _ hk, ?_⟩
        intro v hv
        rcases List.mem_cons.mp hv with rfl | hv
        · omega
        · exact hle v hv

theorem mem_of_mapM_some {α β : Type} {f : α → Option β} {l : List α} {out : List β}
    (h : l.mapM f = some out) :
    (∀ b ∈ out, ∃ a ∈ l, f a = some b) ∧ ∀ a ∈ l, ∃ b ∈ out, f a = some b := by
  induction l generalizing out with
  | nil =>
    have hnil : out = [] := by simpa using h.symm
    subst hnil
    simp
  | cons a l ih =>
    rw [List.mapM_cons] at h
    simp only [bind_eq_bind, bind_eq_some_iff, pure_def, some.injEq] at h
    rcases h with ⟨b, hb, rest, hrest, rfl⟩
    rcases ih hrest with ⟨hout, hin⟩
    constructor
    · intro c hc
      rcases List.mem_cons.mp hc with rfl | hc
      · exact ⟨a, by simp, hb⟩
      · rcases hout c hc with ⟨x, hx, hfx⟩
        exact ⟨x, List.mem_cons_of_mem _ hx, hfx⟩
    · intro x hx
      rcases List.mem_cons.mp hx with rfl | hx
      · exact ⟨b, by simp, hb⟩
      · rcases hin x hx with ⟨c, hc, hfx⟩
        exact ⟨c, List.mem_cons_of_mem _ hc, hfx⟩

variable {w common : Watermark} {start : SegmentStart}

/-- Every table has a watermark, and the common one is the watermark of one of them
and not above any other. -/
theorem latestSrcWatermark_some (h : latestSrcWatermark rows query snapshot = some w) :
    (∃ chain ∈ snapshot.sources, sourceWatermark rows query snapshot chain = some w) ∧
      ∀ chain ∈ snapshot.sources, ∃ v, sourceWatermark rows query snapshot chain = some v ∧
        w.number ≤ v.number := by
  unfold latestSrcWatermark at h
  cases hmap : snapshot.sources.mapM (sourceWatermark rows query snapshot) with
  | none => simp [hmap] at h
  | some ws =>
    simp only [hmap] at h
    rcases minWatermark_some h with ⟨hmem, hle⟩
    rcases mem_of_mapM_some hmap with ⟨hout, hin⟩
    refine ⟨hout w hmem, ?_⟩
    intro chain hchain
    rcases hin chain hchain with ⟨v, hv, hsome⟩
    exact ⟨v, hsome, hle v hv⟩

/-- The end of a range has the number that was computed, which is not before the start. -/
theorem nextMicrobatchEnd_number (h : nextMicrobatchEnd rows query snapshot start common = some w) :
    w.number = (microbatchEndNumber query start.number common.number).1 ∧
      start.number ≤ w.number := by
  unfold nextMicrobatchEnd at h
  simp only at h
  split at h
  · cases h
  rename_i hstart
  split at h
  · rename_i heq
    cases h
    exact ⟨heq.symm, by omega⟩
  · rcases map_eq_some_iff.mp h with ⟨r, hr, rfl⟩
    have hnum : r.watermark.number = _ := (canonicalFetch_some hr).2
    exact ⟨hnum, by omega⟩

theorem nextMicrobatchEnd_canonical
    (hcommon : ∃ r ∈ snapshot.canonicalRows rows query, r.watermark = common)
    (h : nextMicrobatchEnd rows query snapshot start common = some w) :
    ∃ r ∈ snapshot.canonicalRows rows query, r.watermark = w := by
  unfold nextMicrobatchEnd at h
  simp only at h
  split at h
  · cases h
  split at h
  · cases h
    exact hcommon
  · rcases map_eq_some_iff.mp h with ⟨r, hr, rfl⟩
    exact ⟨r, (canonicalFetch_some hr).1, rfl⟩

/-- The last block of the range is a canonical one, from the start on, and neither
the interval nor the end block nor the common watermark is exceeded. -/
theorem nextMicrobatchEnd_some (hinterval : 1 ≤ query.microbatchMaxInterval)
    (hcommon : ∃ r ∈ snapshot.canonicalRows rows query, r.watermark = common)
    (h : nextMicrobatchEnd rows query snapshot start common = some w) :
    (∃ r ∈ snapshot.canonicalRows rows query, r.watermark = w) ∧ start.number ≤ w.number ∧
      w.number < start.number + query.microbatchMaxInterval ∧ w.number ≤ common.number ∧
      ∀ e ∈ query.endBlock, w.number ≤ e := by
  rcases nextMicrobatchEnd_number h with ⟨hnum, hstart⟩
  refine ⟨nextMicrobatchEnd_canonical hcommon h, hstart, ?_⟩
  unfold microbatchEndNumber at hnum
  -- a limit that wraps around lies below the start
  cases hend : query.endBlock with
  | none =>
    simp only [hend] at hnum
    split at hnum <;> simp only at hnum <;> refine ⟨?_, ?_, by simp⟩ <;> omega
  | some e =>
    simp only [hend] at hnum
    split at hnum <;> simp only at hnum <;> refine ⟨?_, ?_, by simp; omega⟩ <;> omega

end End

/-! ## The start of the range -/

section Start

variable {rows : FileRows} {query : StreamingQuery} {snapshot : Snapshot}

/-- The walk only goes down. -/
theorem forkWalk_le {fuel n m : Nat} {fork : Option BlockRow}
    (h : forkWalk rows query snapshot fuel n fork = some m)
    (hfork : ∀ b ∈ fork, b.number ≤ n) : m ≤ n := by
  induction fuel generalizing n fork with
  | zero => simp [forkWalk] at h
  | succ fuel ih =>
    cases fork with
    | none =>
      simp only [forkWalk, some.injEq] at h
      omega
    | some b =>
      have hb : b.number ≤ n := hfork b rfl
      unfold forkWalk at h
      split at h
      · simp only [some.injEq] at h
        omega
      · refine (ih h ?_).trans hb
        intro c hc
        have hnum := (blocksTableFetch_some (mem_def.mp hc)).2.1
        omega

theorem destinationStart_le (n : Nat) : destinationStart snapshot n ≤ n := by
  unfold destinationStart
  split
  · exact Nat.le_refl _
  split
  · exact Nat.zero_le _
  · rename_i r hr
    have hin := List.find?_some hr
    simp only [Bool.and_eq_true, decide_eq_true_eq] at hin
    exact hin.1

variable {fuel : Nat}

/-- The stream resumes at a canonical block, not above the previous end. -/
theorem reorgBase_le {prev : Watermark} {start : BlockRow}
    (h : reorgBase rows query snapshot fuel prev = some (some start)) :
    start ∈ snapshot.canonicalRows rows query ∧ start.number ≤ prev.number := by
  unfold reorgBase at h
  rcases map_eq_some_iff.mp h with ⟨m, hwalk, hfetch⟩
  rcases canonicalFetch_some hfetch with ⟨hstart, hnum⟩
  have hdest := @destinationStart_le snapshot m
  have hm : m ≤ prev.number := by
    refine forkWalk_le hwalk ?_
    intro b hb
    exact Nat.le_of_eq (blocksTableFetch_some (mem_def.mp hb)).2.1
  exact ⟨hstart, by omega⟩

/-- How a start comes about. -/
theorem nextMicrobatchStart_some {prevWatermark : Option Watermark} {direction : StreamDirection}
    (h : nextMicrobatchStart rows query snapshot fuel prevWatermark = some (some direction)) :
    (prevWatermark = none ∧ ∃ b ∈ snapshot.canonicalRows rows query,
        direction = .forwardFrom b.segmentStart) ∨
      (∃ prev, prevWatermark = some prev ∧ canonicalContains rows query snapshot prev = true ∧
        direction = .forwardFrom ⟨(prev.number + 1) % 2 ^ 64, some prev.hash⟩) ∨
      ∃ prev b, prevWatermark = some prev ∧ canonicalContains rows query snapshot prev = false ∧
        reorgBase rows query snapshot fuel prev = some (some b) ∧
        direction = .reorgFrom b.segmentStart := by
  unfold nextMicrobatchStart at h
  split at h
  · rcases map_eq_some_iff.mp (some.inj h) with ⟨b, hb, rfl⟩
    exact .inl ⟨rfl, b, (canonicalFetch_some hb).1, rfl⟩
  rename_i prev
  split at h
  · rename_i hcontains
    exact .inr (.inl ⟨prev, rfl, hcontains, (some.inj (some.inj h)).symm⟩)
  · rename_i hnot
    rcases map_eq_some_iff.mp h with ⟨block, hbase, hmap⟩
    rcases map_eq_some_iff.mp hmap with ⟨b, rfl, rfl⟩
    exact .inr (.inr ⟨prev, b, rfl, by simpa using hnot, hbase, rfl⟩)

variable (hhashes : BlockHashes rows) (hwf : ∀ s ∈ snapshot.files, WellFormedFile rows s)

include hhashes hwf in
/-- The canonical block after another one, if the chain goes on. -/
theorem canonicalRow_after {p stop : BlockRow} (hp : p ∈ snapshot.canonicalRows rows query)
    (hstop : stop ∈ snapshot.canonicalRows rows query) (hle : p.number + 1 ≤ stop.number) :
    ∃ f ∈ snapshot.canonicalRows rows query, f.segmentStart = ⟨p.number + 1, some p.hash⟩ := by
  have hchain : BlockChain (snapshot.canonicalRows rows query) := canonicalRows_chain hhashes hwf
  rcases hchain.exists_num hp hstop (n := p.number + 1) (by omega) hle with ⟨f, hf, hfnum⟩
  have hlink := hchain.link_of_succ hp hf hfnum
  refine ⟨f, hf, ?_⟩
  unfold BlockRow.segmentStart
  rw [hlink.1, hlink.2]

include hhashes hwf in
/-- The walk along a chain of readable blocks stops right above a canonical block,
or leaves the chain at its lower end. -/
theorem forkWalk_canonical {l : List BlockRow} (hl : BlockChain l)
    (hread : ∀ x ∈ l, x ∈ allRows rows snapshot.forkFiles) {fuel n m : Nat} {b : BlockRow}
    (hb : b ∈ l) (hn : b ∈ snapshot.canonicalRows rows query → n = b.number + 1)
    (h : forkWalk rows query snapshot fuel n (some b) = some m) :
    ∀ x ∈ l, x.number + 1 = m → x ∈ snapshot.canonicalRows rows query := by
  induction fuel generalizing n b with
  | zero => simp [forkWalk] at h
  | succ fuel ih =>
    intro x hx hxm
    unfold forkWalk at h
    split at h
    · rename_i hcontains
      -- `b` is canonical, and `x` has its number
      rcases (canonicalContains_iff hwf).mp hcontains with ⟨r, hr, hrb⟩
      have hrb' : r = b := by
        refine hhashes.eq_of_hash hr (hread b hb) ?_ ?_
        · exact congrArg Watermark.number hrb
        · exact congrArg Watermark.hash hrb
      subst hrb'
      have hnum := hn hr
      simp only [some.injEq] at h
      rw [hl.eq_of_num hx hb (by omega)]
      exact hr
    · by_cases hlow : x.number < b.number
      · -- the parent of `b` is in the chain, and the lookup finds it
        rcases hl.exists_link hx hb hlow with ⟨a, ha, hab⟩
        have hpred : b.number - 1 = a.number := by
          have := hab.1
          omega
        rcases @blocksTableFetch_of_mem rows snapshot.limit snapshot.forkFiles a (hread a ha) with
          ⟨a', ha'⟩
        rcases blocksTableFetch_some ha' with ⟨hmem, hnum, hhash⟩
        have haa : a' = a := hhashes.eq_of_hash hmem (hread a ha) hnum (hhash _ rfl)
        unfold forkFetch at h
        rw [hpred, hab.2, ha', haa] at h
        exact ih ha (fun _ => hab.1) h x hx hxm
      · have hle : m ≤ b.number := by
          refine forkWalk_le h ?_
          intro c hc
          have hnum := (blocksTableFetch_some (mem_def.mp hc)).2.1
          omega
        omega

include hhashes hwf in
/-- After a reorg the stream resumes at a canonical block, not above the previous
end, and all blocks of a chain of readable blocks below it are canonical. -/
theorem reorgBase_some {l : List BlockRow} (hl : BlockChain l)
    (hread : ∀ x ∈ l, x ∈ allRows rows snapshot.files ∧ x ∈ allRows rows snapshot.forkFiles)
    {last : BlockRow} (hlast : last ∈ l)
    (hnot : canonicalContains rows query snapshot last.watermark = false) {start : BlockRow}
    (h : reorgBase rows query snapshot fuel last.watermark = some (some start)) :
    start ∈ snapshot.canonicalRows rows query ∧ start.number ≤ last.number ∧
      ∀ x ∈ l, x.number < start.number → x ∈ snapshot.canonicalRows rows query := by
  rcases reorgBase_le h with ⟨hstart, hle⟩
  unfold reorgBase at h
  rcases map_eq_some_iff.mp h with ⟨m, hwalk, hfetch⟩
  have hnum := (canonicalFetch_some hfetch).2
  have hdest := @destinationStart_le snapshot m
  -- the walk begins at the last block
  rcases @blocksTableFetch_of_mem rows snapshot.limit snapshot.forkFiles last (hread last hlast).2
    with ⟨b, hb⟩
  rcases blocksTableFetch_some hb with ⟨hbmem, hbnum, hbhash⟩
  have hbl : b = last := hhashes.eq_of_hash hbmem (hread last hlast).2 hbnum (hbhash _ rfl)
  subst hbl
  have hwalk' : forkWalk rows query snapshot fuel b.number (some b) = some m := by
    rw [← hb]
    exact hwalk
  have hm : m ≤ b.number := forkWalk_le hwalk' (by simp)
  refine ⟨hstart, hle, ?_⟩
  intro x hx hlt
  have hnc : b ∈ snapshot.canonicalRows rows query → b.number = b.number + 1 := by
    intro hc
    have : canonicalContains rows query snapshot b.watermark = true :=
      (canonicalContains_iff hwf).mpr ⟨b, hc, rfl⟩
    rw [this] at hnot
    cases hnot
  rcases hl.exists_num hx hlast (n := m - 1) (by omega) (by omega) with ⟨y, hy, hym⟩
  have hyc := forkWalk_canonical hhashes hwf hl (fun z hz => (hread z hz).2) hlast hnc hwalk'
    y hy (by omega)
  -- the chain and the canonical one agree below `y`
  rcases canonicalRows_first hwf hyc with ⟨f, hf, hfirst⟩
  exact hl.mem_of_shared (canonicalRows_chain hhashes hwf)
    (fun a ha c hc => hhashes.eq_of_hash (hread a ha).1 hc) hy hyc hx (by omega) hf
    (hfirst x (hread x hx).1)

end Start

/-- How a range comes about. -/
theorem nextMicrobatchRange_some {rows : FileRows} {query : StreamingQuery} {snapshot : Snapshot}
    {fuel : Nat} {prev : Option Watermark} {next : MicrobatchRange} {ready : Bool}
    (h : nextMicrobatchRange rows query snapshot fuel prev = some (some next, ready)) :
    ∃ common stop, latestSrcWatermark rows query snapshot = some common ∧
      nextMicrobatchStart rows query snapshot fuel prev = some (some next.direction) ∧
      nextMicrobatchEnd rows query snapshot next.direction.segmentStart common = some stop ∧
      next.range = ⟨⟨next.direction.segmentStart.number, stop.number⟩, query.network, stop.hash,
        next.direction.segmentStart.prevHash⟩ := by
  unfold nextMicrobatchRange at h
  split at h
  · simp at h
  rename_i common hcommon
  split at h
  · simp at h
  rcases map_eq_some_iff.mp h with ⟨direction, hstart, hrange⟩
  cases direction with
  | none => simp at hrange
  | some direction =>
    simp only [Prod.mk.injEq] at hrange
    rcases map_eq_some_iff.mp hrange.1 with ⟨stop, hstop, rfl⟩
    exact ⟨common, stop, hcommon, hstart, hstop, rfl⟩

end CampNode

import CampNode.Streaming.Query
import CampNode.Core.Transition

/-!
# CampNode.Streaming.Stream — the loop of a streaming query

`StreamingQuery::execute` repeats: wait for table updates, take snapshots of the
tables, find the next range of blocks, execute the query for it, and remember the
end of the range as the previous watermark. Every iteration sees its own
snapshots, so the canonical chain may be another one each time.

A consumer that drops all blocks from the start of a reorg range on holds, at any
time, one chain of blocks that is canonical in the snapshot used last
(`retained`).
-/

namespace CampNode

open List

/-- A microbatch that was sent, and the snapshot it was computed from. -/
structure Microbatch where
  range : BlockRange
  isReorg : Bool
  snapshot : Snapshot

/-- The state of the loop; `sent` has the latest microbatch first. -/
structure Stream where
  prevWatermark : Option Watermark
  /-- The next iteration does not wait for table updates. -/
  ready : Bool
  sent : List Microbatch
  finished : Bool

section Blocks

variable (rows : FileRows) (query : StreamingQuery)

/-- The canonical blocks of a microbatch. -/
def Microbatch.blocks (m : Microbatch) : List BlockRow :=
  between BlockRow.number (m.snapshot.canonicalRows rows query) m.range.start m.range.stop

/-- The blocks that a consumer holds. -/
def retained : List Microbatch → List BlockRow
  | [] => []
  | m :: older =>
      let kept := if m.isReorg
        then (retained older).filter fun r => decide (r.number < m.range.start)
        else retained older
      kept ++ m.blocks rows query

/-- The range has a block, and not more than allowed; it ends neither above the end
block nor above the watermark of a source table. -/
structure Microbatch.InBounds (m : Microbatch) : Prop where
  valid : m.range.Valid
  interval : m.range.stop < m.range.start + query.microbatchMaxInterval
  endBlock : ∀ e ∈ query.endBlock, m.range.stop ≤ e
  sources : ∀ chain ∈ m.snapshot.sources, ∃ w, sourceWatermark rows query m.snapshot chain = some w ∧
    m.range.stop ≤ w.number

end Blocks

namespace Stream

variable (rows : FileRows) (query : StreamingQuery)

/-! ## Steps -/

/-- The query starts, possibly from a watermark that the consumer provides. -/
def Init : StatePred Stream := fun st => st.ready = true ∧ st.sent = [] ∧ st.finished = false

/-- The snapshot can be taken after the ones before: its files hold the blocks of
their ranges, and blocks that were canonical are still readable. -/
structure Follows (sent : List Microbatch) (snapshot : Snapshot) : Prop where
  wellFormed : ∀ s ∈ snapshot.files, WellFormedFile rows s
  readable : ∀ m ∈ sent, ∀ r ∈ m.snapshot.canonicalRows rows query,
    r ∈ allRows rows snapshot.files ∧ r ∈ allRows rows snapshot.forkFiles

/-- An iteration that finds no range. -/
def Wait (snapshot : Snapshot) : Action Stream := fun st st' =>
  ∃ fuel ready, nextMicrobatchRange rows query snapshot fuel st.prevWatermark = some (none, ready) ∧
    st' = { st with ready := ready }

/-- An iteration that sends a microbatch. At the end block the query returns. -/
def Send (snapshot : Snapshot) : Action Stream := fun st st' =>
  ∃ fuel next ready,
    nextMicrobatchRange rows query snapshot fuel st.prevWatermark = some (some next, ready) ∧
    st' = {
      prevWatermark := if some next.range.stop = query.endBlock then st.prevWatermark
        else some next.range.watermark
      ready := ready
      sent := ⟨next.range, next.direction.isReorg, snapshot⟩ :: st.sent
      finished := decide (some next.range.stop = query.endBlock) }

def Next : Action Stream := fun st st' =>
  st.finished = false ∧ ∃ snapshot, Follows rows query st.sent snapshot ∧
    (Wait rows query snapshot st st' ∨ Send rows query snapshot st st')

/-- What a consumer relies on. -/
structure Canonical (st : Stream) : Prop where
  bounds : ∀ m ∈ st.sent, m.InBounds rows query
  path : ∀ m ∈ st.sent, Spans (m.blocks rows query) m.range
  forward : st.sent.IsChain fun m older => m.isReorg = false →
    m.range.start = older.range.stop + 1 ∧ m.range.prevHash = some older.range.hash
  chain : BlockChain (retained rows query st.sent)
  latest : ∀ m ∈ st.sent.head?, ∀ r ∈ retained rows query st.sent,
    r ∈ m.snapshot.canonicalRows rows query

/-- The loop remembers the end of the latest range. -/
structure Inv (st : Stream) : Prop where
  canonical : Canonical rows query st
  prev : st.finished = false → ∀ m ∈ st.sent.head?, st.prevWatermark = some m.range.watermark

/-! ## One iteration -/

variable {rows query}

/-- The blocks that are kept when a range with the given direction is sent. -/
def kept (rows : FileRows) (query : StreamingQuery) (sent : List Microbatch)
    (direction : StreamDirection) : List BlockRow :=
  if direction.isReorg
  then (retained rows query sent).filter fun r => decide (r.number < direction.segmentStart.number)
  else retained rows query sent

/-- The latest microbatch ends the retained blocks. -/
theorem Canonical.retained_last {st : Stream} (h : Canonical rows query st) {m : Microbatch}
    (hm : m ∈ st.sent.head?) :
    ∃ last ∈ (retained rows query st.sent).getLast?, last.watermark = m.range.watermark := by
  rcases (h.path m (mem_of_mem_head? hm)).last with ⟨last, hlast, hnum, hhash⟩
  refine ⟨last, ?_, by simp [BlockRow.watermark, BlockRange.watermark, hnum, hhash]⟩
  cases hsent : st.sent with
  | nil => simp [hsent] at hm
  | cons m' older =>
    have hmm : m' = m := by simpa [hsent] using hm
    subst hmm
    unfold retained
    rw [Option.mem_def] at hlast ⊢
    rw [getLast?_append, hlast]
    rfl

/-- What the start of a range has to do with the canonical chain and the blocks that
are kept. -/
structure Resumes (rows : FileRows) (query : StreamingQuery) (snapshot : Snapshot)
    (sent : List Microbatch) (direction : StreamDirection) : Prop where
  row : ∃ f ∈ snapshot.canonicalRows rows query, f.segmentStart = direction.segmentStart
  chain : BlockChain (kept rows query sent direction)
  canonical : ∀ r ∈ kept rows query sent direction, r ∈ snapshot.canonicalRows rows query
  joins : ∀ r ∈ (kept rows query sent direction).getLast?,
    direction.segmentStart.number = r.number + 1
  forward : direction.isReorg = false → ∀ m ∈ sent.head?,
    direction.segmentStart = ⟨m.range.stop + 1, some m.range.hash⟩

/-- While nothing was sent, any canonical row will do. -/
theorem resumes_of_nil {snapshot : Snapshot} {direction : StreamDirection} {f : BlockRow}
    (hf : f ∈ snapshot.canonicalRows rows query)
    (hrow : f.segmentStart = direction.segmentStart) :
    Resumes rows query snapshot [] direction := by
  have hkept : kept rows query [] direction = [] := by simp [kept, retained]
  refine ⟨⟨f, hf, hrow⟩, ?_, ?_, ?_, ?_⟩
  · rw [hkept]
    exact List.IsChain.nil
  · simp [hkept]
  · simp [hkept]
  · simp

section Iteration

variable (hhashes : BlockHashes rows) (hbound : ∀ s, ∀ r ∈ rows s, r.number + 1 < 2 ^ 64)
  {st : Stream} (hinv : Inv rows query st) (hrun : st.finished = false) {snapshot : Snapshot}
  (hfollows : Follows rows query st.sent snapshot)

include hinv hfollows in
theorem retained_readable : ∀ r ∈ retained rows query st.sent,
    r ∈ allRows rows snapshot.files ∧ r ∈ allRows rows snapshot.forkFiles := by
  intro r hr
  cases hsent : st.sent with
  | nil => simp [hsent, retained] at hr
  | cons m older =>
    have hm : m ∈ st.sent.head? := by simp [hsent]
    exact hfollows.readable m (mem_of_mem_head? hm) r (hinv.canonical.latest m hm r hr)

include hinv hrun in
/-- Nothing was sent yet, or the previous watermark is the last retained block. -/
theorem sent_nil_or_last : st.sent = [] ∨ ∃ m ∈ st.sent.head?,
    ∃ last ∈ (retained rows query st.sent).getLast?,
      last.watermark = m.range.watermark ∧ st.prevWatermark = some last.watermark := by
  cases hhead : st.sent.head? with
  | none => exact .inl (head?_eq_none_iff.mp hhead)
  | some m =>
    rcases hinv.canonical.retained_last hhead with ⟨last, hlast, hw⟩
    refine .inr ⟨m, rfl, last, hlast, hw, ?_⟩
    rw [hw]
    exact hinv.prev hrun m hhead

include hhashes hbound hinv hrun hfollows in
/-- The stream continues right after the previous watermark. -/
theorem resumes_forward {prev : Watermark} (hprev : st.prevWatermark = some prev)
    (hcontains : canonicalContains rows query snapshot prev = true) {stop : BlockRow}
    (hstop : stop ∈ snapshot.canonicalRows rows query)
    (hle : (prev.number + 1) % 2 ^ 64 ≤ stop.number) :
    Resumes rows query snapshot st.sent
      (.forwardFrom ⟨(prev.number + 1) % 2 ^ 64, some prev.hash⟩) := by
  have hchain : BlockChain (snapshot.canonicalRows rows query) :=
    canonicalRows_chain hhashes hfollows.wellFormed
  rcases (canonicalContains_iff hfollows.wellFormed).mp hcontains with ⟨p, hp, rfl⟩
  have hmod : (p.watermark.number + 1) % 2 ^ 64 = p.number + 1 := by
    rcases mem_allRows.mp hp with ⟨s, -, hs⟩
    exact Nat.mod_eq_of_lt (hbound s p hs)
  rw [hmod] at hle ⊢
  rcases canonicalRow_after hhashes hfollows.wellFormed hp hstop hle with ⟨f, hf, hrow⟩
  have hread := retained_readable hinv hfollows
  rcases sent_nil_or_last hinv hrun with hnil | ⟨m, hm, last, hlast, hw, hlastprev⟩
  · -- resumed from a watermark of the consumer: nothing is retained
    rw [hnil]
    exact resumes_of_nil hf hrow
  have hlmem := mem_of_mem_getLast? hlast
  have hpw : p.watermark = last.watermark := Option.some.inj (hprev.symm.trans hlastprev)
  have hpl : p = last := hhashes.eq_of_hash hp (hread last hlmem).1
    (congrArg Watermark.number hpw) (congrArg Watermark.hash hpw)
  subst hpl
  refine ⟨⟨f, hf, hrow⟩, hinv.canonical.chain, ?_, ?_, ?_⟩
  · intro r hr
    rcases canonicalRows_first hfollows.wellFormed hp with ⟨g, hg, hfirst⟩
    exact hinv.canonical.chain.mem_of_shared hchain
      (fun a ha c hc => hhashes.eq_of_hash (hread a ha).1 hc) hlmem hp hr
      (hinv.canonical.chain.num_le_of_getLast hlast hr) hg (hfirst r (hread r hr).1)
  · intro r hr
    rw [Option.some.inj ((Option.mem_def.mp hr).symm.trans (Option.mem_def.mp hlast))]
    rfl
  · intro _ m' hm'
    have hmm : m' = m := Option.some.inj ((Option.mem_def.mp hm').symm.trans (Option.mem_def.mp hm))
    subst hmm
    have hnum : p.number = m'.range.stop := congrArg Watermark.number hw
    have hhash : p.hash = m'.range.hash := congrArg Watermark.hash hw
    show SegmentStart.mk (p.number + 1) (some p.hash) = _
    rw [hnum, hhash]

include hhashes hinv hrun hfollows in
/-- The stream rewinds to a block up to which the retained blocks are canonical. -/
theorem resumes_reorg {prev : Watermark} (hprev : st.prevWatermark = some prev)
    (hnot : canonicalContains rows query snapshot prev = false) {fuel : Nat} {start : BlockRow}
    (hbase : reorgBase rows query snapshot fuel prev = some (some start)) :
    Resumes rows query snapshot st.sent (.reorgFrom start.segmentStart) := by
  rcases sent_nil_or_last hinv hrun with hnil | ⟨m, hm, last, hlast, hw, hlastprev⟩
  · rw [hnil]
    exact resumes_of_nil (reorgBase_le hbase).1 rfl
  cases Option.some.inj (hprev.symm.trans hlastprev)
  have hlmem := mem_of_mem_getLast? hlast
  have hchain := hinv.canonical.chain
  rcases reorgBase_some hhashes hfollows.wellFormed hchain (retained_readable hinv hfollows)
    hlmem hnot hbase with ⟨hstart, hle, hbelow⟩
  have hmem : ∀ r, r ∈ kept rows query st.sent (.reorgFrom start.segmentStart) ↔
      r ∈ retained rows query st.sent ∧ r.number < start.number := by
    intro r
    show r ∈ (retained rows query st.sent).filter (fun r => decide (r.number < start.number)) ↔ _
    simp
  have hkept : BlockChain (kept rows query st.sent (.reorgFrom start.segmentStart)) :=
    hchain.filter_lt start.number
  refine ⟨⟨start, hstart, rfl⟩, hkept, ?_, ?_, ?_⟩
  · intro r hr
    rcases (hmem r).mp hr with ⟨hr, hlt⟩
    exact hbelow r hr hlt
  · -- the retained blocks have no gap below the start
    intro r hr
    rcases (hmem r).mp (mem_of_mem_getLast? hr) with ⟨hrl, hlt⟩
    rcases hchain.exists_num hrl hlmem (n := start.number - 1) (by omega) (by omega) with
      ⟨y, hy, hynum⟩
    have hyr := hkept.num_le_of_getLast hr ((hmem y).mpr ⟨hy, by omega⟩)
    show start.number = r.number + 1
    omega
  · intro h
    cases h

include hhashes hbound hinv hrun hfollows in
theorem resumes_of_start {fuel : Nat} {direction : StreamDirection}
    (h : nextMicrobatchStart rows query snapshot fuel st.prevWatermark = some (some direction))
    {stop : BlockRow} (hstop : stop ∈ snapshot.canonicalRows rows query)
    (hle : direction.segmentStart.number ≤ stop.number) :
    Resumes rows query snapshot st.sent direction := by
  rcases nextMicrobatchStart_some h with ⟨hprev, b, hb, rfl⟩ | ⟨prev, hprev, hcontains, rfl⟩ |
    ⟨prev, b, hprev, hnot, hbase, rfl⟩
  · -- a stream without a watermark has sent nothing
    have hnil : st.sent = [] := by
      rcases sent_nil_or_last hinv hrun with hnil | ⟨m, hm, last, hlast, hw, hlastprev⟩
      · exact hnil
      · rw [hprev] at hlastprev
        cases hlastprev
    rw [hnil]
    exact resumes_of_nil hb rfl
  · exact resumes_forward hhashes hbound hinv hrun hfollows hprev hcontains hstop hle
  · exact resumes_reorg hhashes hinv hrun hfollows hprev hnot hbase

include hhashes hbound hinv hrun hfollows in
theorem send_inv (hinterval : 1 ≤ query.microbatchMaxInterval) {st' : Stream}
    (hsend : Send rows query snapshot st st') : Inv rows query st' := by
  rcases hsend with ⟨fuel, next, ready, hnext, rfl⟩
  rcases nextMicrobatchRange_some hnext with ⟨common, stop, hcommon, hstart, hend, hrange⟩
  have hchain : BlockChain (snapshot.canonicalRows rows query) :=
    canonicalRows_chain hhashes hfollows.wellFormed
  rcases latestSrcWatermark_some hcommon with ⟨⟨source, -, hsource⟩, hsources⟩
  have hcanon : ∃ r ∈ snapshot.canonicalRows rows query, r.watermark = common :=
    (canonicalContains_iff hfollows.wellFormed).mp (find?_some hsource)
  rcases nextMicrobatchEnd_some hinterval hcanon hend with
    ⟨⟨e, he, rfl⟩, hle, hint, hcom, hendBlock⟩
  have hres := resumes_of_start hhashes hbound hinv hrun hfollows hstart he hle
  rcases hres.row with ⟨f, hf, hfstart⟩
  have hfnum : f.number = next.range.start := by
    rw [hrange]
    exact congrArg SegmentStart.number hfstart
  have hfprev : f.prevHash = next.range.prevHash := by
    rw [hrange]
    exact congrArg SegmentStart.prevHash hfstart
  have henum : e.number = next.range.stop := by rw [hrange]; rfl
  have hehash : e.hash = next.range.hash := by rw [hrange]; rfl
  have hstartnum : next.direction.segmentStart.number = next.range.start := by rw [hrange]; rfl
  have hvalid : next.range.start ≤ next.range.stop := by
    rw [← hstartnum, ← henum]
    exact hle
  let m : Microbatch := ⟨next.range, next.direction.isReorg, snapshot⟩
  have hspans : Spans (m.blocks rows query) m.range :=
    ⟨hchain.between _ _, ⟨f, hchain.head_between hf hfnum hvalid, hfnum, hfprev⟩,
      ⟨e, hchain.getLast_between he henum hvalid, henum, hehash⟩⟩
  have hretained : retained rows query (m :: st.sent) =
      kept rows query st.sent next.direction ++ m.blocks rows query := by
    unfold kept
    rw [hstartnum]
    rfl
  have hblocks : ∀ r ∈ m.blocks rows query, r ∈ snapshot.canonicalRows rows query :=
    fun r hr => (mem_between.mp hr).1
  refine ⟨⟨?_, ?_, ?_, ?_, ?_⟩, ?_⟩
  · intro x hx
    rcases mem_cons.mp hx with rfl | hx
    · refine ⟨hvalid, ?_, ?_, ?_⟩
      · show next.range.stop < next.range.start + _
        rw [← henum, ← hstartnum]
        exact hint
      · intro b hb
        show next.range.stop ≤ b
        rw [← henum]
        exact hendBlock b hb
      · intro chain hc
        rcases hsources chain hc with ⟨w, hw, hwle⟩
        refine ⟨w, hw, ?_⟩
        show next.range.stop ≤ w.number
        rw [← henum]
        exact hcom.trans hwle
    · exact hinv.canonical.bounds x hx
  · intro x hx
    rcases mem_cons.mp hx with rfl | hx
    · exact hspans
    · exact hinv.canonical.path x hx
  · refine isChain_cons.mpr ⟨?_, hinv.canonical.forward⟩
    intro older holder hforward
    have hseg := hres.forward hforward older holder
    rw [hrange, hseg]
    exact ⟨rfl, rfl⟩
  · show BlockChain (retained rows query (m :: st.sent))
    rw [hretained]
    refine hchain.append_of_mem hres.chain hspans.chain hres.canonical hblocks ?_
    intro a ha b hb
    have hbf : b = f := Option.some.inj ((Option.mem_def.mp hb).symm.trans
      (Option.mem_def.mp (hchain.head_between hf hfnum hvalid)))
    rw [hbf, hfnum, ← hstartnum]
    exact hres.joins a ha
  · intro x hx r hr
    cases hx
    have hr' : r ∈ retained rows query (m :: st.sent) := hr
    rw [hretained] at hr'
    rcases mem_append.mp hr' with hr' | hr'
    · exact hres.canonical r hr'
    · exact hblocks r hr'
  · intro hfin x hx
    cases hx
    have hne : ¬ some next.range.stop = query.endBlock := by simpa using hfin
    show (if _ then _ else _) = _
    rw [if_neg hne]

end Iteration

/-! ## Runs -/

theorem init_inv : ∀ st, Init st → Inv rows query st := by
  rintro st ⟨-, hnil, -⟩
  refine ⟨⟨?_, ?_, ?_, ?_, ?_⟩, ?_⟩
  · simp [hnil]
  · simp [hnil]
  · rw [hnil]
    exact List.IsChain.nil
  · rw [hnil]
    exact List.IsChain.nil
  · simp [hnil]
  · simp [hnil]

theorem step_inv (hhashes : BlockHashes rows) (hbound : ∀ s, ∀ r ∈ rows s, r.number + 1 < 2 ^ 64)
    (hinterval : 1 ≤ query.microbatchMaxInterval) :
    ∀ st st', Next rows query st st' → Inv rows query st → Inv rows query st' := by
  rintro st st' ⟨hrun, snapshot, hfollows, hwait | hsend⟩ hinv
  · -- only the flag changes
    rcases hwait with ⟨fuel, ready, -, rfl⟩
    exact { hinv with canonical := { hinv.canonical with } }
  · exact send_inv hhashes hbound hinv hrun hfollows hinterval hsend

/-- Whatever snapshots a query sees, its ranges are paths of the canonical chain
within the bounds, forward ranges continue the previous one, and the retained blocks
form one chain that is canonical in the latest snapshot; block numbers must have a
successor in `u64`. -/
theorem stream_canonical (hhashes : BlockHashes rows)
    (hbound : ∀ s, ∀ r ∈ rows s, r.number + 1 < 2 ^ 64)
    (hinterval : 1 ≤ query.microbatchMaxInterval) {st : Stream}
    (hst : Reachable Init (Next rows query) st) : Canonical rows query st :=
  (init_invariant Init (Next rows query) (Inv rows query) init_inv
    (step_inv hhashes hbound hinterval) st hst).canonical

/-! ### A reorg -/

/-- It suffices to look at a list of all blocks. -/
theorem blockHashes_of_list {rows : FileRows} (l : List BlockRow) (hrows : ∀ s, ∀ r ∈ rows s, r ∈ l)
    (hid : ∀ r ∈ l, ∀ r' ∈ l, r.number = r'.number → r.hash = r'.hash → r = r')
    (hparent : ∀ r ∈ l, 0 < r.number → r.prevHash ≠ none) : BlockHashes rows where
  identified s t r hr r' hr' := hid r (hrows s r hr) r' (hrows t r' hr')
  parented s r hr := hparent r (hrows s r hr)

/-- A file of the network, newer than those with a smaller id. -/
def exampleFile (id start stop : Nat) (hash : BlockHash) (prevHash : Option BlockHash) : Segment :=
  ⟨id, ⟨⟨start, stop⟩, "net", hash, prevHash⟩, ⟨id⟩⟩

def forkedBase : Segment := exampleFile 1 0 1 11 none
def forkedOld : Segment := exampleFile 2 2 3 13 (some 11)
def forkedNew : Segment := exampleFile 3 2 4 24 (some 11)

def forkedRows : FileRows := fun s =>
  match s.id with
  | 1 => [⟨0, 10, none⟩, ⟨1, 11, some 10⟩]
  | 2 => [⟨2, 12, some 11⟩, ⟨3, 13, some 12⟩]
  | 3 => [⟨2, 22, some 11⟩, ⟨3, 23, some 22⟩, ⟨4, 24, some 23⟩]
  | _ => []

def forkedQuery : StreamingQuery := ⟨0, none, 100, "net", none⟩

def beforeFork : Snapshot :=
  ⟨[forkedBase, forkedOld], insertionSort _, [forkedBase, forkedOld], limitFirst,
    [[forkedBase, forkedOld]], none⟩

def afterFork : Snapshot :=
  ⟨[forkedBase, forkedOld, forkedNew], insertionSort _, [forkedBase, forkedOld, forkedNew],
    limitFirst, [[forkedBase, forkedNew]], none⟩

def forkedBlocks : List BlockRow :=
  [⟨0, 10, none⟩, ⟨1, 11, some 10⟩, ⟨2, 12, some 11⟩, ⟨3, 13, some 12⟩, ⟨2, 22, some 11⟩,
    ⟨3, 23, some 22⟩, ⟨4, 24, some 23⟩]

theorem forkedRows_mem : ∀ s, ∀ r ∈ forkedRows s, r ∈ forkedBlocks := by
  intro s r hr
  unfold forkedRows at hr
  split at hr <;> simp at hr <;> simp [forkedBlocks] <;> tauto

theorem forkedRows_hashes : BlockHashes forkedRows :=
  blockHashes_of_list forkedBlocks forkedRows_mem (by decide) (by decide)

theorem forked_wellFormed :
    ∀ s ∈ [forkedBase, forkedOld, forkedNew], WellFormedFile forkedRows s := by
  intro s hs
  simp only [mem_cons, not_mem_nil, or_false] at hs
  rcases hs with rfl | rfl | rfl
  · exact ⟨by simp [forkedRows, forkedBase, exampleFile, HashChain, Link],
      ⟨_, rfl, rfl, rfl⟩, ⟨_, rfl, rfl, rfl⟩⟩
  · exact ⟨by simp [forkedRows, forkedOld, exampleFile, HashChain, Link],
      ⟨_, rfl, rfl, rfl⟩, ⟨_, rfl, rfl, rfl⟩⟩
  · exact ⟨by simp [forkedRows, forkedNew, exampleFile, HashChain, Link],
      ⟨_, rfl, rfl, rfl⟩, ⟨_, rfl, rfl, rfl⟩⟩

/-- The stream after a forward range and a reorg range. -/
def forkedStream : Stream where
  prevWatermark := some ⟨4, 24⟩
  ready := false
  sent := [⟨⟨⟨2, 4⟩, "net", 24, some 11⟩, true, afterFork⟩,
    ⟨⟨⟨0, 3⟩, "net", 13, none⟩, false, beforeFork⟩]
  finished := false

theorem forkedStream_reachable : Reachable Init (Next forkedRows forkedQuery) forkedStream := by
  have hinit : Reachable Init (Next forkedRows forkedQuery) ⟨none, true, [], false⟩ :=
    .init ⟨rfl, rfl, rfl⟩
  have hfirst : Reachable Init (Next forkedRows forkedQuery)
      ⟨some ⟨3, 13⟩, false, [⟨⟨⟨0, 3⟩, "net", 13, none⟩, false, beforeFork⟩], false⟩ := by
    refine .step hinit ⟨rfl, beforeFork, ⟨?_, by simp⟩, .inr ?_⟩
    · intro s hs
      exact forked_wellFormed s (mem_of_mem_take (i := 2) hs)
    · exact ⟨1, ⟨⟨⟨0, 3⟩, "net", 13, none⟩, .forwardFrom ⟨0, none⟩⟩, false, by decide, rfl⟩
  refine .step hfirst ⟨rfl, afterFork, ⟨forked_wellFormed, ?_⟩, .inr ?_⟩
  · intro m hm
    cases mem_singleton.mp hm
    decide
  · exact ⟨4, ⟨⟨⟨2, 4⟩, "net", 24, some 11⟩, .reorgFrom ⟨2, some 11⟩⟩, false, by decide, rfl⟩

theorem forkedStream_canonical : retained forkedRows forkedQuery forkedStream.sent =
        [⟨0, 10, none⟩, ⟨1, 11, some 10⟩, ⟨2, 22, some 11⟩, ⟨3, 23, some 22⟩, ⟨4, 24, some 23⟩] ∧
      Canonical forkedRows forkedQuery forkedStream :=
  ⟨by decide, stream_canonical forkedRows_hashes
    (fun s r hr => (by decide : ∀ r ∈ forkedBlocks, r.number + 1 < 2 ^ 64) r (forkedRows_mem s r hr))
    (by decide) forkedStream_reachable⟩

/-! ### The last block number -/

/-- The last two blocks that `u64` has room for. -/
def lastFile : Segment := exampleFile 1 (2 ^ 64 - 2) (2 ^ 64 - 1) 2 (some 0)

def lastBlocks : List BlockRow := [⟨2 ^ 64 - 2, 1, some 0⟩, ⟨2 ^ 64 - 1, 2, some 1⟩]

def lastRows : FileRows := fun s => if s.id = 1 then lastBlocks else []

def lastQuery : StreamingQuery := ⟨2 ^ 64 - 2, none, 2 ^ 64 - 1, "net", none⟩

def lastSnapshot : Snapshot :=
  ⟨[lastFile], insertionSort _, [lastFile], limitFirst, [[lastFile]], none⟩

theorem lastRows_hashes : BlockHashes lastRows := by
  refine blockHashes_of_list lastBlocks ?_ (by decide) (by decide)
  intro s r hr
  unfold lastRows at hr
  split at hr
  · exact hr
  · simp at hr

/-- Resumed from the last block number, the sum wraps around: a forward range from
block 0 on is sent, which is no path of the canonical chain. -/
theorem stream_wraps_at_last_block : BlockHashes lastRows ∧ 1 ≤ lastQuery.microbatchMaxInterval ∧
      ∃ st, Reachable Init (Next lastRows lastQuery) st ∧ ¬ Canonical lastRows lastQuery st := by
  refine ⟨lastRows_hashes, by decide, ?_⟩
  let range : BlockRange := ⟨⟨0, 2 ^ 64 - 2⟩, "net", 1, some 2⟩
  refine ⟨⟨some ⟨2 ^ 64 - 2, 1⟩, true, [⟨range, false, lastSnapshot⟩], false⟩, ?_, ?_⟩
  · have hinit : Reachable Init (Next lastRows lastQuery)
        ⟨some ⟨2 ^ 64 - 1, 2⟩, true, [], false⟩ := .init ⟨rfl, rfl, rfl⟩
    refine .step hinit ⟨rfl, lastSnapshot, ⟨?_, by simp⟩, .inr ?_⟩
    · intro s hs
      cases mem_singleton.mp hs
      exact ⟨by simp [lastRows, lastBlocks, lastFile, exampleFile, HashChain, Link],
        ⟨_, rfl, rfl, rfl⟩, ⟨_, rfl, rfl, rfl⟩⟩
    · exact ⟨1, ⟨range, .forwardFrom ⟨0, some 2⟩⟩, true, by decide, rfl⟩
  · intro h
    rcases (h.path _ (mem_singleton.mpr rfl)).first with ⟨r, hr, hnum, -⟩
    have hblocks : (Microbatch.mk range false lastSnapshot).blocks lastRows lastQuery =
        [⟨2 ^ 64 - 2, 1, some 0⟩] := by decide
    rw [hblocks] at hr
    cases hr
    exact absurd hnum (by decide)

end Stream

end CampNode

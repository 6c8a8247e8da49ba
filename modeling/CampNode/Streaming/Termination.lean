import CampNode.Streaming.Stream

/-!
# CampNode.Streaming.Termination — when a streaming query returns

`execute` compares the end of a range with the end block after it has sent the range, and
nowhere else. An iteration without a range waits for the next table update.

* `finished_of_reached` — a query that starts below its end block returns as soon as a range
  reaches it. Ranges never go beyond the end block.
* `wait_beyond_end`, `resumed_never_returns` — a query that is resumed from a canonical block
  at or above its end block finds no range, and waits as long as that block is canonical.

`dump_table` resumes a table at the end of its canonical chain, wherever the end block is.
-/

namespace CampNode

/-- The watermark that `dump_table` resumes a table from. -/
def resumeWatermark (canonical : Option Chain) : Option Watermark :=
  canonical.map fun chain => chain.last.watermark

/-- The watermark is at or above the end block. -/
def StreamingQuery.Reached (query : StreamingQuery) (w : Watermark) : Prop :=
  ∃ e ∈ query.endBlock, e ≤ w.number

namespace Stream

variable {rows : FileRows} {query : StreamingQuery} {snapshot : Snapshot}

/-! ## Ranges and the end block -/

theorem microbatchEndNumber_le {e : Nat} (he : e ∈ query.endBlock) (start common : Nat) :
    (microbatchEndNumber query start common).1 ≤ e := by
  rw [Option.mem_def] at he
  unfold microbatchEndNumber
  simp only [he]
  split
  · simp only
    omega
  · exact Nat.min_le_right ..

/-- A range does not go beyond the end block. -/
theorem range_le_endBlock {fuel : Nat} {prev : Option Watermark} {next : MicrobatchRange} {ready : Bool}
    (h : nextMicrobatchRange rows query snapshot fuel prev = some (some next, ready)) {e : Nat}
    (he : e ∈ query.endBlock) : next.range.stop ≤ e := by
  rcases nextMicrobatchRange_some h with ⟨common, stop, -, -, hend, hrange⟩
  have hstop : next.range.stop = stop.number := by
    rw [hrange]
    rfl
  rw [hstop, (nextMicrobatchEnd_number hend).1]
  exact microbatchEndNumber_le he _ _

/-! ## Queries that start below the end block -/

/-- An iteration on any snapshot. -/
def AnyNext (rows : FileRows) (query : StreamingQuery) : Action Stream := fun st st' =>
  st.finished = false ∧ ∃ snapshot,
    Wait rows query snapshot st st' ∨ Send rows query snapshot st st'

/-- The query starts without a watermark, or with one below the end block. -/
def InitBelow (query : StreamingQuery) : StatePred Stream := fun st =>
  Init st ∧ ∀ w ∈ st.prevWatermark, ¬ query.Reached w

/-- The loop goes on only below the end block. -/
structure Below (query : StreamingQuery) (st : Stream) : Prop where
  prev : ∀ w ∈ st.prevWatermark, ¬ query.Reached w
  sent : st.finished = false → ∀ m ∈ st.sent.head?, ¬ query.Reached m.range.watermark

theorem send_below {st st' : Stream} (h : Below query st) (hsend : Send rows query snapshot st st') :
    Below query st' := by
  rcases hsend with ⟨fuel, next, ready, hnext, rfl⟩
  -- a range that reaches the end block ends exactly there
  have hreached : query.Reached next.range.watermark → some next.range.stop = query.endBlock := by
    rintro ⟨e, he, hle⟩
    have hstop := range_le_endBlock hnext he
    have heq : next.range.stop = e := Nat.le_antisymm hstop hle
    rw [heq]
    exact (Option.mem_def.mp he).symm
  constructor
  · intro w hw
    simp only at hw
    split at hw
    · exact h.prev w hw
    · rename_i hne
      cases hw
      exact fun hr => hne (hreached hr)
  · intro hrun m hm hr
    cases hm
    have hne : ¬ some next.range.stop = query.endBlock := of_decide_eq_false hrun
    exact hne (hreached hr)

theorem step_below {st st' : Stream} (hstep : AnyNext rows query st st') (h : Below query st) :
    Below query st' := by
  rcases hstep with ⟨-, snapshot, hwait | hsend⟩
  · rcases hwait with ⟨fuel, ready, -, rfl⟩
    exact ⟨h.prev, h.sent⟩
  · exact send_below h hsend

/-- Whatever the snapshots, a query that starts below its end block has returned once its watermark
or the latest range reaches the end block. -/
theorem finished_of_reached (rows : FileRows) (query : StreamingQuery) (st : Stream)
    (hst : Reachable (InitBelow query) (AnyNext rows query) st)
    (hreached : (∃ w ∈ st.prevWatermark, query.Reached w) ∨
      ∃ m ∈ st.sent.head?, query.Reached m.range.watermark) : st.finished = true := by
  have hbelow : Below query st := by
    refine init_invariant (InitBelow query) (AnyNext rows query) (Below query) ?_ ?_ st hst
    · rintro s ⟨⟨-, hnil, -⟩, hprev⟩
      exact ⟨hprev, by simp [hnil]⟩
    · exact fun s s' hstep h => step_below hstep h
  rcases hreached with ⟨w, hw, hr⟩ | ⟨m, hm, hr⟩
  · exact absurd hr (hbelow.prev w hw)
  · by_contra hrun
    exact hbelow.sent (by simpa using hrun) m hm hr

/-- The query of `forkedQuery` up to block 3. -/
def endQuery : StreamingQuery := { forkedQuery with endBlock := some 3 }

/-- It sends one range and returns. -/
theorem finished_of_reached_sent :
    ∃ st, Reachable (InitBelow endQuery) (AnyNext forkedRows endQuery) st ∧
      st.sent.map (·.range.stop) = [3] ∧ st.finished = true := by
  have hinit : Reachable (InitBelow endQuery) (AnyNext forkedRows endQuery)
      ⟨none, true, [], false⟩ :=
    .init ⟨⟨rfl, rfl, rfl⟩, nofun⟩
  have hsent : Reachable (InitBelow endQuery) (AnyNext forkedRows endQuery)
      ⟨none, false, [⟨⟨⟨0, 3⟩, "net", 13, none⟩, false, beforeFork⟩], true⟩ := by
    refine .step hinit ⟨rfl, beforeFork, .inr ?_⟩
    exact ⟨1, ⟨⟨⟨0, 3⟩, "net", 13, none⟩, .forwardFrom ⟨0, none⟩⟩, false, by decide, rfl⟩
  refine ⟨_, hsent, rfl, finished_of_reached _ _ _ hsent (.inr ⟨_, rfl, 3, rfl, ?_⟩)⟩
  exact Nat.le_refl 3

/-! ## Queries that are resumed at the end block -/

/-- Beyond the end block there is no range, and the interval is not what limits it. -/
theorem microbatchEnd_beyond_end {start : SegmentStart} {e : Nat} (he : e ∈ query.endBlock)
    (hlt : e < start.number) (hinterval : 1 ≤ query.microbatchMaxInterval)
    (hbound : start.number + query.microbatchMaxInterval ≤ 2 ^ 64) (common : Watermark) :
    nextMicrobatchEnd rows query snapshot start common = none ∧
      (microbatchEndNumber query start.number common.number).2 = false := by
  have hnumber := microbatchEndNumber_le he start.number common.number
  constructor
  · unfold nextMicrobatchEnd
    simp only
    rw [if_pos (by omega)]
  · rw [Option.mem_def] at he
    unfold microbatchEndNumber
    simp only [he]
    rw [if_neg]
    omega

/-- Resumed from a canonical block at or above the end block, an iteration finds no range and the
next one waits. -/
theorem wait_beyond_end {w : Watermark} (hreached : query.Reached w)
    (hinterval : 1 ≤ query.microbatchMaxInterval)
    (hbound : w.number + 1 + query.microbatchMaxInterval ≤ 2 ^ 64)
    (hcontains : canonicalContains rows query snapshot w = true) (fuel : Nat) :
    nextMicrobatchRange rows query snapshot fuel (some w) = some (none, false) := by
  obtain ⟨e, he, hle⟩ := hreached
  have hstart : nextMicrobatchStart rows query snapshot fuel (some w) =
      some (some (.forwardFrom ⟨w.number + 1, some w.hash⟩)) := by
    unfold nextMicrobatchStart
    simp only [hcontains, if_true]
    rw [Nat.mod_eq_of_lt (by omega)]
  unfold nextMicrobatchRange
  split
  · rfl
  rename_i common hcommon
  split
  · rfl
  have hlt : e < (SegmentStart.mk (w.number + 1) (some w.hash)).number := Nat.lt_succ_of_le hle
  obtain ⟨hnone, hready⟩ :=
    @microbatchEnd_beyond_end rows query snapshot _ e he hlt hinterval hbound common
  rw [hstart]
  simp only [Option.map_some, StreamDirection.segmentStart, hnone, Option.map_none]
  simp only at hready
  rw [hready]

/-- The steps on snapshots in which the block is canonical. -/
def NextOn (rows : FileRows) (query : StreamingQuery) (w : Watermark) : Action Stream := fun st st' =>
  st.finished = false ∧ ∃ snapshot,
    canonicalContains rows query snapshot w = true ∧
    (Wait rows query snapshot st st' ∨ Send rows query snapshot st st')

/-- It never returns as long as the block is canonical. -/
theorem resumed_never_returns {w : Watermark} (hreached : query.Reached w)
    (hinterval : 1 ≤ query.microbatchMaxInterval)
    (hbound : w.number + 1 + query.microbatchMaxInterval ≤ 2 ^ 64) {st : Stream}
    (hst : Reachable (fun st => Init st ∧ st.prevWatermark = some w) (NextOn rows query w) st) :
    st.finished = false ∧ st.sent = [] := by
  have hinv : st.prevWatermark = some w ∧ st.finished = false ∧ st.sent = [] := by
    refine init_invariant _ _ (fun st => st.prevWatermark = some w ∧ st.finished = false ∧ st.sent = [])
      ?_ ?_ st hst
    · rintro s ⟨⟨-, hnil, hrun⟩, hprev⟩
      exact ⟨hprev, hrun, hnil⟩
    rintro s s' ⟨-, snapshot, hcontains, hstep⟩ ⟨hprev, hrun, hnil⟩
    rcases hstep with ⟨fuel, ready, -, rfl⟩ | ⟨fuel, next, ready, hnext, -⟩
    · exact ⟨hprev, hrun, hnil⟩
    · rw [hprev, wait_beyond_end hreached hinterval hbound hcontains] at hnext
      cases hnext
  exact hinv.2

theorem beforeFork_follows : Follows forkedRows endQuery [] beforeFork := by
  refine ⟨?_, by simp⟩
  intro s hs
  exact forked_wellFormed s (List.mem_of_mem_take (i := 2) hs)

/-- A table has been dumped up to its end block 3. Dumped again, it waits for updates that the
query has no use for, and returns after none of them. -/
theorem resumed_at_end_waits :
    resumeWatermark (canonicalChain beforeFork.sort beforeFork.files) = some ⟨3, 13⟩ ∧
      endQuery.Reached ⟨3, 13⟩ ∧
      Reachable (fun st => Init st ∧ st.prevWatermark = some ⟨3, 13⟩) (Next forkedRows endQuery)
        ⟨some ⟨3, 13⟩, false, [], false⟩ ∧
      ∀ st, Reachable (fun st => Init st ∧ st.prevWatermark = some ⟨3, 13⟩)
        (NextOn forkedRows endQuery ⟨3, 13⟩) st → st.finished = false := by
  have hreached : endQuery.Reached ⟨3, 13⟩ := ⟨3, rfl, Nat.le_refl 3⟩
  refine ⟨by decide, hreached, ?_, ?_⟩
  · have hinit : Reachable (fun st => Init st ∧ st.prevWatermark = some ⟨3, 13⟩) (Next forkedRows endQuery)
        ⟨some ⟨3, 13⟩, true, [], false⟩ := .init ⟨⟨rfl, rfl, rfl⟩, rfl⟩
    refine .step hinit ⟨rfl, beforeFork, beforeFork_follows, .inl ⟨0, false, ?_, rfl⟩⟩
    exact wait_beyond_end hreached (by decide) (by decide) (by decide) 0
  · intro st hst
    exact (resumed_never_returns hreached (by decide) (by decide) hst).1

end Stream

end CampNode

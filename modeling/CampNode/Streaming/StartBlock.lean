import CampNode.Streaming.Stream

/-!
# CampNode.Streaming.StartBlock — ranges and the start block of the query

A fresh stream starts at the start block of its query. Afterwards the start block is compared with
the common watermark only, and a range may begin before it: the walk of `reorg_base` ends at the
lowest orphaned block, a destination table without a segment around that block sends the stream back
to block 0, and a watermark from which the stream resumes may lie anywhere
(`ranges_below_start_block`).

`ranges_from_start_block` names what excludes this. Along a run every previous watermark is the
block before the start block or a later one, and every range begins at the start block or later.
-/

namespace CampNode

open List

variable (rows : FileRows) (query : StreamingQuery)

/-- The start block is not undercut from a watermark in a snapshot: the block right before it is
canonical wherever it is stored, and the segments of the destination cover the blocks from the start
block on and no others. -/
structure KeepsStart (prev : Option Watermark) (snapshot : Snapshot) : Prop where
  stored : ∀ b ∈ allRows rows snapshot.forkFiles, b.number + 1 = query.startBlock →
    canonicalContains rows query snapshot b.watermark = true
  resumed : ∀ w ∈ prev, w.number + 1 = query.startBlock →
    canonicalContains rows query snapshot w = true
  starts : ∀ chain ∈ snapshot.destination, ∀ s ∈ chain.segments, query.startBlock ≤ s.range.start
  covers : ∀ chain ∈ snapshot.destination, ∀ w ∈ prev, ∀ n, query.startBlock ≤ n → n ≤ w.number →
    ∃ s ∈ chain.segments, s.range.start ≤ n ∧ n ≤ s.range.stop
  number : ∀ w ∈ prev, w.number + 1 < 2 ^ 64

variable {rows query}

/-! ## The start of a range -/

section Start

variable {snapshot : Snapshot} {prev : Option Watermark}

/-- The walk stops above the start block, since a stored block before it is canonical. -/
theorem startBlock_le_forkWalk (hkeeps : KeepsStart rows query prev snapshot) {fuel n m : Nat}
    {fork : Option BlockRow} (h : forkWalk rows query snapshot fuel n fork = some m)
    (hn : query.startBlock ≤ n)
    (hfork : ∀ b ∈ fork, b ∈ allRows rows snapshot.forkFiles ∧ query.startBlock ≤ b.number + 1) :
    query.startBlock ≤ m := by
  induction fuel generalizing n fork with
  | zero => cases h
  | succ fuel ih =>
    cases fork with
    | none =>
      cases h
      exact hn
    | some b =>
      rcases hfork b rfl with ⟨hmem, hb⟩
      unfold forkWalk at h
      split at h
      · cases h
        exact hn
      rename_i horphaned
      -- an orphaned block is not the one before the start block
      have hlow : query.startBlock ≤ b.number := by
        have hne : b.number + 1 ≠ query.startBlock := fun heq =>
          horphaned (hkeeps.stored b hmem heq)
        omega
      refine ih h hlow ?_
      intro c hc
      have hfetch := blocksTableFetch_some (Option.mem_def.mp hc)
      have hnumber : c.number = b.number - 1 := hfetch.2.1
      exact ⟨hfetch.1, by omega⟩

/-- A segment of the destination around the block begins at the start block or later. -/
theorem startBlock_le_destinationStart (hkeeps : KeepsStart rows query prev snapshot)
    {w : Watermark} (hw : w ∈ prev) {n : Nat} (hn : query.startBlock ≤ n) (hle : n ≤ w.number) :
    query.startBlock ≤ destinationStart snapshot n := by
  unfold destinationStart
  split
  · exact hn
  rename_i chain hchain
  split
  · rename_i hnone
    rcases hkeeps.covers chain hchain w hw n hn hle with ⟨s, hs, hin⟩
    have hmem : s.range.numbers ∈ chain.segments.reverse.map (·.range.numbers) :=
      mem_map_of_mem (mem_reverse.mpr hs)
    have hout := find?_eq_none.mp hnone _ hmem
    simp only [Bool.and_eq_true, decide_eq_true_eq] at hout
    exact absurd hin hout
  · rename_i r hr
    rcases mem_map.mp (mem_of_find?_eq_some hr) with ⟨s, hs, rfl⟩
    exact hkeeps.starts chain hchain s (mem_reverse.mp hs)

variable {fuel : Nat}

theorem startBlock_le_reorgBase (hkeeps : KeepsStart rows query prev snapshot) {w : Watermark}
    (hw : w ∈ prev) (hstart : query.startBlock ≤ w.number) {base : BlockRow}
    (h : reorgBase rows query snapshot fuel w = some (some base)) :
    query.startBlock ≤ base.number := by
  unfold reorgBase at h
  rcases Option.map_eq_some_iff.mp h with ⟨m, hwalk, hfetch⟩
  have hfirst : ∀ b ∈ forkFetch rows snapshot w.number (some w.hash),
      b ∈ allRows rows snapshot.forkFiles ∧ b.number = w.number := by
    intro b hb
    have hb := blocksTableFetch_some (Option.mem_def.mp hb)
    exact ⟨hb.1, hb.2.1⟩
  have hm : query.startBlock ≤ m := by
    refine startBlock_le_forkWalk hkeeps hwalk hstart ?_
    intro b hb
    rcases hfirst b hb with ⟨hmem, hnumber⟩
    exact ⟨hmem, by omega⟩
  have hmw : m ≤ w.number := forkWalk_le hwalk fun b hb => Nat.le_of_eq (hfirst b hb).2
  rw [(canonicalFetch_some hfetch).2]
  exact startBlock_le_destinationStart hkeeps hw hm hmw

/-- On each path the start is not before the start block. -/
theorem startBlock_le_start (hkeeps : KeepsStart rows query prev snapshot)
    (hprev : ∀ w ∈ prev, query.startBlock ≤ w.number + 1) {direction : StreamDirection}
    (h : nextMicrobatchStart rows query snapshot fuel prev = some (some direction)) :
    query.startBlock ≤ direction.segmentStart.number := by
  unfold nextMicrobatchStart at h
  split at h
  · -- fresh start
    rcases Option.map_eq_some_iff.mp (Option.some.inj h) with ⟨b, hb, rfl⟩
    exact Nat.le_of_eq (canonicalFetch_some hb).2.symm
  rename_i w
  have hw := hprev w rfl
  split at h
  · -- the stream goes on after the watermark
    cases h
    show query.startBlock ≤ (w.number + 1) % 2 ^ 64
    rw [Nat.mod_eq_of_lt (hkeeps.number w rfl)]
    exact hw
  · -- reorg: the watermark itself is orphaned
    rename_i horphaned
    rcases Option.map_eq_some_iff.mp h with ⟨block, hbase, hmap⟩
    rcases Option.map_eq_some_iff.mp hmap with ⟨b, rfl, rfl⟩
    have hne : w.number + 1 ≠ query.startBlock := fun heq => horphaned (hkeeps.resumed w rfl heq)
    exact startBlock_le_reorgBase hkeeps rfl (by omega) hbase

end Start

/-! ## Runs -/

namespace Stream

/-- The stream is fresh, or resumes at or after the start block. -/
def InitFrom (query : StreamingQuery) : StatePred Stream := fun st =>
  Init st ∧ ∀ w ∈ st.prevWatermark, query.startBlock ≤ w.number + 1

/-- An iteration on any snapshot that keeps the start block. -/
def NextFrom (rows : FileRows) (query : StreamingQuery) : Action Stream := fun st st' =>
  st.finished = false ∧ ∃ snapshot, KeepsStart rows query st.prevWatermark snapshot ∧
    (Wait rows query snapshot st st' ∨ Send rows query snapshot st st')

structure FromStart (query : StreamingQuery) (st : Stream) : Prop where
  prev : ∀ w ∈ st.prevWatermark, query.startBlock ≤ w.number + 1
  sent : ∀ m ∈ st.sent, query.startBlock ≤ m.range.start

theorem init_fromStart : ∀ st, InitFrom query st → FromStart query st := by
  rintro st ⟨⟨-, hsent, -⟩, hprev⟩
  refine ⟨hprev, ?_⟩
  rw [hsent]
  exact nofun

theorem send_fromStart {snapshot : Snapshot} {st st' : Stream}
    (hkeeps : KeepsStart rows query st.prevWatermark snapshot)
    (hsend : Send rows query snapshot st st') (h : FromStart query st) : FromStart query st' := by
  rcases hsend with ⟨fuel, next, ready, hnext, rfl⟩
  rcases nextMicrobatchRange_some hnext with ⟨common, stop, -, hstart, hend, hrange⟩
  have hfrom := startBlock_le_start hkeeps h.prev hstart
  have hstop := (nextMicrobatchEnd_number hend).2
  have hnumbers : next.range.start = next.direction.segmentStart.number ∧
      next.range.stop = stop.number := by
    rw [hrange]
    exact ⟨rfl, rfl⟩
  constructor
  · intro w hw
    have hw : w ∈ (if some next.range.stop = query.endBlock then st.prevWatermark
        else some next.range.watermark) := hw
    split at hw
    · exact h.prev w hw
    · cases hw
      show query.startBlock ≤ next.range.stop + 1
      omega
  · intro m hm
    rcases mem_cons.mp hm with rfl | hm
    · show query.startBlock ≤ next.range.start
      omega
    · exact h.sent m hm

theorem step_fromStart : ∀ st st', NextFrom rows query st st' → FromStart query st →
    FromStart query st' := by
  rintro st st' ⟨-, snapshot, hkeeps, hwait | hsend⟩ h
  · rcases hwait with ⟨fuel, ready, -, rfl⟩
    exact ⟨h.prev, h.sent⟩
  · exact send_fromStart hkeeps hsend h

/-- Every range that is sent begins at the start block or later, if the stream resumes from there
and no snapshot undercuts the start block. -/
theorem ranges_from_start_block {st : Stream}
    (hst : Reachable (InitFrom query) (NextFrom rows query) st) :
    ∀ m ∈ st.sent, query.startBlock ≤ m.range.start :=
  (init_invariant (InitFrom query) (NextFrom rows query) (FromStart query) init_fromStart
    step_fromStart st hst).sent

/-! ### Reorgs around the start block -/

def queryFrom (startBlock : Nat) : StreamingQuery := { forkedQuery with startBlock := startBlock }

/-- A reorg that goes back to the start block. -/
def forkedFromTwo : Stream where
  prevWatermark := some ⟨4, 24⟩
  ready := false
  sent := [⟨⟨⟨2, 4⟩, "net", 24, some 11⟩, true, afterFork⟩,
    ⟨⟨⟨2, 3⟩, "net", 13, some 11⟩, false, beforeFork⟩]
  finished := false

theorem ranges_from_start_block_forked :
    Reachable (InitFrom (queryFrom 2)) (NextFrom forkedRows (queryFrom 2)) forkedFromTwo ∧
      ∀ m ∈ forkedFromTwo.sent, 2 ≤ m.range.start := by
  have hinit : Reachable (InitFrom (queryFrom 2)) (NextFrom forkedRows (queryFrom 2))
      ⟨none, true, [], false⟩ := .init ⟨⟨rfl, rfl, rfl⟩, nofun⟩
  have hfirst : Reachable (InitFrom (queryFrom 2)) (NextFrom forkedRows (queryFrom 2))
      ⟨some ⟨3, 13⟩, false, [⟨⟨⟨2, 3⟩, "net", 13, some 11⟩, false, beforeFork⟩], false⟩ := by
    refine .step hinit ⟨rfl, beforeFork, ⟨?_, nofun, nofun, nofun, nofun⟩, .inr ?_⟩
    · decide
    · exact ⟨1, ⟨⟨⟨2, 3⟩, "net", 13, some 11⟩, .forwardFrom ⟨2, some 11⟩⟩, false, by decide, rfl⟩
  have hsecond : Reachable (InitFrom (queryFrom 2)) (NextFrom forkedRows (queryFrom 2))
      forkedFromTwo := by
    refine .step hfirst ⟨rfl, afterFork, ⟨?_, ?_, nofun, nofun, ?_⟩, .inr ?_⟩
    · decide
    · rintro w ⟨⟩ heq
      cases heq
    · rintro w ⟨⟩
      decide
    · exact ⟨4, ⟨⟨⟨2, 4⟩, "net", 24, some 11⟩, .reorgFrom ⟨2, some 11⟩⟩, false, by decide, rfl⟩
  exact ⟨hsecond, ranges_from_start_block hsecond⟩

/-- The first range of a stream, while there is one branch. -/
theorem first_range {startBlock start : Nat} {prevHash : Option BlockHash} {prev : Option Watermark}
    (hnext : nextMicrobatchRange forkedRows (queryFrom startBlock) beforeFork 1 prev =
      some (some ⟨⟨⟨start, 3⟩, "net", 13, prevHash⟩, .forwardFrom ⟨start, prevHash⟩⟩, false)) :
    Reachable Init (Next forkedRows (queryFrom startBlock))
      ⟨some ⟨3, 13⟩, false, [⟨⟨⟨start, 3⟩, "net", 13, prevHash⟩, false, beforeFork⟩], false⟩ := by
  have hinit : Reachable Init (Next forkedRows (queryFrom startBlock)) ⟨prev, true, [], false⟩ :=
    .init ⟨rfl, rfl, rfl⟩
  refine .step hinit ⟨rfl, beforeFork, ⟨?_, nofun⟩, .inr ⟨1, _, false, hnext, rfl⟩⟩
  intro s hs
  exact forked_wellFormed s (mem_of_mem_take (i := 2) hs)

/-- The destination has the last block only. -/
def aloneChain : Chain := ⟨[exampleFile 4 3 3 13 (some 12)], by simp, List.isChain_singleton _⟩

/-- A stream from block 3 on, reorged at block 2; a stream from block 2 on whose destination has no
segment around block 2; and a stream from block 3 on that resumes from block 1. -/
theorem ranges_below_start_block :
    (∃ st, Reachable Init (Next forkedRows (queryFrom 3)) st ∧ ∃ m ∈ st.sent, m.range.start = 2) ∧
    (∃ st, Reachable Init (Next forkedRows (queryFrom 2)) st ∧ ∃ m ∈ st.sent, m.range.start = 0) ∧
    ∃ st, Reachable Init (Next forkedRows (queryFrom 3)) st ∧ st.sent.length = 1 ∧
      ∃ m ∈ st.sent, m.range.start = 2 := by
  refine ⟨?_, ?_, ?_⟩
  · have hfirst := @first_range 3 3 (some 12) none (by decide)
    refine ⟨_, .step hfirst ⟨rfl, afterFork, ⟨forked_wellFormed, ?_⟩, .inr
      ⟨4, ⟨⟨⟨2, 4⟩, "net", 24, some 11⟩, .reorgFrom ⟨2, some 11⟩⟩, false, by decide, rfl⟩⟩,
      _, mem_cons_self, rfl⟩
    intro m hm
    cases mem_singleton.mp hm
    decide
  · have hfirst := @first_range 2 2 (some 11) none (by decide)
    refine ⟨_, .step hfirst ⟨rfl, { afterFork with destination := some aloneChain },
      ⟨forked_wellFormed, ?_⟩, .inr ⟨4, ⟨⟨⟨0, 4⟩, "net", 24, none⟩, .reorgFrom ⟨0, none⟩⟩, false,
        by decide, rfl⟩⟩, _, mem_cons_self, rfl⟩
    intro m hm
    cases mem_singleton.mp hm
    decide
  · have hfirst := @first_range 3 2 (some 11) (some ⟨1, 11⟩) (by decide)
    exact ⟨_, hfirst, rfl, _, mem_cons_self, rfl⟩

end Stream

end CampNode

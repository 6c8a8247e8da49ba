import CampNode.Core.Resume
import Mathlib.Algebra.Group.Nat.Defs

/-!
# CampNode.Extractors.Retry — block streams that are restarted after an error

`BlockStreamerWithRetry` wraps the block streamer of an extractor. It passes on the rows of each
block and counts them. At the first error it drops the stream and asks the streamer for another
one, from the start block plus the number of blocks sent so far.

The streamer is only known by what it promises (`Serves`): one item for each block in order, and
errors anywhere.

* `retry_wraps_at_last_block` — the restart block is a sum of `u64`s; behind the block `u64::MAX`
  it is block 0.
* `retry_streams_range` — for every other end, what is yielded is an initial part of the range,
  and all of it once the stream ends.
-/

namespace CampNode

/-! ## The streamer -/

/-- The items of a stream that is started at a block: the blocks up to `stop` in order, one item
each. An error may stand anywhere; after it the stream goes on with later blocks or is over. -/
inductive Serves {ε Rows : Type} (blockNum : Rows → Nat) (stop : Nat) :
    Nat → List (Except ε Rows) → Prop where
  | done {s : Nat} : stop < s → Serves blockNum stop s []
  | block {s : Nat} {rows : Rows} {rest : List (Except ε Rows)} :
      s ≤ stop → blockNum rows = s → Serves blockNum stop (s + 1) rest →
      Serves blockNum stop s (.ok rows :: rest)
  | skip {s s' : Nat} {e : ε} {rest : List (Except ε Rows)} :
      s ≤ s' → Serves blockNum stop s' rest → Serves blockNum stop s (.error e :: rest)
  | fail {s : Nat} {e : ε} : Serves blockNum stop s [.error e]

/-! ## The wrapper -/

/-- The variables of the wrapper. -/
structure RetryState where
  currentBlock : Nat
  blocksSent : Nat
deriving DecidableEq, Repr

section Wrapper

variable {ε Rows : Type} (inner : Nat → Nat → Nat → List (Except ε Rows)) (start stop : Nat)

/-- One round of the loop `'retry`, with the stream that the streamer gives in round `k`. -/
def retryRound (k : Nat) (s : RetryState) : Attempt Rows RetryState :=
  let items := inner k s.currentBlock stop
  let blocksSent := (s.blocksSent + (untilError items).length) % 2 ^ 64
  ⟨untilError items,
    if hasError items then .resume ⟨(start + blocksSent) % 2 ^ 64, blocksSent⟩ else .ended⟩

/-- `BlockStreamerWithRetry::block_stream` after some rounds. -/
def blockStreamWithRetry (rounds : Nat) : Attempt Rows RetryState :=
  retryLoop (retryRound inner start stop) ⟨start, 0⟩ rounds

end Wrapper

/-! ## A wrapped restart -/

/-- A streamer that yields one block and then an error. -/
def oneBlock (_ s stop : Nat) : List (Except String Nat) :=
  if s ≤ stop then [.ok s, .error "connection closed"] else []

theorem oneBlock_serves (k s stop : Nat) : Serves id stop s (oneBlock k s stop) := by
  unfold oneBlock
  split
  · exact .block ‹_› rfl .fail
  · exact .done (by omega)

/-- An error behind the last block of `u64` restarts the stream at block 0. -/
theorem retry_wraps_at_last_block : (∀ k s, Serves id (2 ^ 64 - 1) s (oneBlock k s (2 ^ 64 - 1))) ∧
      (blockStreamWithRetry oneBlock (2 ^ 64 - 1) (2 ^ 64 - 1) 2).yielded = [2 ^ 64 - 1, 0] :=
  ⟨fun k s => oneBlock_serves k s _, by decide +kernel⟩

/-! ## The range is streamed -/

section Range

variable {ε Rows : Type} {blockNum : Rows → Nat} {inner : Nat → Nat → Nat → List (Except ε Rows)}
  {start stop : Nat}

/-- Up to the first error, the blocks are those from `s` on; without an error, they are all. -/
theorem Serves.untilError {s : Nat} {items : List (Except ε Rows)}
    (h : Serves blockNum stop s items) :
    (untilError items).map blockNum = List.range' s (untilError items).length ∧
      s + (CampNode.untilError items).length ≤ max s (stop + 1) ∧
      (hasError items = false → stop + 1 ≤ s + (CampNode.untilError items).length) := by
  induction h with
  | done hs => exact ⟨rfl, Nat.le_max_left _ _, fun _ => hs⟩
  | block hs hnum _ ih =>
    obtain ⟨hnumbers, hbelow, hall⟩ := ih
    refine ⟨?_, ?_, ?_⟩
    · rw [CampNode.untilError, List.map_cons, List.length_cons, List.range'_succ, hnum, hnumbers]
    · simp only [CampNode.untilError, List.length_cons]
      omega
    · intro herr
      have := hall herr
      simp only [CampNode.untilError, List.length_cons]
      omega
  | skip => exact ⟨rfl, Nat.le_max_left _ _, nofun⟩
  | fail => exact ⟨rfl, Nat.le_max_left _ _, nofun⟩

/-- The stream is asked for at the block behind those that were sent. -/
structure RetryInv (start stop : Nat) (s : RetryState) : Prop where
  current : s.currentBlock = start + s.blocksSent
  bound : s.currentBlock ≤ max start (stop + 1)

variable (hstart : start < 2 ^ 64) (hstop : stop < 2 ^ 64 - 1)
  (hinner : ∀ k s, s < 2 ^ 64 → Serves blockNum stop s (inner k s stop))

include hstart hstop hinner

theorem RetryInv.covers {s : RetryState} (h : RetryInv start stop s) (k : Nat) :
    Covers blockNum RetryState.currentBlock (stop + 1) s.currentBlock
        (retryRound inner start stop k s) ∧
      ∀ s', (retryRound inner start stop k s).outcome = .resume s' → RetryInv start stop s' := by
  have hcurrent := h.current
  have hbound := h.bound
  obtain ⟨hnumbers, hbelow, hall⟩ := (hinner k s.currentBlock (by omega)).untilError
  -- neither sum wraps: what was sent ends at most behind the last block
  have hsent : (s.blocksSent + (untilError (inner k s.currentBlock stop)).length) % 2 ^ 64 =
      s.blocksSent + (untilError (inner k s.currentBlock stop)).length :=
    Nat.mod_eq_of_lt (by omega)
  have hnext : (start + (s.blocksSent +
      (untilError (inner k s.currentBlock stop)).length)) % 2 ^ 64 =
        s.currentBlock + (untilError (inner k s.currentBlock stop)).length := by
    omega
  unfold retryRound
  simp only [hsent, hnext]
  cases herr : hasError (inner k s.currentBlock stop) with
  | false => exact ⟨⟨hnumbers, hbelow, nofun, fun _ => hall herr, nofun⟩, nofun⟩
  | true =>
    refine ⟨⟨hnumbers, hbelow, ?_, nofun, nofun⟩, ?_⟩
    · intro s' hs'
      cases hs'
      rfl
    intro s' hs'
    cases hs'
    constructor
    · simp only
      omega
    · simp only
      omega

theorem blockStreamWithRetry_covers (rounds : Nat) :
    Covers blockNum RetryState.currentBlock (stop + 1) start
      (blockStreamWithRetry inner start stop rounds) := by
  have hinit : RetryInv start stop ⟨start, 0⟩ := ⟨rfl, Nat.le_max_left _ _⟩
  exact (retryLoop_covers (RetryInv start stop) hinit rounds
    fun k _ s _ h => h.covers hstart hstop hinner k).1

/-- A round without an error ends the stream. -/
theorem blockStreamWithRetry_ends {rounds : Nat} (h : ∀ s, hasError (inner rounds s stop) = false) :
    (blockStreamWithRetry inner start stop (rounds + 1)).outcome = .ended := by
  apply retryLoop_ends (blockStreamWithRetry_covers hstart hstop hinner rounds).goesOn
  intro s _
  simp [retryRound, h]

end Range

/-- For every end below `u64::MAX`: whatever the streamer fails at, what has been yielded is an
initial part of the blocks `start..=stop`, in order and each once; it is all of them when the
stream has ended, and a round without an error ends it. -/
theorem retry_streams_range {ε Rows : Type} (blockNum : Rows → Nat)
    (inner : Nat → Nat → Nat → List (Except ε Rows)) (start stop : Nat) (hstart : start < 2 ^ 64)
    (hstop : stop < 2 ^ 64 - 1)
    (hinner : ∀ k s, s < 2 ^ 64 → Serves blockNum stop s (inner k s stop)) (rounds : Nat) :
    (blockStreamWithRetry inner start stop rounds).yielded.map blockNum <+:
        List.range' start (stop + 1 - start) ∧
      ((blockStreamWithRetry inner start stop rounds).outcome = .ended →
        (blockStreamWithRetry inner start stop rounds).yielded.map blockNum =
          List.range' start (stop + 1 - start)) ∧
      ((∀ s, hasError (inner rounds s stop) = false) →
        (blockStreamWithRetry inner start stop (rounds + 1)).outcome = .ended) := by
  have hcovers := blockStreamWithRetry_covers hstart hstop hinner rounds
  exact ⟨hcovers.initial, hcovers.all, blockStreamWithRetry_ends hstart hstop hinner⟩

theorem retry_streams_range_one_block : (blockStreamWithRetry oneBlock 5 7 3).yielded = [5, 6, 7] ∧
      (blockStreamWithRetry oneBlock 5 7 4).outcome = .ended ∧
      (blockStreamWithRetry oneBlock 5 7 4).yielded.map id = List.range' 5 3 :=
  ⟨by decide, by decide, (retry_streams_range id oneBlock 5 7 (by decide) (by decide)
    (fun k s _ => oneBlock_serves k s 7) 4).2.1 (by decide)⟩

end CampNode

import CampNode.Client.Protocol

/-!
# CampNode.Client.Actor — the state actor of the transactional stream

The state actor gives every event a transaction id and keeps a buffer of
watermarks, oldest first, to which it can recover after a reorg. The buffer lives
in memory and, as far as commit handles have been called, in the state store.

`execute` has two parts. It first takes the next id and persists the counter
(`allocate`), then it updates the state and derives the event (`execute`); a crash
can come between the two. Errors of the store are left out.

Transaction ids are plain `Nat`s. The counter starts at 0 and grows by one with
every event, so that the end of `u64` takes that many events.
-/

namespace CampNode

/-- A watermark with its transaction id. -/
abbrev BufferEntry := Nat × List BlockRange

/-! ## The state store -/

/-- Persisted state for stream resumption and crash recovery. -/
structure StateSnapshot where
  buffer : List BufferEntry
  next : Nat
deriving DecidableEq, Repr

/-- Watermarks to add and the last transaction id to prune. -/
structure Commit where
  insert : List BufferEntry
  prune : Option Nat
deriving DecidableEq, Repr

variable (prune : Option Nat) (buffer : List BufferEntry) (invalidation : List InvalidationRange)
  (ranges latest : List BlockRange) (retention : Nat) (network : String)

/-- The entries that are left after pruning up to an id. -/
def pruned : List BufferEntry :=
  match prune with
  | none => buffer
  | some p => buffer.filter fun e => decide (p < e.1)

namespace StateSnapshot

def advance (store : StateSnapshot) (next : Nat) : StateSnapshot := { store with next := next }

def commit (store : StateSnapshot) (commit : Commit) : StateSnapshot :=
  { store with buffer := pruned commit.prune store.buffer ++ commit.insert }

def truncate (store : StateSnapshot) (fromId : Nat) : StateSnapshot :=
  { store with buffer := store.buffer.filter fun e => decide (e.1 < fromId) }

end StateSnapshot

/-! ## Recovery and pruning -/

/-- The first invalid block of a network; in the map that the source builds a later
entry replaces an earlier one. -/
def reorgPoint : Option Nat :=
  (invalidation.reverse.find? (·.network == network)).map (·.numbers.start)

/-- Some range of the watermark starts at or after the reorg point of its network. -/
def affected : Bool :=
  ranges.any fun range =>
    match reorgPoint invalidation range.network with
    | some point => decide (point ≤ range.start)
    | none => false

/-- The last watermark that the reorg leaves unaffected. -/
def findRecoveryPoint : Option BufferEntry :=
  buffer.reverse.find? fun e => !affected invalidation e.2

/-- The reorg point of some network lies inside its range. -/
def partialReorg : Bool :=
  ranges.any fun range =>
    match invalidation.find? (·.network == range.network) with
    | some inv => decide (range.start < inv.numbers.start) && decide (inv.numbers.start ≤ range.stop)
    | none => false

/-- The oldest block that is kept for a network. -/
def cutoffOf : Option Nat :=
  (latest.reverse.find? (·.network == network)).map fun range => range.start - retention

/-- All ranges end before the cutoff of their network. `none` is the panic of a
network that has no cutoff. -/
def outsideRetention (latest : List BlockRange) (retention : Nat) : List BlockRange → Option Bool
  | [] => some true
  | range :: rest =>
      match cutoffOf latest retention range.network with
      | none => none
      | some cutoff =>
          if range.stop < cutoff then outsideRetention latest retention rest else some false

/-- The last of the leading watermarks outside retention. -/
def lastOutside (latest : List BlockRange) (retention : Nat) :
    Option Nat → List BufferEntry → Option (Option Nat)
  | last, [] => some last
  | last, e :: rest =>
      match outsideRetention latest retention e.2 with
      | none => none
      | some true => lastOutside latest retention (some e.1) rest
      | some false => some last

/-- The last transaction id to prune; the outer `none` is a panic. -/
def findPruningPoint : Option (Option Nat) :=
  match buffer.getLast? with
  | none => some none
  | some latest =>
      if latest.2.isEmpty then some none
      else lastOutside latest.2 retention none buffer.dropLast

/-! ## The container -/

/-- A watermark that is not persisted yet, with its pruning point. -/
structure PendingCommit where
  id : Nat
  ranges : List BlockRange
  prune : Option Nat
deriving DecidableEq, Repr

/-- The in-memory state. -/
structure StateContainer where
  next : Nat
  buffer : List BufferEntry
  uncommitted : List PendingCommit
deriving DecidableEq, Repr

inductive Cause where
  | reorg (invalidation : List InvalidationRange)
  | rewind
deriving DecidableEq, Repr

inductive TransactionEvent (β : Type) where
  | data (id : Nat) (batch : β) (ranges : List BlockRange)
  | undo (id : Nat) (cause : Cause) (invalidate : RangeInclusive)
  | watermark (id : Nat) (ranges : List BlockRange) (prune : Option Nat)

def TransactionEvent.id {β : Type} : TransactionEvent β → Nat
  | .data id _ _ => id
  | .undo id _ _ => id
  | .watermark id _ _ => id

inductive StreamAction (β : Type) where
  | message (message : ProtocolMessage β)
  | rewind

inductive ActorError where
  | unrecoverable
  | partialReorg
  | panicked
deriving DecidableEq, Repr

/-- The result of an action: the new state, from which id on the persisted buffer is
truncated, and the event. -/
structure Executed (β : Type) where
  container : StateContainer
  truncate : Option Nat
  event : TransactionEvent β

/-- The store after an executed action. -/
def StateSnapshot.after {β : Type} (store : StateSnapshot) (done : Executed β) : StateSnapshot :=
  match done.truncate with
  | some fromId => store.truncate fromId
  | none => store

namespace StateContainer

variable {β : Type}
variable (retention : Nat) (c : StateContainer) (id : Nat)

/-- Invalidate what came after the last watermark. -/
def rewindRange : RangeInclusive :=
  match c.buffer.getLast? with
  | none => ⟨0, id - 1⟩
  | some last => ⟨last.1 + 1, id - 1⟩

/-- Cut the buffer and the pending commits back to the recovery point. -/
def cutBack (truncate : Nat) : StateContainer :=
  { c with
    buffer := c.buffer.filter fun e => decide (e.1 < truncate)
    uncommitted := c.uncommitted.filter fun p => decide (p.id < truncate) }

def executeReorg (invalidation : List InvalidationRange) : Except ActorError (Executed β) :=
  match findRecoveryPoint c.buffer invalidation with
  | none =>
      if c.buffer.isEmpty then
        .ok ⟨c.cutBack 1, some 1, .undo id (.reorg invalidation) ⟨0, id - 1⟩⟩
      else .error .unrecoverable
  | some (tx, ranges) =>
      if CampNode.partialReorg invalidation ranges then .error .partialReorg
      else .ok ⟨c.cutBack (tx + 1), some (tx + 1), .undo id (.reorg invalidation) ⟨tx + 1, id - 1⟩⟩

def executeWatermark (ranges : List BlockRange) : Except ActorError (Executed β) :=
  let buffer := c.buffer ++ [(id, ranges)]
  match findPruningPoint buffer retention with
  | none => .error .panicked
  | some prune =>
      .ok ⟨{ c with buffer := buffer, uncommitted := c.uncommitted ++ [⟨id, ranges, prune⟩] },
        none, .watermark id ranges prune⟩

/-- `StateActor::execute` after the id has been allocated. -/
def execute : StreamAction β → Except ActorError (Executed β)
  | .rewind => .ok ⟨c, none, .undo id .rewind (c.rewindRange id)⟩
  | .message (.data batch ranges) => .ok ⟨c, none, .data id batch ranges⟩
  | .message (.watermark ranges) => c.executeWatermark retention id ranges
  | .message (.reorg _ _ invalidation) => c.executeReorg id invalidation

end StateContainer

/-- The greater of the pruning points of some pending commits. -/
def maxPrune : List PendingCommit → Option Nat
  | [] => none
  | p :: rest =>
      match p.prune, maxPrune rest with
      | none, m => m
      | some a, none => some a
      | some a, some b => some (max a b)

/-- Compress pending commits into a single update. -/
def Commit.new (events : List PendingCommit) : Commit :=
  ⟨pruned (maxPrune events) (events.map fun p => (p.id, p.ranges)), maxPrune events⟩

/-- `StateActor::commit`: persist the pending watermarks up to an id. Pending
commits are in the order of their ids. -/
def StateContainer.commit (c : StateContainer) (store : StateSnapshot) (id : Nat) :
    StateContainer × StateSnapshot :=
  let pending := c.uncommitted.takeWhile fun p => decide (p.id ≤ id)
  let rest := c.uncommitted.dropWhile fun p => decide (p.id ≤ id)
  if pending.isEmpty then (c, store)
  else
    let compressed := Commit.new pending
    ({ c with buffer := pruned compressed.prune c.buffer, uncommitted := rest },
      store.commit compressed)

end CampNode

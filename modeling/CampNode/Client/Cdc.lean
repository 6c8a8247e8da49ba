import CampNode.Client.Replay

/-!
# CampNode.Client.Cdc — inserts and deletes of a CDC stream

`CdcStream` wraps a transactional stream. It stores every batch before it hands it
to the consumer, turns an undo into a delete of the stored batches of its range, and
prunes the batch store when a watermark passes. Watermarks and undos without batches
do not reach the consumer, and neither do their commit handles.

The batch store is pruned as soon as the watermark passes, but the watermark itself
is persisted only with a later handle. After a crash, or a reorg that goes back
further than the retention window, an undo can therefore reach batches that are gone.
The main result names the runs in which this does not happen.
-/

namespace CampNode

variable {β : Type}

/-! ## The batch store -/

/-- The stored batches, oldest first. -/
abbrev Batches (β : Type) := List (Nat × β)

namespace Batches

variable (batches : Batches β) (id : Nat)

def append (batch : β) : Batches β :=
  batches.filter (·.1 != id) ++ [(id, batch)]

/-- The ids of the batches in a range. -/
def seek (range : RangeInclusive) : List Nat :=
  (batches.filter fun b => decide (range.start ≤ b.1) && decide (b.1 ≤ range.stop)).map (·.1)

def load : Option β :=
  (batches.find? (·.1 == id)).map (·.2)

def prune (cutoff : Nat) : Batches β :=
  batches.filter fun b => decide (cutoff < b.1)

end Batches

/-! ## The stream and its consumer -/

/-- An insert with the block ranges of its data, which are not part of the event. -/
structure Inserted (β : Type) where
  id : Nat
  batch : β
  ranges : List BlockRange

/-- A change that the consumer has forwarded. -/
inductive Change (β : Type) where
  | insert (i : Inserted β)
  | delete (id : Nat) (batch : β)

/-- Inserts minus deletes, the latest first. -/
def net : List (Change β) → List (Inserted β)
  | [] => []
  | .insert i :: older => i :: net older
  | .delete id _ :: older => (net older).filter (·.id != id)

/-- What the stream is doing. It polls the transactional stream only when it is
idle. -/
inductive Phase (β : Type) where
  | idle
  /-- An event of the transactional stream is being handled. -/
  | handling (event : TransactionEvent β)
  /-- The batch is stored, the insert is about to be yielded. -/
  | inserting (i : Inserted β)
  /-- The consumer reads the `DeleteBatchIterator` to its end. -/
  | deleting (ids : List Nat)

/-- The pruning point of the watermark that is being handled. -/
def Phase.cutoff : Phase β → Option Nat
  | .handling (.watermark _ _ prune) => prune
  | _ => none

/-- The stream, its stores and its consumer. -/
structure Cdc (β : Type) where
  client : Client β
  batches : Batches β
  phase : Phase β
  /-- The commit handles of the consumer. -/
  handles : List Nat
  /-- What the consumer has forwarded, the latest first. -/
  log : List (Change β)

namespace Cdc

def Init : StatePred (Cdc β) := fun s => s = ⟨Client.initial, [], .idle, [], []⟩

/-- The choices that a run leaves open. -/
inductive Input (β : Type) where
  | connect
  | respond (response : ResponseBatch β)
  | allocate
  | execute
  | take
  | append
  | insert
  | seek
  | load
  | finish
  | prune
  | pass
  | commit (id : Nat)
  | crash

/-- A step of the transactional stream while it is polled. -/
def Polls (action : Action (Client β)) : Action (Cdc β) := fun s s' =>
  s.phase = .idle ∧ ∃ c, action s.client c ∧ s' = { s with client := c }

/-- The transactional stream yields its event. -/
def Take : Action (Cdc β) := fun s s' =>
  s.phase = .idle ∧ ∃ session event c, s.client.session = some session ∧
    session.outbox = some event ∧ Client.Deliver s.client c ∧
    s' = { s with client := c, phase := .handling event }

/-- Store the batch of a data event. -/
def Append : Action (Cdc β) := fun s s' =>
  ∃ id batch ranges, s.phase = .handling (.data id batch ranges) ∧ s' = { s with
      batches := s.batches.append id batch
      phase := .inserting ⟨id, batch, ranges⟩ }

/-- The consumer receives the insert and its handle. -/
def Insert : Action (Cdc β) := fun s s' =>
  ∃ i, s.phase = .inserting i ∧
    s' = { s with phase := .idle, handles := i.id :: s.handles, log := .insert i :: s.log }

/-- Look up the batches of an undo; without any there is no event. -/
def Seek : Action (Cdc β) := fun s s' =>
  ∃ id cause range, s.phase = .handling (.undo id cause range) ∧
    s' = if (s.batches.seek range).isEmpty then { s with phase := .idle }
      else { s with phase := .deleting (s.batches.seek range), handles := id :: s.handles }

/-- `DeleteBatchIterator::next`: load the next batch, skipping missing ones. -/
def Load : Action (Cdc β) := fun s s' =>
  ∃ id rest, s.phase = .deleting (id :: rest) ∧ s' = match s.batches.load id with
      | some batch => { s with phase := .deleting rest, log := .delete id batch :: s.log }
      | none => { s with phase := .deleting rest }

def Finish : Action (Cdc β) := fun s s' =>
  s.phase = .deleting [] ∧ s' = { s with phase := .idle }

/-- A watermark passes and batches are pruned. -/
def Prune : Action (Cdc β) := fun s s' =>
  ∃ id ranges cutoff, s.phase = .handling (.watermark id ranges (some cutoff)) ∧
    s' = { s with batches := s.batches.prune cutoff, phase := .idle }

/-- A watermark passes that prunes nothing, or pruning fails. -/
def Pass : Action (Cdc β) := fun s s' =>
  ∃ id ranges cutoff, s.phase = .handling (.watermark id ranges cutoff) ∧
    s' = { s with phase := .idle }

/-- The consumer commits one of its handles. -/
def Commit (id : Nat) : Action (Cdc β) := fun s s' =>
  ∃ session, s.client.session = some session ∧ session.allocated = none ∧ id ∈ s.handles ∧
    s' = { s with client := { s.client with
      store := (session.container.commit s.client.store id).2
      session := some { session with
        container := (session.container.commit s.client.store id).1 } } }

/-- The process stops; both stores and what was forwarded remain. -/
def Crash : Action (Cdc β) := fun s s' =>
  s' = { s with client := { s.client with session := none }, phase := .idle, handles := [] }

variable (retention : Nat) (s : Cdc β)

/-- The step that an input asks for. -/
def Input.action : Input β → Action (Cdc β)
  | .connect => Polls Client.Connect
  | .respond response => Polls (Client.Respond response)
  | .allocate => Polls Client.Allocate
  | .execute => Polls (Client.Execute retention)
  | .take => Take
  | .append => Append
  | .insert => Insert
  | .seek => Seek
  | .load => Load
  | .finish => Finish
  | .prune => Prune
  | .pass => Pass
  | .commit id => Commit id
  | .crash => Crash

/-- A step in which the server sends an admitted response. -/
def Next (admits : ResponseBatch β → Prop) : Action (Cdc β) := fun s s' =>
  ∃ i : Input β, (∀ response, i = .respond response → admits response) ∧ i.action retention s s'

/-! ## Careful runs -/

/-- The watermark to which the pending reorg recovers. -/
def recovery (c : Client β) : Option BufferEntry :=
  match c.session with
  | none => none
  | some session =>
      match session.queue with
      | .message (.reorg _ _ invalidation) :: _ =>
          findRecoveryPoint session.container.buffer invalidation
      | _ => none

/-- The pruning points of the watermarks that have passed. -/
def cutoffs (events : List (TransactionEvent β)) : List Nat :=
  events.filterMap fun event =>
    match event with
    | .watermark _ _ prune => prune
    | _ => none

/-- Batches are pruned up to a watermark only when that watermark or a later one is
persisted, and no reorg recovers to a watermark before one that was pruned. -/
def Input.Allowed : Input β → Prop
  | .prune => ∀ cutoff ∈ s.phase.cutoff, ∃ e ∈ s.client.store.buffer, cutoff ≤ e.1
  | .execute => ∀ e ∈ recovery s.client, ∀ cutoff ∈ cutoffs s.client.delivered, cutoff ≤ e.1
  | _ => True

def Careful (admits : ResponseBatch β → Prop) : Action (Cdc β) := fun s s' =>
  ∃ i : Input β, (∀ response, i = .respond response → admits response) ∧ i.Allowed s ∧
    i.action retention s s'

/-- Every insert in the range of an undo is still stored, so that it is deleted; when
an insert is handed out, everything the consumer holds is live; and what the consumer
holds is ordered. -/
structure Consistent (s : Cdc β) : Prop where
  stored : ∀ id cause range, s.phase = .handling (.undo id cause range) →
    ∀ i ∈ net s.log, range.start ≤ i.id → i.id ≤ range.stop →
      i.id ∈ s.batches.seek range ∧ s.batches.load i.id = some i.batch
  fresh : ∀ i, s.phase = .inserting i → ∀ j ∈ net s.log, (j.id, j.ranges) ∈ live s.client.delivered
  ordered : Ordered ((net s.log).map fun i => (i.id, i.ranges))

/-! ## Executable steps -/

def poll (i : Client.Input β) : Option (Cdc β) :=
  match s.phase with
  | .idle => (Client.perform retention s.client i).map fun c => { s with client := c }
  | _ => none

/-- The step that an input asks for, if it is possible and succeeds. -/
def perform : Input β → Option (Cdc β)
  | .connect => poll retention s .connect
  | .respond response => poll retention s (.respond response)
  | .allocate => poll retention s .allocate
  | .execute => poll retention s .execute
  | .take =>
      match s.phase, s.client.session with
      | .idle, some session =>
          match session.outbox with
          | some event =>
              (Client.perform retention s.client .deliver).map fun c =>
                { s with client := c, phase := .handling event }
          | none => none
      | _, _ => none
  | .append =>
      match s.phase with
      | .handling (.data id batch ranges) =>
          some { s with
            batches := s.batches.append id batch, phase := .inserting ⟨id, batch, ranges⟩ }
      | _ => none
  | .insert =>
      match s.phase with
      | .inserting i =>
          some { s with phase := .idle, handles := i.id :: s.handles, log := .insert i :: s.log }
      | _ => none
  | .seek =>
      match s.phase with
      | .handling (.undo id _ range) =>
          some (if (s.batches.seek range).isEmpty then { s with phase := .idle }
            else { s with phase := .deleting (s.batches.seek range), handles := id :: s.handles })
      | _ => none
  | .load =>
      match s.phase with
      | .deleting (id :: rest) =>
          some (match s.batches.load id with
            | some batch => { s with phase := .deleting rest, log := .delete id batch :: s.log }
            | none => { s with phase := .deleting rest })
      | _ => none
  | .finish =>
      match s.phase with
      | .deleting [] => some { s with phase := .idle }
      | _ => none
  | .prune =>
      match s.phase with
      | .handling (.watermark _ _ (some cutoff)) =>
          some { s with batches := s.batches.prune cutoff, phase := .idle }
      | _ => none
  | .pass =>
      match s.phase with
      | .handling (.watermark _ _ _) => some { s with phase := .idle }
      | _ => none
  | .commit id =>
      match s.client.session with
      | some session =>
          if session.allocated.isNone && s.handles.contains id then
            some { s with client := { s.client with
              store := (session.container.commit s.client.store id).2
              session := some { session with
                container := (session.container.commit s.client.store id).1 } } }
          else none
      | none => none
  | .crash =>
      some { s with client := { s.client with session := none }, phase := .idle, handles := [] }

theorem poll_polls {retention : Nat} {s s' : Cdc β} {i : Client.Input β}
    (h : poll retention s i = some s') : Polls (i.action retention) s s' := by
  unfold poll at h
  split at h
  · rename_i hphase
    rcases Option.map_eq_some_iff.mp h with ⟨c, hc, rfl⟩
    exact ⟨hphase, c, Client.perform_action hc, rfl⟩
  · cases h

theorem perform_action {retention : Nat} {s s' : Cdc β} {i : Input β}
    (h : perform retention s i = some s') : i.action retention s s' := by
  cases i
  case connect | respond | allocate | execute => exact poll_polls h
  case crash => exact (Option.some.inj h).symm
  all_goals
    simp only [perform] at h
    split at h
  -- nothing is performed in another phase
  any_goals cases h
  next session hphase hsession =>
    split at h
    · rename_i event hout
      rcases Option.map_eq_some_iff.mp h with ⟨c, hc, rfl⟩
      exact ⟨hphase, session, event, c, hsession, hout, Client.perform_action hc, rfl⟩
    · cases h
  next id batch ranges hphase => exact ⟨id, batch, ranges, hphase, rfl⟩
  next i hphase => exact ⟨i, hphase, rfl⟩
  next id cause range hphase => exact ⟨id, cause, range, hphase, rfl⟩
  next id rest hphase => exact ⟨id, rest, hphase, rfl⟩
  next hphase => exact ⟨hphase, rfl⟩
  next id ranges cutoff hphase => exact ⟨id, ranges, cutoff, hphase, rfl⟩
  next id ranges cutoff hphase => exact ⟨id, ranges, cutoff, hphase, rfl⟩
  next session hsession =>
    split at h
    · rename_i hhandle
      simp only [Bool.and_eq_true, Option.isNone_iff_eq_none, List.contains_iff_mem] at hhandle
      cases h
      exact ⟨session, hsession, hhandle.1, hhandle.2, rfl⟩
    · cases h

end Cdc

end CampNode

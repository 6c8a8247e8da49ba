import CampNode.Ampsync.Engine

/-!
# CampNode.Ampsync.Task — the streaming task of a table

`StreamTask::run` polls the transactional stream and handles one event at a time:
the rows of a data event are inserted chunk by chunk, an undo deletes a range of
transaction ids, a watermark changes nothing, and in the end the state of the stream
is committed. The stream is not polled while an event is handled.

The task can stop at any moment, on an error, a shutdown or a crash; a new task then
connects with the state of the store. The answer of the database can be lost after a
statement took effect, in which case the statement is repeated.
-/

namespace CampNode.Ampsync

variable {ρ : Type}

/-- Where the task is in the handling of an event. -/
inductive Phase (ρ : Type) where
  | idle
  | handling (event : TransactionEvent (List ρ))
  /-- The rows before `start` have been inserted. -/
  | inserting (id : Nat) (rows : List (Row ρ)) (size start : Nat)
  /-- The table is up to date, the state of the stream is not committed yet. -/
  | committing (id : Nat)

structure StreamTask (ρ : Type) where
  /-- The transactional stream with its store, and the events that were delivered. -/
  client : Client (List ρ)
  table : Table ρ
  phase : Phase ρ
  /-- The rewind of this connection has been processed, or it needs none. -/
  recovered : Bool
  /-- The last persisted watermark when the task connected. -/
  resumed : Option Nat
  /-- The first transaction id of this connection. -/
  opened : Nat

namespace StreamTask

def initial : StreamTask ρ := ⟨Client.initial, [], .idle, false, none, 0⟩

def Init : StatePred (StreamTask ρ) := fun s => s = initial

/-- The task connects with the state of the store. -/
def Connect : Action (StreamTask ρ) := fun s s' =>
  s.phase = .idle ∧ ∃ c, Client.Connect s.client c ∧ s' = { s with
      client := c
      recovered := !Client.needsRewind s.client.store
      resumed := s.client.store.buffer.getLast?.map (·.1)
      opened := s.client.store.next }

/-- A step of the transactional stream while it is polled. -/
def Polls (action : Action (Client (List ρ))) : Action (StreamTask ρ) := fun s s' =>
  s.phase = .idle ∧ ∃ c, action s.client c ∧ s' = { s with client := c }

/-- The stream yields its event. -/
def Take : Action (StreamTask ρ) := fun s s' =>
  s.phase = .idle ∧ ∃ session event c, s.client.session = some session ∧
    session.outbox = some event ∧ Client.Deliver s.client c ∧
    s' = { s with client := c, phase := .handling event }

variable (lost : Bool) (limits : BatchLimits) (retention current rowBytes id : Nat)
  (rows : List (Row ρ))

/-- A batch of at most the optimal size is one chunk. -/
def chunkSize : Nat :=
  if rows.length ≤ limits.optimalBatchSize current rowBytes then rows.length
  else limits.optimalBatchSize current rowBytes

/-- The rows of a data event get their metadata, and the size of the chunks is fixed.
Nothing is inserted for an empty batch. -/
def Prepare : Action (StreamTask ρ) := fun s s' =>
  ∃ id batch ranges rows, s.phase = .handling (.data id batch ranges) ∧
    addTransactionMetadata batch id = some rows ∧
    s' = if rows.isEmpty then { s with phase := .committing id }
      else { s with phase := .inserting id rows (chunkSize limits current rowBytes rows) 0 }

/-- What comes after a chunk. -/
def afterChunk (size start : Nat) : Phase ρ :=
  if chunkEnd rows size start < rows.length then
    .inserting id rows size (chunkEnd rows size start)
  else .committing id

/-- The transaction of a chunk. -/
def Insert : Action (StreamTask ρ) := fun s s' =>
  ∃ id rows size start, s.phase = .inserting id rows size start ∧ s' = { s with
      table := s.table.insertChunk (chunk rows size start)
      phase := if lost then s.phase else afterChunk id rows size start }

/-- The rows of an undo are deleted. -/
def Delete : Action (StreamTask ρ) := fun s s' =>
  ∃ id cause range, s.phase = .handling (.undo id cause range) ∧ s' = { s with
      table := s.table.deleteByTxRange range
      phase := if lost then s.phase else .committing id
      recovered := s.recovered || (!lost && decide (cause = .rewind)) }

/-- A watermark needs no change of the table. -/
def Pass : Action (StreamTask ρ) := fun s s' =>
  ∃ id ranges prune, s.phase = .handling (.watermark id ranges prune) ∧
    s' = { s with phase := .committing id }

/-- The state of the stream is committed. -/
def Commit : Action (StreamTask ρ) := fun s s' =>
  ∃ session id, s.phase = .committing id ∧ s.client.session = some session ∧
    session.allocated = none ∧ id ∈ session.handles ∧
    s' = { s with
      client := { s.client with
        store := (session.container.commit s.client.store id).2
        session := some { session with
          container := (session.container.commit s.client.store id).1 } }
      phase := .idle }

/-- The task stops; the table and the store remain. -/
def Crash : Action (StreamTask ρ) := fun s s' =>
  s' = { s with
    client := { s.client with session := none }
    phase := .idle
    recovered := false }

/-- The choices that a run leaves open. -/
inductive Input (ρ : Type) where
  | connect
  | respond (response : ResponseBatch (List ρ))
  | allocate
  | execute
  | take
  | prepare (current rowBytes : Nat)
  | insert (lost : Bool)
  | delete (lost : Bool)
  | pass
  | commit
  | crash

/-- The step that an input asks for. -/
def Input.action : Input ρ → Action (StreamTask ρ)
  | .connect => Connect
  | .respond response => Polls (Client.Respond response)
  | .allocate => Polls Client.Allocate
  | .execute => Polls (Client.Execute retention)
  | .take => Take
  | .prepare current rowBytes => Prepare limits current rowBytes
  | .insert lost => Insert lost
  | .delete lost => Delete lost
  | .pass => Pass
  | .commit => Commit
  | .crash => Crash

/-- A step in which the server sends an admitted response. -/
def Next (admits : ResponseBatch (List ρ) → Prop) : Action (StreamTask ρ) := fun s s' =>
  ∃ i : Input ρ, (∀ response, i = .respond response → admits response) ∧
    i.action limits retention s s'

/-! ## Executable steps -/

def poll (s : StreamTask ρ) (i : Client.Input (List ρ)) : Option (StreamTask ρ) :=
  match s.phase with
  | .idle => (Client.perform retention s.client i).map fun c => { s with client := c }
  | _ => none

/-- The step that an input asks for, if it is possible and succeeds. -/
def perform (s : StreamTask ρ) :
    Input ρ → Option (StreamTask ρ)
  | .connect =>
      match s.phase with
      | .idle =>
          (Client.perform retention s.client .connect).map fun c =>
            { s with
              client := c
              recovered := !Client.needsRewind s.client.store
              resumed := s.client.store.buffer.getLast?.map (·.1)
              opened := s.client.store.next }
      | _ => none
  | .respond response => poll retention s (.respond response)
  | .allocate => poll retention s .allocate
  | .execute => poll retention s .execute
  | .take =>
      match s.phase, s.client.session with
      | .idle, some session =>
          match session.outbox with
          | some event =>
              (Client.perform retention s.client .deliver).map fun c =>
                { s with client := c, phase := .handling event }
          | none => none
      | _, _ => none
  | .prepare current rowBytes =>
      match s.phase with
      | .handling (.data id batch _) =>
          match addTransactionMetadata batch id with
          | some rows =>
              some (if rows.isEmpty then { s with phase := .committing id }
                else { s with
                  phase := .inserting id rows (chunkSize limits current rowBytes rows) 0 })
          | none => none
      | _ => none
  | .insert lost =>
      match s.phase with
      | .inserting id rows size start =>
          some { s with
            table := s.table.insertChunk (chunk rows size start)
            phase := if lost then s.phase else afterChunk id rows size start }
      | _ => none
  | .delete lost =>
      match s.phase with
      | .handling (.undo id cause range) =>
          some { s with
            table := s.table.deleteByTxRange range
            phase := if lost then s.phase else .committing id
            recovered := s.recovered || (!lost && decide (cause = .rewind)) }
      | _ => none
  | .pass =>
      match s.phase with
      | .handling (.watermark id _ _) => some { s with phase := .committing id }
      | _ => none
  | .commit =>
      match s.phase, s.client.session with
      | .committing id, some session =>
          if session.allocated.isNone && session.handles.contains id then
            some { s with
              client := { s.client with
                store := (session.container.commit s.client.store id).2
                session := some { session with
                  container := (session.container.commit s.client.store id).1 } }
              phase := .idle }
          else none
      | _, _ => none
  | .crash =>
      some { s with
        client := { s.client with session := none }
        phase := .idle
        recovered := false }

theorem poll_polls {retention : Nat} {s s' : StreamTask ρ} {i : Client.Input (List ρ)}
    (h : poll retention s i = some s') : Polls (i.action retention) s s' := by
  unfold poll at h
  split at h
  · rename_i hphase
    rcases Option.map_eq_some_iff.mp h with ⟨c, hc, rfl⟩
    exact ⟨hphase, c, Client.perform_action hc, rfl⟩
  · cases h

theorem perform_action {limits : BatchLimits} {retention : Nat} {s s' : StreamTask ρ} {i : Input ρ}
    (h : perform limits retention s i = some s') : i.action limits retention s s' := by
  cases i
  case respond | allocate | execute => exact poll_polls h
  case crash => exact (Option.some.inj h).symm
  all_goals
    simp only [perform] at h
    split at h
  -- nothing is performed in another phase
  any_goals cases h
  next hphase =>
    rcases Option.map_eq_some_iff.mp h with ⟨c, hc, rfl⟩
    exact ⟨hphase, c, Client.perform_action hc, rfl⟩
  next session hphase hsession =>
    split at h
    · rename_i event hout
      rcases Option.map_eq_some_iff.mp h with ⟨c, hc, rfl⟩
      exact ⟨hphase, session, event, c, hsession, hout, Client.perform_action hc, rfl⟩
    · cases h
  next id batch ranges hphase =>
    split at h
    · rename_i rows hrows
      exact ⟨id, batch, ranges, rows, hphase, hrows, (Option.some.inj h).symm⟩
    · cases h
  next id rows size start hphase => exact ⟨id, rows, size, start, hphase, rfl⟩
  next id cause range hphase => exact ⟨id, cause, range, hphase, rfl⟩
  next id ranges prune hphase => exact ⟨id, ranges, prune, hphase, rfl⟩
  next id session hphase hsession =>
    split at h
    · rename_i hhandle
      simp only [Bool.and_eq_true, Option.isNone_iff_eq_none, List.contains_iff_mem] at hhandle
      exact ⟨session, id, hphase, hsession, hhandle.1, hhandle.2, (Option.some.inj h).symm⟩
    · cases h

end StreamTask

end CampNode.Ampsync

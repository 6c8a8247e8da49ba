import CampNode.Client.Actor
import CampNode.Core.Transition

/-!
# CampNode.Client.Transactional — the transactional stream

A client connects with the state of its store, turns the responses of the server
into events for a consumer and commits watermarks when the consumer calls commit
handles. It can crash at any moment: what is in memory is lost, and the next
connection starts from the store.

The steps are those between which something else can happen: a response is
checked, an id is taken (the lock is held from here on), the action is executed,
its event reaches the consumer, a handle is committed, the client crashes.
-/

namespace CampNode

variable {β : Type}

/-- A connection. -/
structure Session (β : Type) where
  container : StateContainer
  /-- The ranges of the last response. -/
  previous : List BlockRange
  /-- Actions that are still to be executed. -/
  queue : List (StreamAction β)
  /-- The id of the action that is being executed; the lock is held. -/
  allocated : Option Nat
  /-- An event on its way to the consumer. -/
  outbox : Option (TransactionEvent β)
  /-- The commit handles of the consumer. -/
  handles : List Nat
  failed : Bool

/-- The client with its store, and the events that reached the consumer, the latest
first. -/
structure Client (β : Type) where
  store : StateSnapshot
  session : Option (Session β)
  delivered : List (TransactionEvent β)

/-- The data that was emitted and not undone, the latest first. -/
def live : List (TransactionEvent β) → List (Nat × List BlockRange)
  | [] => []
  | .data id _ ranges :: older => (id, ranges) :: live older
  | .undo _ _ invalidate :: older =>
      (live older).filter fun d =>
        !(decide (invalidate.start ≤ d.1) && decide (d.1 ≤ invalidate.stop))
  | .watermark _ _ _ :: older => live older

namespace Client

/-- Rewind detection: ids were used after the last watermark. -/
def needsRewind (store : StateSnapshot) : Bool :=
  match store.buffer.getLast? with
  | some last => decide (last.1 + 1 < store.next)
  | none => decide (0 < store.next)

/-- `TransactionalStream::create` with the state of the store. -/
def openSession (store : StateSnapshot) : Session β where
  container := ⟨store.next, store.buffer, []⟩
  previous := (store.buffer.getLast?.map (·.2)).getD []
  queue := if needsRewind store then [.rewind] else []
  allocated := none
  outbox := none
  handles := []
  failed := false

def Init : StatePred (Client β) := fun c => c = ⟨⟨[], 0⟩, none, []⟩

def Connect : Action (Client β) := fun c c' =>
  c.session = none ∧ c' = { c with session := some (openSession c.store) }

/-- The next response of the server. -/
def Respond (response : ResponseBatch β) : Action (Client β) := fun c c' =>
  ∃ s, c.session = some s ∧ s.failed = false ∧ s.queue = [] ∧ s.allocated = none ∧ s.outbox = none ∧
    match protocolMessages s.previous response with
    | .error _ => c' = { c with session := some { s with failed := true } }
    | .ok messages =>
        c' = { c with session := some { s with
          queue := messages.map .message
          previous := response.ranges } }

/-- Take the next id and persist the counter. -/
def Allocate : Action (Client β) := fun c c' =>
  ∃ s, c.session = some s ∧ s.failed = false ∧ s.queue ≠ [] ∧ s.allocated = none ∧ s.outbox = none ∧
    c' = { c with
      store := c.store.advance (s.container.next + 1)
      session := some { s with
        container := { s.container with next := s.container.next + 1 }
        allocated := some s.container.next } }

variable (retention : Nat)

/-- Execute the action whose id was taken. -/
def Execute : Action (Client β) := fun c c' =>
  ∃ s id action rest, c.session = some s ∧ s.failed = false ∧ s.allocated = some id ∧
    s.queue = action :: rest ∧
    match s.container.execute retention id action with
    | .error _ => c' = { c with session := some { s with allocated := none, failed := true } }
    | .ok done =>
        c' = { c with
          store := c.store.after done
          session := some { s with
            container := done.container
            queue := rest
            allocated := none
            outbox := some done.event } }

/-- The event and its commit handle reach the consumer. -/
def Deliver : Action (Client β) := fun c c' =>
  ∃ s event, c.session = some s ∧ s.outbox = some event ∧ c' = { c with
      session := some { s with outbox := none, handles := event.id :: s.handles }
      delivered := event :: c.delivered }

/-- The consumer calls one of its commit handles. -/
def CommitHandle : Action (Client β) := fun c c' =>
  ∃ s id, c.session = some s ∧ s.allocated = none ∧ id ∈ s.handles ∧ c' = { c with
      store := (s.container.commit c.store id).2
      session := some { s with container := (s.container.commit c.store id).1 } }

def Crash : Action (Client β) := fun c c' => c' = { c with session := none }

/-- A step of a client whose server sends the admitted responses. -/
def Next (admits : ResponseBatch β → Prop) : Action (Client β) := fun c c' =>
  Connect c c' ∨ (∃ response, admits response ∧ Respond response c c') ∨ Allocate c c' ∨
    Execute retention c c' ∨ Deliver c c' ∨ CommitHandle c c' ∨ Crash c c'

/-! ## Executable steps -/

/-- The choices that a run leaves open. -/
inductive Input (β : Type) where
  | connect
  | respond (response : ResponseBatch β)
  | allocate
  | execute
  | deliver
  | commit (id : Nat)
  | crash

/-- The step that an input asks for, if it is possible and succeeds. -/
def perform (c : Client β) : Input β → Option (Client β)
  | .connect =>
      match c.session with
      | none => some { c with session := some (openSession c.store) }
      | some _ => none
  | .respond response =>
      match c.session with
      | some s =>
          if !s.failed && s.queue.isEmpty && s.allocated.isNone && s.outbox.isNone then
            match protocolMessages s.previous response with
            | .error _ => none
            | .ok messages =>
                some { c with session := some { s with
                  queue := messages.map .message
                  previous := response.ranges } }
          else none
      | none => none
  | .allocate =>
      match c.session with
      | some s =>
          if !s.failed && !s.queue.isEmpty && s.allocated.isNone && s.outbox.isNone then
            some { c with
              store := c.store.advance (s.container.next + 1)
              session := some { s with
                container := { s.container with next := s.container.next + 1 }
                allocated := some s.container.next } }
          else none
      | none => none
  | .execute =>
      match c.session with
      | some s =>
          match s.allocated, s.queue with
          | some id, action :: rest =>
              if s.failed then none
              else
                match s.container.execute retention id action with
                | .error _ => none
                | .ok done =>
                    some { c with
                      store := c.store.after done
                      session := some { s with
                        container := done.container
                        queue := rest
                        allocated := none
                        outbox := some done.event } }
          | _, _ => none
      | none => none
  | .deliver =>
      match c.session with
      | some s =>
          match s.outbox with
          | some event =>
              some { c with
                session := some { s with outbox := none, handles := event.id :: s.handles }
                delivered := event :: c.delivered }
          | none => none
      | none => none
  | .commit id =>
      match c.session with
      | some s =>
          if s.allocated.isNone && s.handles.contains id then
            some { c with
              store := (s.container.commit c.store id).2
              session := some { s with container := (s.container.commit c.store id).1 } }
          else none
      | none => none
  | .crash => some { c with session := none }

/-- A run with the given inputs. -/
def performAll (retention : Nat) (c : Client β) : List (Input β) → Option (Client β)
  | [] => some c
  | i :: rest =>
      match perform retention c i with
      | none => none
      | some c' => performAll retention c' rest

/-- The client before its first connection. -/
def initial : Client β := ⟨⟨[], 0⟩, none, []⟩

/-- The action that an input asks for. -/
def Input.action : Input β → Action (Client β)
  | .connect => Connect
  | .respond response => Respond response
  | .allocate => Allocate
  | .execute => Execute retention
  | .deliver => Deliver
  | .commit _ => CommitHandle
  | .crash => Crash

variable {retention : Nat} {c c' : Client β}

theorem perform_action {i : Input β} (h : perform retention c i = some c') :
    i.action retention c c' := by
  cases i
  case crash =>
    cases h
    exact rfl
  all_goals
    simp only [perform] at h
    split at h
  -- nothing is performed if the session is not as the input needs it
  any_goals cases h
  next hs => exact ⟨hs, rfl⟩
  next s hs =>
    split at h
    swap
    · cases h
    rename_i hidle
    simp only [Bool.and_eq_true, Bool.not_eq_true', List.isEmpty_iff,
      Option.isNone_iff_eq_none] at hidle
    split at h
    · cases h
    · rename_i messages hmessages
      cases h
      refine ⟨s, hs, hidle.1.1.1, hidle.1.1.2, hidle.1.2, hidle.2, ?_⟩
      rw [hmessages]
  next s hs =>
    split at h
    · rename_i hidle
      simp only [Bool.and_eq_true, Bool.not_eq_true', Option.isNone_iff_eq_none] at hidle
      cases h
      refine ⟨s, hs, hidle.1.1.1, ?_, hidle.1.2, hidle.2, rfl⟩
      intro hnil
      simp [hnil] at hidle
    · cases h
  next s hs =>
    split at h
    swap
    · cases h
    rename_i id action rest halloc hqueue
    split at h
    · cases h
    rename_i hfailed
    split at h
    · cases h
    · rename_i done hdone
      cases h
      refine ⟨s, id, action, rest, hs, by simpa using hfailed, halloc, hqueue, ?_⟩
      rw [hdone]
  next s hs =>
    split at h
    · rename_i event hout
      cases h
      exact ⟨s, event, hs, hout, rfl⟩
    · cases h
  next id _ s hs =>
    split at h
    · rename_i hhandle
      simp only [Bool.and_eq_true, Option.isNone_iff_eq_none, List.contains_iff_mem] at hhandle
      cases h
      exact ⟨s, id, hs, hhandle.1, hhandle.2, rfl⟩
    · cases h

theorem Input.action_next {admits : ResponseBatch β → Prop} {i : Input β}
    (hadmits : ∀ response, i = .respond response → admits response) (h : i.action retention c c') :
    Next retention admits c c' := by
  cases i with
  | connect => exact .inl h
  | respond response => exact .inr (.inl ⟨response, hadmits response rfl, h⟩)
  | allocate => exact .inr (.inr (.inl h))
  | execute => exact .inr (.inr (.inr (.inl h)))
  | deliver => exact .inr (.inr (.inr (.inr (.inl h))))
  | commit id => exact .inr (.inr (.inr (.inr (.inr (.inl h)))))
  | crash => exact .inr (.inr (.inr (.inr (.inr (.inr h)))))

theorem performAll_reachable {admits : ResponseBatch β → Prop} {inputs : List (Input β)}
    (hc : Reachable Init (Next retention admits) c)
    (hadmits : ∀ response, .respond response ∈ inputs → admits response)
    (h : performAll retention c inputs = some c') :
    Reachable Init (Next retention admits) c' := by
  induction inputs generalizing c with
  | nil =>
    cases h
    exact hc
  | cons i rest ih =>
    simp only [performAll] at h
    split at h
    · cases h
    rename_i c₁ hi
    refine ih (.step hc (Input.action_next ?_ (perform_action hi))) ?_ h
    · rintro response rfl
      exact hadmits response (by simp)
    · intro response hr
      exact hadmits response (List.mem_cons_of_mem _ hr)

end Client

end CampNode

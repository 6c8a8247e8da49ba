import CampNode.Core.Transition
import CampNode.Worker.Jobs

/-!
# CampNode.Worker.Attempts — the attempts of a job

The status of one job and its rows in `job_attempts`. A worker that sets a terminal status sets the
completion time of the latest attempt after that, unless it crashes in between. A reschedule
inserts the next attempt.

The registration inserts no attempt. So the attempts are those of the reschedules, attempt 0 is the
first retry, and no job has an attempt for each scheduling (`attempts_never_recorded`).
-/

namespace CampNode

structure JobAttempt where
  retryIndex : Nat
  completed : Bool
deriving DecidableEq

structure JobHistory where
  status : JobStatus
  /-- The last attempt comes first. -/
  attempts : List JobAttempt
  schedulings : Nat

/-- The statuses from which a status may be set. -/
def JobStatus.expected : JobStatus → List JobStatus
  | .running => [.scheduled]
  | .stopRequested => [.running, .scheduled]
  | .stopping => [.stopRequested]
  | .stopped => [.stopping]
  | .completed => [.running]
  | .failed => [.scheduled, .running]
  | .scheduled | .unknown => []

inductive JobEvent where
  /-- `mark_running`, `request_stop` and `mark_stopping`. -/
  | update (new : JobStatus)
  /-- `mark_job_stopped`, `mark_job_completed` and `mark_job_failed`. -/
  | finish (new : JobStatus) (crash : Bool)
  | reschedule

namespace JobHistory

/-- `register` inserts the job, and no attempt. -/
def register : JobHistory := ⟨.scheduled, [], 1⟩

variable (s : JobHistory)

def indices : List Nat := s.attempts.map (·.retryIndex)

def getCurrentRetryIndex : Nat := s.indices.max?.getD 0

def markAttemptCompleted (retryIndex : Nat) : List JobAttempt :=
  s.attempts.map fun a => { a with completed := a.completed || a.retryIndex = retryIndex }

def perform : JobEvent → Option JobHistory
  | .update new =>
      if new ∉ JobStatus.terminalStatuses ∧ s.status ∈ new.expected then
        some { s with status := new }
      else none
  | .finish new crash =>
      if new ∈ JobStatus.terminalStatuses ∧ s.status ∈ new.expected then
        some { s with
          status := new
          attempts := if crash then s.attempts else s.markAttemptCompleted s.getCurrentRetryIndex }
      else none
  | .reschedule =>
      if s.status = .failed then
        some ⟨.scheduled, ⟨JobsTable.nextRetryIndex s.indices, false⟩ :: s.attempts,
          s.schedulings + 1⟩
      else none

def Next : Action JobHistory := fun s s' => ∃ event, s.perform event = some s'

/-- There is one attempt for each scheduling, with the indices in order, and in a terminal status
the last one is completed. -/
def Recorded : Prop :=
  s.indices = (List.range s.schedulings).reverse ∧
    (s.status ∈ JobStatus.terminalStatuses → ∃ a ∈ s.attempts.head?, a.completed = true)

/-- There is one attempt for each reschedule. -/
def Inv : Prop := ∃ k, s.schedulings = k + 1 ∧ s.indices = (List.range k).reverse

theorem nextRetryIndex_range (k : Nat) : JobsTable.nextRetryIndex (List.range k).reverse = k := by
  induction k with
  | zero => rfl
  | succ k ih =>
    rw [List.range_succ, List.reverse_append, List.reverse_singleton]
    exact (congrArg (max (k + 1)) ih).trans (Nat.max_eq_left (Nat.le_succ k))

variable {s} {s' : JobHistory}

theorem Inv.step {event : JobEvent} (h : s.Inv) (hstep : s.perform event = some s') : s'.Inv := by
  obtain ⟨k, hcount, hindices⟩ := h
  cases event <;> simp only [perform] at hstep <;> split at hstep <;> cases hstep
  case update => exact ⟨k, hcount, hindices⟩
  case finish new crash _ =>
    refine ⟨k, hcount, ?_⟩
    cases crash with
    | true => exact hindices
    | false => exact List.map_map.trans hindices
  case reschedule =>
    refine ⟨k + 1, congrArg (· + 1) hcount, ?_⟩
    rw [hindices, nextRetryIndex_range, List.range_succ, List.reverse_append, ← hindices]
    rfl

/-- In every history of a job there is one attempt for each reschedule, and so never one for each
scheduling. -/
theorem attempts_never_recorded (h : Reachable (· = register) Next s) : s.Inv ∧ ¬ s.Recorded := by
  have hinv : s.Inv := by
    refine init_invariant _ _ Inv ?_ ?_ s h
    · rintro _ rfl
      exact ⟨0, rfl, rfl⟩
    · rintro s s' ⟨event, hstep⟩ h
      exact h.step hstep
  refine ⟨hinv, fun hrecorded => ?_⟩
  obtain ⟨k, hcount, hindices⟩ := hinv
  have hlength := congrArg List.length (hindices.symm.trans hrecorded.1)
  simp [hcount] at hlength

/-- A job fails and is rescheduled. -/
def retried : JobHistory := ⟨.scheduled, [⟨0, false⟩], 2⟩

theorem attempts_never_recorded_retried : retried.Inv ∧ ¬ retried.Recorded := by
  have hfailed : Reachable (· = register) Next ⟨.failed, [], 1⟩ :=
    .step (.init rfl) ⟨.finish .failed false, rfl⟩
  exact attempts_never_recorded (.step hfailed ⟨.reschedule, rfl⟩)

/-- A job that completes at once has no attempt whose completion time could be set. -/
theorem no_attempt_completed :
    ((register.perform (.update .running)).bind (·.perform (.finish .completed false))).map
      (fun s => (s.status, s.attempts, s.schedulings)) = some (.completed, [], 1) := rfl

end JobHistory

end CampNode

import CampNode.Core.Transition
import CampNode.Worker.Jobs

/-!
# CampNode.Worker.Service — the controller and the workers

The controller schedules, stops and retries jobs: it writes the jobs table and sends a
notification to the worker of the job. A worker starts with the jobs that the table
assigns to it and then runs its main loop, which takes a notification, the result of a
task or a reconcile tick at a time. Every error ends the worker.

The steps are those between which something else can happen. A worker reads jobs from
the table and acts on them one by one, so that the table can change in between: the
calls of `spawn_job` and `abort_job` that are still to come are kept with the jobs as
they were read. `spawn_job` itself takes two steps, one for the status and one for the
physical tables. Each step makes at most one access to the jobs table; what the worker
does to its own job set commutes with the steps of others and belongs to the same step.
A node id belongs to one worker at a time, which holds an advisory lock for it.

A notification that was sent can be handled at any later time, any number of times or
never. The job that a task runs is not modelled: it can end at any time, in any way.
-/

namespace CampNode

/-! ## Notifications and tasks -/

inductive JobAction where
  | start
  | stop
deriving DecidableEq, Repr

structure JobNotification where
  jobId : Nat
  action : JobAction
deriving DecidableEq, Repr

/-- The result of a joined task. -/
inductive JobResult where
  | completed
  | failed
  | aborted
  | panicked
deriving DecidableEq, Repr

inductive Task where
  | running
  /-- Aborted, but the task has not noticed yet. -/
  | aborting
  | finished (result : JobResult)
deriving DecidableEq, Repr

def Task.isFinished : Task → Bool
  | .finished _ => true
  | _ => false

/-- The tasks that are spawned and not joined yet. -/
abbrev JobSet := Nat → Option Task

namespace JobSet

def empty : JobSet := fun _ => none

variable (set : JobSet) (id : Nat)

def jobRunning : Bool := (set id).isSome

variable (task : Option Task)

def put : JobSet :=
  fun i => if i = id then task else set i

def spawn : JobSet := set.put id (some .running)

/-- A task that is not there or has finished is left alone. -/
def abort : JobSet :=
  match set id with
  | some .running => set.put id (some .aborting)
  | _ => set

/-- `join_next_with_id` removes the job from the set. -/
def remove : JobSet := set.put id none

@[simp] theorem put_self : set.put id task id = task := if_pos rfl

theorem put_of_ne {id i : Nat} (h : i ≠ id) : set.put id task i = set i := if_neg h

/-- An abort reaches a task only while it runs. -/
theorem abort_cases : set id = some .running ∧ set.abort id = set.put id (some .aborting) ∨
      set id ≠ some .running ∧ set.abort id = set := by
  unfold abort
  cases set id with
  | none => exact .inr ⟨nofun, rfl⟩
  | some task =>
    cases task with
    | running => exact .inl ⟨rfl, rfl⟩
    | aborting => exact .inr ⟨nofun, rfl⟩
    | finished result => exact .inr ⟨nofun, rfl⟩

end JobSet

/-! ## The worker -/

inductive WorkerError where
  | statusUpdate (error : JobStatusUpdateError)
  /-- The descriptor does not parse or the job cannot be created. -/
  | jobInitialization
deriving DecidableEq, Repr

inductive Life where
  | off
  | live
  | ended (error : WorkerError)
deriving DecidableEq, Repr

section

variable {ν : Type}

/-- A call that the worker is about to make. -/
inductive Call (ν : Type) where
  | spawnJob (job : Job ν)
  /-- The part of `spawn_job` after the status update. -/
  | initJob (job : Job ν)
  | abortJob (id : Nat)

def Call.id : Call ν → Nat
  | .spawnJob job => job.id
  | .initJob job => job.id
  | .abortJob id => id

structure Worker (ν : Type) where
  life : Life
  /-- The calls that are left of the current iteration. -/
  calls : List (Call ν)
  jobSet : JobSet

/-- The table after a call, what is left of the call, and the job set. -/
abbrev CallResult (ν : Type) :=
  Except JobStatusUpdateError (JobsTable ν × List (Call ν) × JobSet)

namespace Worker

variable (table : JobsTable ν) (set : JobSet)

/-- A job that was read as running is not marked again. -/
def spawnJob (job : Job ν) : CallResult ν :=
  if set.jobRunning job.id then .ok (table, [], set)
  else if job.status = .running then .ok (table, [.initJob job], set)
  else
    match table.markRunning job.id with
    | .error e => .error e
    | .ok table' => .ok (table', [.initJob job], set)

def abortJob (id : Nat) : CallResult ν :=
  match table.markStopping id with
  | .error e => .error e
  | .ok table' => .ok (table', [], set.abort id)

/-- The status update for the result of a task. -/
def markResult (id : Nat) : JobResult → Except JobStatusUpdateError (JobsTable ν)
  | .completed => table.markCompleted id
  | .failed => table.markFailed id
  | .aborted => table.markStopped id
  | .panicked => table.markFailed id

def handleJobResult (id : Nat) (result : JobResult) : CallResult ν :=
  match markResult table id result with
  | .error e => .error e
  | .ok table' => .ok (table', [], set.remove id)

/-- What `reconcile_jobs` does with an active job. -/
def reconcileCall (job : Job ν) : Option (Call ν) :=
  match job.status with
  | .scheduled => some (.spawnJob job)
  | .running => some (.spawnJob job)
  | .stopRequested => some (.abortJob job.id)
  | _ => none

def off : Worker ν := ⟨.off, [], JobSet.empty⟩

/-- All jobs are aborted when the job set is dropped. -/
def ended (error : WorkerError) : Worker ν := ⟨.ended error, [], JobSet.empty⟩

/-- The worker waits in its main loop. -/
def idle (w : Worker ν) : Bool := decide (w.life = .live) && w.calls.isEmpty

/-- A restarted worker takes up its scheduled and running jobs. -/
def boot [DecidableEq ν] (node : ν) : Worker ν :=
  ⟨.live, (table.getScheduled node).map .spawnJob, JobSet.empty⟩

end Worker

end

/-! ## The system -/

structure Cluster (ν : Type) where
  table : JobsTable ν
  locations : List PhysicalTable
  /-- Schedule calls that found no existing job and are about to register one. -/
  pending : List (ManifestHash × ν)
  /-- Failed jobs that the controller has read and is about to reschedule. -/
  retries : List (Job ν × Nat)
  /-- Every notification that was sent, with its node. -/
  sent : List (ν × JobNotification)
  workers : ν → Worker ν

/-- The choices that a run leaves open. -/
inductive Event (ν : Type) where
  | schedule (manifest : ManifestHash) (node : ν)
  | register (manifest : ManifestHash) (node : ν)
  | stop (id : Nat)
  | fetchFailed (ready : List Nat)
  | retry
  | delete (id : Nat)
  | boot (node : ν)
  | crash (node : ν)
  | notify (node : ν) (notification : JobNotification)
  | tick (node : ν)
  /-- The tables of the dataset, or a failure, if a job is initialized. -/
  | call (node : ν) (tables : Option (List String))
  | finish (node : ν) (id : Nat) (result : JobResult)
  | join (node : ν) (id : Nat)

namespace Cluster

variable {ν : Type}

def initial : Cluster ν := ⟨JobsTable.empty, [], [], [], [], fun _ => .off⟩

def Init : StatePred (Cluster ν) := fun s => s = initial

/-! ### The controller -/

variable (s : Cluster ν) (manifest : ManifestHash)

/-- The first part of `schedule_dataset_sync_job`: look for a scheduled or running job of
the dataset. -/
def scheduleJob (node : ν) : Cluster ν :=
  if (s.table.getJobsByDataset s.locations manifest).any fun job =>
      job.status == .scheduled || job.status == .running then s
  else { s with pending := (manifest, node) :: s.pending }

/-- The second part: register the job and notify its worker. -/
def registerJob [DecidableEq ν] (node : ν) : Cluster ν :=
  { s with
    table := s.table.register node manifest
    pending := s.pending.erase (manifest, node)
    sent := (node, ⟨s.table.nextId, .start⟩) :: s.sent }

/-- A failed stop leaves everything as it is; a repeated one sends a notification
again. -/
def stopJob (id : Nat) : Cluster ν :=
  match s.table.getById id with
  | none => s
  | some job =>
      match s.table.requestStop id with
      | .error _ => s
      | .ok table =>
          { s with
            table := table
            sent := (job.nodeId, ⟨id, .stop⟩) :: s.sent }

/-- The next round of `reconcile_failed_jobs`. -/
def retryJob : Cluster ν :=
  match s.retries with
  | [] => s
  | (job, retryIndex) :: rest =>
      match s.table.reschedule job.id job.nodeId retryIndex with
      | none => { s with retries := rest }
      | some table =>
          { s with
            table := table
            sent := (job.nodeId, ⟨job.id, .start⟩) :: s.sent
            retries := rest }

/-! ### The workers -/

variable [DecidableEq ν]

def setWorker (node : ν) (w : Worker ν) : Cluster ν :=
  { s with workers := fun n => if n = node then w else s.workers n }

/-- A call of the worker returns. -/
def settle (node : ν) (rest : List (Call ν)) : CallResult ν → Cluster ν
  | .error e => s.setWorker node (.ended (.statusUpdate e))
  | .ok (table, calls, set) => { s with table := table }.setWorker node ⟨.live, calls ++ rest, set⟩

/-- `job_impl::new` and the spawn of the task. -/
def initJob (node : ν) (rest : List (Call ν)) (job : Job ν) : Option (List String) → Cluster ν
  | none => s.setWorker node (.ended .jobInitialization)
  | some tables =>
      { s with
        locations := PhysicalTable.assignJobWriter
          (PhysicalTable.registerAll s.locations job.manifest tables) job.manifest tables job.id
      }.setWorker node ⟨.live, rest, (s.workers node).jobSet.spawn job.id⟩

/-- Make the next call. -/
def performCall (node : ν) (rest : List (Call ν)) (tables : Option (List String)) :
    Call ν → Cluster ν
  | .spawnJob job => s.settle node rest (Worker.spawnJob s.table (s.workers node).jobSet job)
  | .initJob job => s.initJob node rest job tables
  | .abortJob id => s.settle node rest (Worker.abortJob s.table (s.workers node).jobSet id)

def handleJobNotificationAction (node : ν) (notification : JobNotification) : Cluster ν :=
  match notification.action with
  | .start =>
      match s.table.getById notification.jobId with
      | none => s
      | some job => s.setWorker node { s.workers node with calls := [.spawnJob job] }
  | .stop =>
      s.settle node [] (Worker.abortJob s.table (s.workers node).jobSet notification.jobId)

def reconcileJobs (node : ν) : Cluster ν :=
  s.setWorker node { s.workers node with
    calls := (s.table.getActive node).filterMap Worker.reconcileCall }

def putTask (node : ν) (id : Nat) (task : Task) : Cluster ν :=
  s.setWorker node { s.workers node with
    jobSet := (s.workers node).jobSet.put id (some task) }

/-- The task ends, as aborted only if it was. -/
def finishTask (node : ν) (id : Nat) (result : JobResult) : Option (Cluster ν) :=
  match (s.workers node).jobSet id with
  | some .running =>
      if result = .aborted then none else some (s.putTask node id (.finished result))
  | some .aborting => some (s.putTask node id (.finished result))
  | _ => none

def step (s : Cluster ν) : Event ν → Option (Cluster ν)
  | .schedule manifest node => some (s.scheduleJob manifest node)
  | .register manifest node =>
      if (manifest, node) ∈ s.pending then some (s.registerJob manifest node) else none
  | .stop id => some (s.stopJob id)
  | .fetchFailed ready =>
      some { s with retries := s.retries ++ s.table.getFailedJobsReadyForRetry ready }
  | .retry => some s.retryJob
  | .delete id => some { s with table := s.table.deleteIfTerminal id }
  | .boot node =>
      if (s.workers node).life = .live then none
      else some (s.setWorker node (.boot s.table node))
  | .crash node => some (s.setWorker node .off)
  | .notify node notification =>
      if (s.workers node).idle = true ∧ (node, notification) ∈ s.sent then
        some (s.handleJobNotificationAction node notification)
      else none
  | .tick node => if (s.workers node).idle then some (s.reconcileJobs node) else none
  | .call node tables =>
      match (s.workers node).calls with
      | [] => none
      | call :: rest => some (s.performCall node rest tables call)
  | .finish node id result => s.finishTask node id result
  | .join node id =>
      match (s.workers node).idle, (s.workers node).jobSet id with
      | true, some (.finished result) =>
          some (s.settle node []
            (Worker.handleJobResult s.table (s.workers node).jobSet id result))
      | _, _ => none

def Next : Action (Cluster ν) := fun s s' => ∃ e, step s e = some s'

/-- What a step can do, with the guard of each event. -/
inductive Steps (s : Cluster ν) : Event ν → Cluster ν → Prop
  | schedule (manifest node) : Steps s (.schedule manifest node) (s.scheduleJob manifest node)
  | register (manifest node) : (manifest, node) ∈ s.pending →
      Steps s (.register manifest node) (s.registerJob manifest node)
  | stop (id) : Steps s (.stop id) (s.stopJob id)
  | fetchFailed (ready) : Steps s (.fetchFailed ready)
      { s with retries := s.retries ++ s.table.getFailedJobsReadyForRetry ready }
  | retry : Steps s .retry s.retryJob
  | delete (id) : Steps s (.delete id) { s with table := s.table.deleteIfTerminal id }
  | boot (node) : (s.workers node).life ≠ .live →
      Steps s (.boot node) (s.setWorker node (.boot s.table node))
  | crash (node) : Steps s (.crash node) (s.setWorker node .off)
  | notify (node notification) : (node, notification) ∈ s.sent →
      Steps s (.notify node notification) (s.handleJobNotificationAction node notification)
  | tick (node) : Steps s (.tick node) (s.reconcileJobs node)
  | call (node tables call rest) : (s.workers node).calls = call :: rest →
      Steps s (.call node tables) (s.performCall node rest tables call)
  | finish (node id result task) : (s.workers node).jobSet id = some task →
      (task = .running ∧ result ≠ .aborted ∨ task = .aborting) →
      Steps s (.finish node id result) (s.putTask node id (.finished result))
  | join (node id result) : (s.workers node).jobSet id = some (.finished result) →
      Steps s (.join node id)
        (s.settle node [] (Worker.handleJobResult s.table (s.workers node).jobSet id result))

theorem step_steps {s s' : Cluster ν} {e : Event ν} (h : step s e = some s') : Steps s e s' := by
  cases e <;> simp only [step, finishTask] at h
  case schedule | stop | fetchFailed | retry | delete | crash =>
    cases h
    constructor
  all_goals split at h
  -- no step where the guard fails
  any_goals cases h
  next hmem => exact .register _ _ hmem
  next hlife => exact .boot _ hlife
  next hguard => exact .notify _ _ hguard.2
  next => exact .tick _
  next call rest hcalls => exact .call _ _ call rest hcalls
  next htask =>
    split at h
    · cases h
    · rename_i hresult
      cases h
      exact .finish _ _ _ .running htask (.inl ⟨rfl, hresult⟩)
  next htask => exact .finish _ _ _ .aborting htask (.inr rfl)
  next result _ htask => exact .join _ _ result htask

end Cluster

end CampNode

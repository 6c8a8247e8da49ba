import Mathlib.Data.List.Nodup

/-!
# CampNode.Worker.Jobs — the jobs table and the physical tables

The controller and the workers share the `jobs` table of the metadata database.
Every status update names the statuses from which it may be made and reports a
state conflict in all others; only the retry of a failed job is unconditional. The
`physical_tables` table links the tables of a dataset to the job that writes them.

A statement of the database is one atomic step. Ids come from an identity column and
are never used again, not even after a delete. Timestamps are left out, of the job
descriptor all but the manifest hash, and so are errors of the database itself. The
attempts of a job stand in its row: their table refers to the job and is deleted with
it.
-/

namespace CampNode

inductive JobStatus where
  | scheduled
  | running
  | completed
  | stopped
  | stopRequested
  | stopping
  | failed
  | unknown
deriving DecidableEq, Repr

def JobStatus.terminalStatuses : List JobStatus := [.completed, .stopped, .failed]

abbrev ManifestHash := BitVec 256

/-- A job as it is read from the table. -/
structure Job (ν : Type) where
  id : Nat
  nodeId : ν
  status : JobStatus
  manifest : ManifestHash
deriving DecidableEq, Repr

/-- The row of a job, with the retry indices of its attempts. -/
structure JobRow (ν : Type) where
  nodeId : ν
  status : JobStatus
  manifest : ManifestHash
  attempts : List Nat
deriving DecidableEq, Repr

structure JobsTable (ν : Type) where
  rows : Nat → Option (JobRow ν)
  /-- The next value of the identity column. -/
  nextId : Nat
  fresh : ∀ id, nextId ≤ id → rows id = none

/-- A revision of a table of a dataset. -/
structure PhysicalTable where
  manifest : ManifestHash
  tableName : String
  active : Bool
  writer : Option Nat
deriving DecidableEq, Repr

inductive JobStatusUpdateError where
  | notFound
  | stateConflict (expected : List JobStatus) (actual : JobStatus)
deriving DecidableEq, Repr

namespace PhysicalTable

/-- The active revision of a table of a dataset. -/
def isActive (l : PhysicalTable) (manifest : ManifestHash) (tableName : String) : Bool :=
  l.active && decide (l.manifest = manifest) && decide (l.tableName = tableName)

/-- Every table of the dataset gets an active revision. -/
def registerAll (locations : List PhysicalTable) (manifest : ManifestHash) :
    List String → List PhysicalTable
  | [] => locations
  | name :: names =>
      if locations.any (·.isActive manifest name) then registerAll locations manifest names
      else registerAll (locations ++ [⟨manifest, name, true, none⟩]) manifest names

def assignJobWriter (locations : List PhysicalTable) (manifest : ManifestHash)
    (names : List String) (job : Nat) : List PhysicalTable :=
  locations.map fun l =>
    if names.any (l.isActive manifest) then { l with writer := some job } else l

end PhysicalTable

namespace JobsTable

variable {ν : Type}

def empty : JobsTable ν := ⟨fun _ => none, 1, fun _ _ => rfl⟩

variable (table : JobsTable ν) (id : Nat) (f : JobRow ν → JobRow ν)

/-- `UPDATE jobs … WHERE id = …`. -/
def modify : JobsTable ν where
  rows i := if i = id then (table.rows i).map f else table.rows i
  nextId := table.nextId
  fresh i hi := by simp [table.fresh i hi]

/-- `DELETE FROM jobs WHERE id = … AND status = ANY(…)`. -/
def deleteByIdAndStatuses (statuses : List JobStatus) : JobsTable ν where
  rows i := if i = id then (table.rows i).filter fun row => !statuses.contains row.status
    else table.rows i
  nextId := table.nextId
  fresh i hi := by simp [table.fresh i hi]

variable (node : ν)

/-- A new job in the default status; its id is the old `nextId`. -/
def register (manifest : ManifestHash) : JobsTable ν where
  rows i := if i = table.nextId then some ⟨node, .scheduled, manifest, []⟩ else table.rows i
  nextId := table.nextId + 1
  fresh i hi := by
    rw [if_neg (by omega)]
    exact table.fresh i (by omega)

/-! ## Status updates -/

variable (status : JobStatus)

def setStatus : JobsTable ν :=
  table.modify id fun row => { row with status := status }

def updateStatusIfAnyState (expected : List JobStatus) (new : JobStatus) :
    Except JobStatusUpdateError (JobsTable ν) :=
  match table.rows id with
  | none => .error .notFound
  | some row =>
      if row.status ∈ expected then .ok (table.setStatus id new)
      else .error (.stateConflict expected row.status)

/-- A job that is already stopping counts as success. -/
def requestStop : Except JobStatusUpdateError (JobsTable ν) :=
  match table.updateStatusIfAnyState id [.running, .scheduled] .stopRequested with
  | .ok table' => .ok table'
  | .error (.stateConflict _ .stopRequested) => .ok table
  | .error (.stateConflict _ .stopping) => .ok table
  | .error e => .error e

def markRunning : Except JobStatusUpdateError (JobsTable ν) :=
  table.updateStatusIfAnyState id [.scheduled] .running

def markStopping : Except JobStatusUpdateError (JobsTable ν) :=
  table.updateStatusIfAnyState id [.stopRequested] .stopping

def markStopped : Except JobStatusUpdateError (JobsTable ν) :=
  table.updateStatusIfAnyState id [.stopping] .stopped

def markCompleted : Except JobStatusUpdateError (JobsTable ν) :=
  table.updateStatusIfAnyState id [.running] .completed

def markFailed : Except JobStatusUpdateError (JobsTable ν) :=
  table.updateStatusIfAnyState id [.scheduled, .running] .failed

def deleteIfTerminal : JobsTable ν :=
  table.deleteByIdAndStatuses id JobStatus.terminalStatuses

/-- Back to scheduled from any status, with a new attempt. The transaction fails if
the job is gone or the attempt exists. -/
def reschedule (retryIndex : Nat) : Option (JobsTable ν) :=
  match table.rows id with
  | none => none
  | some row =>
      if retryIndex ∈ row.attempts then none
      else some (table.modify id fun row =>
        ⟨node, .scheduled, row.manifest, retryIndex :: row.attempts⟩)

/-! ## Queries -/

def getById : Option (Job ν) :=
  (table.rows id).map fun row => ⟨id, row.nodeId, row.status, row.manifest⟩

/-- The jobs that satisfy a condition, in the order of their ids. -/
def select (p : Job ν → Bool) : List (Job ν) :=
  (List.range table.nextId).filterMap fun id => (table.getById id).filter p

def getByNodeIdAndStatuses [DecidableEq ν] (statuses : List JobStatus) : List (Job ν) :=
  table.select fun job => decide (job.nodeId = node) && statuses.contains job.status

def getScheduled [DecidableEq ν] : List (Job ν) :=
  table.getByNodeIdAndStatuses node [.scheduled, .running]

def getActive [DecidableEq ν] : List (Job ν) :=
  table.getByNodeIdAndStatuses node [.scheduled, .running, .stopRequested]

/-- The jobs that are the writer of some physical table of a dataset. -/
def getJobsByDataset (locations : List PhysicalTable) (manifest : ManifestHash) : List (Job ν) :=
  table.select fun job =>
    locations.any fun l => decide (l.manifest = manifest) && decide (l.writer = some job.id)

/-- One more than the greatest retry index, 0 without attempts. -/
def nextRetryIndex (attempts : List Nat) : Nat := attempts.foldr (fun i n => max (i + 1) n) 0

/-- Failed jobs with their next retry index. The clock decides which of them have waited
long enough. -/
def getFailedJobsReadyForRetry (ready : List Nat) : List (Job ν × Nat) :=
  (table.select fun job => decide (job.status = .failed) && ready.contains job.id).filterMap
    fun job => (table.rows job.id).map fun row => (job, nextRetryIndex row.attempts)

/-! ## What a statement changes -/

@[simp] theorem modify_rows_self : (table.modify id f).rows id = (table.rows id).map f := if_pos rfl

theorem modify_rows_of_ne {id i : Nat} (h : i ≠ id) :
    (table.modify id f).rows i = table.rows i := if_neg h

@[simp] theorem setStatus_rows_self : (table.setStatus id status).rows id =
      (table.rows id).map fun row => { row with status := status } :=
  modify_rows_self table id _

theorem setStatus_rows_of_ne {id i : Nat} (h : i ≠ id) :
    (table.setStatus id status).rows i = table.rows i :=
  modify_rows_of_ne table _ h

variable {id : Nat} {table table' : JobsTable ν} {row : JobRow ν} {expected : List JobStatus}
  {new : JobStatus} {job : Job ν}

/-- A row that is there after a deletion was there before. -/
theorem rows_of_deleteIfTerminal {id i : Nat} (h : (table.deleteIfTerminal id).rows i = some row) :
    table.rows i = some row := by
  change (if i = id then _ else _) = some row at h
  split at h
  · exact (Option.filter_eq_some_iff.mp h).1
  · exact h

/-- A job that has a row has used up its id. -/
theorem lt_nextId (table : JobsTable ν) (h : table.rows id = some row) : id < table.nextId := by
  by_contra hge
  rw [table.fresh id (by omega)] at h
  cases h

/-- A status update succeeds from an expected status. -/
theorem update_of_mem (hrow : table.rows id = some row) (hmem : row.status ∈ expected) :
    table.updateStatusIfAnyState id expected new = .ok (table.setStatus id new) := by
  unfold updateStatusIfAnyState
  rw [hrow]
  exact if_pos hmem

theorem update_of_none (hrow : table.rows id = none) :
    table.updateStatusIfAnyState id expected new = .error .notFound := by
  unfold updateStatusIfAnyState
  rw [hrow]

/-- A status update that succeeds was made from an expected status. -/
theorem update_ok (h : table.updateStatusIfAnyState id expected new = .ok table') :
    ∃ row, table.rows id = some row ∧ row.status ∈ expected ∧ table' = table.setStatus id new := by
  unfold updateStatusIfAnyState at h
  split at h
  · cases h
  rename_i row hrow
  split at h
  · rename_i hexpected
    cases h
    exact ⟨row, hrow, hexpected, rfl⟩
  · cases h

/-- A request to stop changes a scheduled or running job and nothing else. -/
theorem requestStop_ok (h : table.requestStop id = .ok table') :
    ∃ row, table.rows id = some row ∧ ((row.status = .running ∨ row.status = .scheduled) ∧
          table' = table.setStatus id .stopRequested ∨
        (row.status = .stopRequested ∨ row.status = .stopping) ∧ table' = table) := by
  unfold requestStop updateStatusIfAnyState at h
  cases hrow : table.rows id with
  | none =>
    rw [hrow] at h
    cases h
  | some row =>
    rw [hrow] at h
    refine ⟨row, rfl, ?_⟩
    rcases row with ⟨node, status, manifest, attempts⟩
    cases status <;> cases h
    · exact .inl ⟨.inr rfl, rfl⟩
    · exact .inl ⟨.inl rfl, rfl⟩
    · exact .inr ⟨.inl rfl, rfl⟩
    · exact .inr ⟨.inr rfl, rfl⟩

theorem reschedule_some {node : ν} {retryIndex : Nat}
    (h : table.reschedule id node retryIndex = some table') :
    ∃ row, table.rows id = some row ∧ retryIndex ∉ row.attempts ∧
      table' = table.modify id fun row =>
        ⟨node, .scheduled, row.manifest, retryIndex :: row.attempts⟩ := by
  unfold reschedule at h
  split at h
  · cases h
  rename_i row hrow
  split at h
  · cases h
  · rename_i hnew
    cases h
    exact ⟨row, hrow, hnew, rfl⟩

/-! ## What a query returns -/

theorem getById_eq_some : table.getById id = some job ↔
      ∃ row, table.rows id = some row ∧ job = ⟨id, row.nodeId, row.status, row.manifest⟩ := by
  unfold getById
  rw [Option.map_eq_some_iff]
  constructor
  · rintro ⟨row, hrow, rfl⟩
    exact ⟨row, hrow, rfl⟩
  · rintro ⟨row, hrow, rfl⟩
    exact ⟨row, hrow, rfl⟩

theorem getById_of_row (h : table.rows id = some row) :
    table.getById id = some ⟨id, row.nodeId, row.status, row.manifest⟩ :=
  getById_eq_some.mpr ⟨row, h, rfl⟩

theorem mem_select {p : Job ν → Bool} (h : job ∈ table.select p) :
    table.getById job.id = some job ∧ p job = true := by
  rcases List.mem_filterMap.mp h with ⟨id, -, hid⟩
  rcases Option.filter_eq_some_iff.mp hid with ⟨hget, hp⟩
  rcases getById_eq_some.mp hget with ⟨row, -, rfl⟩
  exact ⟨hget, hp⟩

theorem mem_select_of_row {p : Job ν → Bool} (hrow : table.rows id = some row)
    (hp : p ⟨id, row.nodeId, row.status, row.manifest⟩ = true) :
    ⟨id, row.nodeId, row.status, row.manifest⟩ ∈ table.select p := by
  apply List.mem_filterMap.mpr
  exact ⟨id, List.mem_range.mpr (table.lt_nextId hrow),
    Option.filter_eq_some_iff.mpr ⟨getById_of_row hrow, hp⟩⟩

/-- Different jobs of a query have different ids. -/
theorem select_distinct (table : JobsTable ν) (p : Job ν → Bool) :
    (table.select p).Pairwise fun a b => a.id ≠ b.id := by
  unfold select
  rw [List.pairwise_filterMap]
  refine List.nodup_range.imp ?_
  intro i j hij a ha b hb
  rcases getById_eq_some.mp (Option.filter_eq_some_iff.mp ha).1 with ⟨-, -, rfl⟩
  rcases getById_eq_some.mp (Option.filter_eq_some_iff.mp hb).1 with ⟨-, -, rfl⟩
  exact hij

theorem mem_getByNodeIdAndStatuses [DecidableEq ν] {node : ν} {statuses : List JobStatus}
    (h : job ∈ table.getByNodeIdAndStatuses node statuses) :
    ∃ row, table.rows job.id = some row ∧ row.nodeId = node ∧ row.status = job.status ∧
      job.status ∈ statuses := by
  rcases mem_select h with ⟨hget, hp⟩
  rcases getById_eq_some.mp hget with ⟨row, hrow, hjob⟩
  simp only [Bool.and_eq_true, decide_eq_true_eq, List.contains_iff_mem] at hp
  have hnode : job.nodeId = row.nodeId := congrArg Job.nodeId hjob
  have hstatus : job.status = row.status := congrArg Job.status hjob
  exact ⟨row, hrow, hnode.symm.trans hp.1, hstatus.symm, hp.2⟩

theorem mem_getFailedJobsReadyForRetry {ready : List Nat} {retryIndex : Nat}
    (h : (job, retryIndex) ∈ table.getFailedJobsReadyForRetry ready) :
    ∃ row, table.rows job.id = some row ∧ row.nodeId = job.nodeId ∧ row.status = .failed ∧
      retryIndex = nextRetryIndex row.attempts := by
  rcases List.mem_filterMap.mp h with ⟨job', hjob', hindex⟩
  rcases Option.map_eq_some_iff.mp hindex with ⟨row, hrow, heq⟩
  cases heq
  rcases mem_select hjob' with ⟨hget, hp⟩
  rcases getById_eq_some.mp hget with ⟨row', hrow', hjob⟩
  rw [hrow] at hrow'
  cases hrow'
  simp only [Bool.and_eq_true, decide_eq_true_eq] at hp
  have hnode : job.nodeId = row.nodeId := congrArg Job.nodeId hjob
  have hstatus : job.status = row.status := congrArg Job.status hjob
  exact ⟨row, hrow, hnode.symm, hstatus.symm.trans hp.1, rfl⟩

end JobsTable

end CampNode

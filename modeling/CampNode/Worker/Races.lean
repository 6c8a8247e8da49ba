import CampNode.Worker.Service

/-!
# CampNode.Worker.Races — status updates that meet an unexpected status

A worker ends as soon as one of its status updates returns a state conflict. That
happens in ordinary runs: a job is stopped twice and the second notification arrives
after the first was handled, or a job completes while its stop is requested.

The main result names the races. In a run without them

* a stop does not come between the read of a scheduled job and its start, nor between
  the end of a task and the handling of its result;
* a notification is handled while it still says something: a start while the job is
  scheduled, running or tracked, a stop while it is only requested;
* a task ends by itself only while its job is marked as running,

and no status update conflicts. The retry of a failed job needs no condition although
it does not look at the status: an attempt is recorded once.
-/

namespace CampNode

open JobsTable JobSet Worker

variable {ν : Type}

/-! ## Tasks, calls and rows -/

/-- The statuses of a job whose task is in a given state. -/
def Task.Fits : Task → JobStatus → Prop
  | .running, status => status = .running ∨ status = .stopRequested
  | .aborting, status => status = .stopping
  | .finished .aborted, status => status = .stopping
  | .finished _, status => status = .running

/-- The statuses of a job for which a call is pending. -/
def Call.Fits : Call ν → JobStatus → Prop
  | .spawnJob job, status =>
      job.status = .scheduled ∧ status = .scheduled ∨
        job.status = .running ∧ (status = .running ∨ status = .stopRequested)
  | .initJob _, status => status = .running ∨ status = .stopRequested
  | .abortJob _, status => status = .stopRequested

/-- The call does nothing, because the job is tracked already. -/
def Call.Skips (set : JobSet) : Call ν → Prop
  | .spawnJob job => ∃ task, set job.id = some task
  | _ => False

theorem Task.Fits.active {task : Task} {status : JobStatus} (h : task.Fits status) :
    status ∉ JobStatus.terminalStatuses := by
  cases task with
  | running => rcases h with rfl | rfl <;> decide
  | aborting =>
    cases h
    decide
  | finished result =>
    cases result <;> cases h <;> decide

theorem Call.Fits.active {call : Call ν} {status : JobStatus} (h : call.Fits status) :
    status ∉ JobStatus.terminalStatuses := by
  cases call with
  | spawnJob job => rcases h with ⟨-, rfl⟩ | ⟨-, rfl | rfl⟩ <;> decide
  | initJob job => rcases h with rfl | rfl <;> decide
  | abortJob id =>
    cases h
    decide

namespace JobsTable

/-- The job is assigned to the node and its status satisfies `P`. -/
def Assigned (table : JobsTable ν) (id : Nat) (node : ν) (P : JobStatus → Prop) : Prop :=
  ∃ row, table.rows id = some row ∧ row.nodeId = node ∧ P row.status

variable {table table' : JobsTable ν} {id retryIndex : Nat} {node : ν}

theorem Assigned.node_eq {P : JobStatus → Prop} {row : JobRow ν} (h : table.Assigned id node P)
    (hrow : table.rows id = some row) :
    row.nodeId = node ∧ P row.status := by
  rcases h with ⟨row', hrow', hnode, hP⟩
  rw [hrow] at hrow'
  cases hrow'
  exact ⟨hnode, hP⟩

theorem Assigned.setStatus {P Q : JobStatus → Prop} {status : JobStatus}
    (h : table.Assigned id node P) (hQ : Q status) :
    (table.setStatus id status).Assigned id node Q := by
  rcases h with ⟨row, hrow, hnode, -⟩
  refine ⟨{ row with status := status }, ?_, hnode, hQ⟩
  rw [setStatus_rows_self, hrow]
  rfl

/-- The job, if it is there, belongs to the node. -/
def Addressed (table : JobsTable ν) (id : Nat) (node : ν) : Prop :=
  id < table.nextId ∧ ∀ row, table.rows id = some row → row.nodeId = node

/-- A retry that was read is out of date or the job is still failed. -/
def Retryable (table : JobsTable ν) (id retryIndex : Nat) : Prop :=
  ∀ row, table.rows id = some row →
    retryIndex ∈ row.attempts ∨ row.status = .failed ∧ retryIndex = nextRetryIndex row.attempts

/-- What every statement does to the jobs that exist: they keep their node and their
attempts, and a failed job stays as it is until its next attempt. -/
structure Evolves (table table' : JobsTable ν) : Prop where
  next : table.nextId ≤ table'.nextId
  rows : ∀ id row', id < table.nextId → table'.rows id = some row' →
    ∃ row, table.rows id = some row ∧ row'.nodeId = row.nodeId ∧
      (∀ i ∈ row.attempts, i ∈ row'.attempts) ∧
      (row.status = .failed → row' = row ∨ nextRetryIndex row.attempts ∈ row'.attempts)

theorem Evolves.refl (table : JobsTable ν) : table.Evolves table where
  next := Nat.le_refl _
  rows := by
    intro id row _ hrow
    exact ⟨row, hrow, rfl, fun _ hi => hi, fun _ => .inl rfl⟩

theorem Evolves.register (table : JobsTable ν) (node : ν) (manifest : ManifestHash) :
    table.Evolves (table.register node manifest) where
  next := Nat.le_succ _
  rows := by
    intro id row hid hrow
    have hold : table.rows id = some row := by
      rw [← hrow]
      exact (if_neg (by omega)).symm
    exact ⟨row, hold, rfl, fun _ hi => hi, fun _ => .inl rfl⟩

theorem Evolves.delete (table : JobsTable ν) (id : Nat) :
    table.Evolves (table.deleteIfTerminal id) where
  next := Nat.le_refl _
  rows := by
    intro i row _ hrow
    exact ⟨row, rows_of_deleteIfTerminal hrow, rfl, fun _ hi => hi, fun _ => .inl rfl⟩

theorem Evolves.setStatus {status : JobStatus}
    (hfailed : ∀ row, table.rows id = some row → row.status ≠ .failed) :
    table.Evolves (table.setStatus id status) where
  next := Nat.le_refl _
  rows := by
    intro i row' _ hrow'
    by_cases hi : i = id
    · subst hi
      rw [setStatus_rows_self] at hrow'
      rcases Option.map_eq_some_iff.mp hrow' with ⟨row, hrow, rfl⟩
      exact ⟨row, hrow, rfl, fun _ hi => hi, fun h => absurd h (hfailed row hrow)⟩
    · rw [setStatus_rows_of_ne _ _ hi] at hrow'
      exact ⟨row', hrow', rfl, fun _ hi => hi, fun _ => .inl rfl⟩

/-- A retry that succeeds finds the job failed, and is its next attempt. -/
theorem Retryable.current (h : table.Retryable id retryIndex)
    (hres : table.reschedule id node retryIndex = some table') :
    ∃ row, table.rows id = some row ∧ row.status = .failed ∧
      retryIndex = nextRetryIndex row.attempts := by
  rcases reschedule_some hres with ⟨row, hrow, hnew, -⟩
  rcases h row hrow with hmem | ⟨hstatus, hindex⟩
  · exact absurd hmem hnew
  · exact ⟨row, hrow, hstatus, hindex⟩

/-- A retry that succeeds is a change like the others: its attempt is recorded. -/
theorem Retryable.evolves (h : table.Retryable id retryIndex) (haddr : table.Addressed id node)
    (hres : table.reschedule id node retryIndex = some table') :
    table.Evolves table' ∧ ∃ row, table.rows id = some row ∧ row.status = .failed := by
  rcases h.current hres with ⟨row, hrow, hstatus, hindex⟩
  rcases reschedule_some hres with ⟨-, -, -, rfl⟩
  refine ⟨⟨Nat.le_refl _, ?_⟩, row, hrow, hstatus⟩
  intro i row' _ hrow'
  by_cases hi : i = id
  · subst hi
    rw [modify_rows_self, hrow] at hrow'
    cases hrow'
    refine ⟨row, hrow, (haddr.2 row hrow).symm, fun _ => List.mem_cons_of_mem _, ?_⟩
    intro _
    rw [← hindex]
    exact .inr List.mem_cons_self
  · rw [modify_rows_of_ne _ _ hi] at hrow'
    exact ⟨row', hrow', rfl, fun _ hi => hi, fun _ => .inl rfl⟩

theorem Addressed.mono (h : table.Addressed id node) (hev : table.Evolves table') :
    table'.Addressed id node := by
  refine ⟨Nat.lt_of_lt_of_le h.1 hev.next, ?_⟩
  intro row' hrow'
  rcases hev.rows id row' h.1 hrow' with ⟨row, hrow, hnode, -⟩
  exact hnode.trans (h.2 row hrow)

theorem Retryable.mono (h : table.Retryable id retryIndex) (hid : id < table.nextId)
    (hev : table.Evolves table') :
    table'.Retryable id retryIndex := by
  intro row' hrow'
  rcases hev.rows id row' hid hrow' with ⟨row, hrow, -, hattempts, hfailed⟩
  rcases h row hrow with hmem | ⟨hstatus, hindex⟩
  · exact .inl (hattempts _ hmem)
  · rcases hfailed hstatus with rfl | hmem
    · exact .inr ⟨hstatus, hindex⟩
    · rw [← hindex] at hmem
      exact .inl hmem

end JobsTable

/-! ## A worker and the table -/

/-- The worker and the table agree on the jobs of the worker, and the worker was not
ended by a conflict. -/
structure Worker.Sound (table : JobsTable ν) (node : ν) (w : Worker ν) : Prop where
  tasks : ∀ id task, w.jobSet id = some task → table.Assigned id node task.Fits
  calls : ∀ call ∈ w.calls, call.Skips w.jobSet ∨ table.Assigned call.id node call.Fits
  distinct : w.calls.Pairwise fun a b => a.id ≠ b.id
  unharmed : ∀ expected actual, w.life ≠ .ended (.statusUpdate (.stateConflict expected actual))

namespace Worker

variable {table table' : JobsTable ν} {node : ν} {w : Worker ν} {id : Nat}

theorem sound_of_empty {life : Life}
    (hlife : ∀ expected actual, life ≠ .ended (.statusUpdate (.stateConflict expected actual))) :
    Sound table node ⟨life, [], empty⟩ where
  tasks := by
    intro id task h
    cases h
  calls := nofun
  distinct := .nil
  unharmed := hlife

/-- The status of one job changes. -/
theorem Sound.relabel (id : Nat) (hw : w.Sound table node)
    (hrows : ∀ i, i ≠ id → table'.rows i = table.rows i)
    (htask : ∀ task, w.jobSet id = some task → table'.Assigned id node task.Fits)
    (hcall : ∀ call ∈ w.calls, call.id = id → table.Assigned id node call.Fits →
      table'.Assigned id node call.Fits) : w.Sound table' node where
  tasks := by
    intro i task hi
    by_cases h : i = id
    · subst h
      exact htask task hi
    · rcases hw.tasks i task hi with ⟨row, hrow, hfits⟩
      exact ⟨row, (hrows i h).trans hrow, hfits⟩
  calls := by
    intro call hmem
    rcases hw.calls call hmem with hskip | hfits
    · exact .inl hskip
    by_cases h : call.id = id
    · rw [h] at hfits ⊢
      exact .inr (hcall call hmem h hfits)
    · rcases hfits with ⟨row, hrow, hfits⟩
      exact .inr ⟨row, (hrows _ h).trans hrow, hfits⟩
  distinct := hw.distinct
  unharmed := hw.unharmed

/-- Rows of other nodes and rows of ended jobs do not matter to a worker. -/
theorem Sound.frame (hw : w.Sound table node)
    (hrows : ∀ i row, table.rows i = some row → row.nodeId = node →
      row.status ∉ JobStatus.terminalStatuses → table'.rows i = some row) :
    w.Sound table' node where
  tasks := by
    intro i task hi
    rcases hw.tasks i task hi with ⟨row, hrow, hnode, hfits⟩
    exact ⟨row, hrows i row hrow hnode hfits.active, hnode, hfits⟩
  calls := by
    intro call hmem
    rcases hw.calls call hmem with hskip | ⟨row, hrow, hnode, hfits⟩
    · exact .inl hskip
    · exact .inr ⟨row, hrows _ row hrow hnode hfits.active, hnode, hfits⟩
  distinct := hw.distinct
  unharmed := hw.unharmed

/-- The worker handles one job: the row and the task of that job may change, and its
pending call is replaced. -/
theorem Sound.handle {set : JobSet} {new rest : List (Call ν)} (id : Nat) (hw : w.Sound table node)
    (hrows : ∀ i, i ≠ id → table'.rows i = table.rows i) (hset : ∀ i, i ≠ id → set i = w.jobSet i)
    (hrest : ∀ call ∈ rest, call ∈ w.calls ∧ call.id ≠ id)
    (hdistinct : rest.Pairwise fun a b => a.id ≠ b.id)
    (hnew : new = [] ∨ ∃ call, new = [call] ∧ call.id = id ∧
      (call.Skips set ∨ table'.Assigned id node call.Fits))
    (htask : ∀ task, set id = some task → table'.Assigned id node task.Fits) :
    Sound table' node ⟨.live, new ++ rest, set⟩ where
  tasks := by
    intro i task hi
    by_cases h : i = id
    · subst h
      exact htask task hi
    · have hold : w.jobSet i = some task := (hset i h).symm.trans hi
      rcases hw.tasks i task hold with ⟨row, hrow, hfits⟩
      exact ⟨row, (hrows i h).trans hrow, hfits⟩
  calls := by
    intro call hmem
    rcases List.mem_append.mp hmem with hmem | hmem
    · rcases hnew with rfl | ⟨call', rfl, rfl, hcall'⟩
      · cases hmem
      · rw [List.mem_singleton.mp hmem]
        exact hcall'
    rcases hrest call hmem with ⟨hold, hne⟩
    rcases hw.calls call hold with hskip | ⟨row, hrow, hfits⟩
    · cases call with
      | spawnJob job =>
        rcases hskip with ⟨task, htask⟩
        exact .inl ⟨task, (hset job.id hne).trans htask⟩
      | initJob job => exact hskip.elim
      | abortJob i => exact hskip.elim
    · exact .inr ⟨row, (hrows _ hne).trans hrow, hfits⟩
  distinct := by
    rcases hnew with rfl | ⟨call, rfl, rfl, -⟩
    · exact hdistinct
    · refine List.pairwise_cons.mpr ⟨?_, hdistinct⟩
      intro b hb
      exact (hrest b hb).2.symm
  unharmed := nofun

/-! ## The calls of a worker -/

/-- The worker of `node` changes the table at one of its own jobs. -/
structure Local (table : JobsTable ν) (node : ν) (table' : JobsTable ν) : Prop where
  evolves : table.Evolves table'
  rows : ∀ i row, table.rows i = some row → row.nodeId ≠ node → table'.rows i = some row

/-- The call did not return a conflict, and the worker and the table still agree. -/
def Handled (table : JobsTable ν) (node : ν) (rest : List (Call ν)) : CallResult ν → Prop
  | .error e => ∀ expected actual, e ≠ .stateConflict expected actual
  | .ok (table', new, set) =>
      Local table node table' ∧ Sound table' node ⟨.live, new ++ rest, set⟩

theorem Local.refl (table : JobsTable ν) (node : ν) : Local table node table :=
  ⟨.refl table, fun _ _ hrow _ => hrow⟩

theorem Local.setStatus {P : JobStatus → Prop} (status : JobStatus) (h : table.Assigned id node P)
    (hP : ¬ P .failed) :
    Local table node (table.setStatus id status) where
  evolves := by
    refine .setStatus ?_
    intro row hrow hfailed
    have := (h.node_eq hrow).2
    rw [hfailed] at this
    exact hP this
  rows := by
    intro i row hrow hne
    have hi : i ≠ id := by
      rintro rfl
      exact hne (h.node_eq hrow).1
    exact (setStatus_rows_of_ne _ _ hi).trans hrow

/-- A pending `spawn_job` skips a tracked job, marks a scheduled one and leaves the status
of a running one. -/
theorem spawnJob_cases {job : Job ν} (hw : w.Sound table node) (hmem : Call.spawnJob job ∈ w.calls) :
    (∃ task, w.jobSet job.id = some task) ∧
        spawnJob table w.jobSet job = .ok (table, [], w.jobSet) ∨
      w.jobSet job.id = none ∧
        (table.Assigned job.id node (· = .scheduled) ∧ spawnJob table w.jobSet job =
              .ok (table.setStatus job.id .running, [.initJob job], w.jobSet) ∨
          table.Assigned job.id node (Call.initJob job).Fits ∧
            spawnJob table w.jobSet job = .ok (table, [.initJob job], w.jobSet)) := by
  unfold spawnJob jobRunning
  cases htracked : w.jobSet job.id with
  | some task => exact .inl ⟨⟨task, rfl⟩, if_pos rfl⟩
  | none =>
    right
    refine ⟨rfl, ?_⟩
    rcases hw.calls _ hmem with ⟨task, htask⟩ | ⟨row, hrow, hnode, ⟨hjob, hstatus⟩ | ⟨hjob, hstatus⟩⟩
    · rw [htracked] at htask
      cases htask
    · left
      have hmark : table.markRunning job.id = .ok (table.setStatus job.id .running) :=
        update_of_mem hrow (List.mem_singleton.mpr hstatus)
      refine ⟨⟨row, hrow, hnode, hstatus⟩, ?_⟩
      rw [if_neg (by simp), if_neg (by rw [hjob]; decide), hmark]
    · right
      refine ⟨⟨row, hrow, hnode, hstatus⟩, ?_⟩
      rw [if_neg (by simp), if_pos hjob]

/-- The calls after the first are calls for other jobs. -/
theorem Sound.rest {call : Call ν}
    {rest : List (Call ν)} (hw : w.Sound table node) (hcalls : w.calls = call :: rest) :
    (∀ c ∈ rest, c ∈ w.calls ∧ c.id ≠ call.id) ∧ rest.Pairwise fun a b => a.id ≠ b.id := by
  have hdistinct := hw.distinct
  rw [hcalls, List.pairwise_cons] at hdistinct
  refine ⟨?_, hdistinct.2⟩
  intro c hmem
  refine ⟨?_, (hdistinct.1 c hmem).symm⟩
  rw [hcalls]
  exact List.mem_cons_of_mem _ hmem

theorem spawnJob_handled {job : Job ν}
    {rest : List (Call ν)} (hw : w.Sound table node) (hcalls : w.calls = .spawnJob job :: rest) :
    Handled table node rest (spawnJob table w.jobSet job) := by
  rcases hw.rest hcalls with ⟨hrest, hdistinct⟩
  have hmem : Call.spawnJob job ∈ w.calls := by
    rw [hcalls]
    exact List.mem_cons_self
  rcases spawnJob_cases hw hmem with ⟨-, heq⟩ | ⟨hnone, ⟨hassigned, heq⟩ | ⟨hassigned, heq⟩⟩
  · rw [heq]
    exact ⟨.refl table node, hw.handle job.id (fun _ _ => rfl) (fun _ _ => rfl) hrest hdistinct
      (.inl rfl) (hw.tasks job.id)⟩
  · rw [heq]
    refine ⟨.setStatus _ hassigned (by decide), hw.handle job.id
      (fun _ => setStatus_rows_of_ne _ _) (fun _ _ => rfl) hrest hdistinct
      (.inr ⟨_, rfl, rfl, .inr ?_⟩) ?_⟩
    · exact hassigned.setStatus (.inl rfl)
    · intro task htask
      rw [hnone] at htask
      cases htask
  · rw [heq]
    exact ⟨.refl table node, hw.handle job.id (fun _ _ => rfl) (fun _ _ => rfl) hrest hdistinct
      (.inr ⟨_, rfl, rfl, .inr hassigned⟩) (hw.tasks job.id)⟩

theorem abort_of_ne {set : JobSet} {id i : Nat} (h : i ≠ id) : set.abort id i = set i := by
  rcases set.abort_cases id with ⟨-, habort⟩ | ⟨-, habort⟩
  · rw [habort, put_of_ne _ _ h]
  · rw [habort]

theorem abortJob_ok (set : JobSet) (h : table.Assigned id node (· = .stopRequested)) :
    abortJob table set id = .ok (table.setStatus id .stopping, [], set.abort id) := by
  rcases h with ⟨row, hrow, -, hstatus⟩
  unfold abortJob markStopping
  rw [update_of_mem hrow (List.mem_singleton.mpr hstatus)]

/-- The stop of a job that nobody has acknowledged yet. -/
theorem abortJob_handled {rest : List (Call ν)} (hw : w.Sound table node)
    (hrow : table.rows id = none ∨ table.Assigned id node (· = .stopRequested))
    (hrest : ∀ call ∈ rest, call ∈ w.calls ∧ call.id ≠ id)
    (hdistinct : rest.Pairwise fun a b => a.id ≠ b.id) :
    Handled table node rest (abortJob table w.jobSet id) := by
  rcases hrow with hnone | hassigned
  · unfold abortJob markStopping
    rw [update_of_none hnone]
    exact nofun
  rw [abortJob_ok w.jobSet hassigned]
  refine ⟨.setStatus _ hassigned (by decide), hw.handle id
    (fun _ => setStatus_rows_of_ne _ _) (fun _ => abort_of_ne) hrest hdistinct
    (.inl rfl) ?_⟩
  -- a task of a job whose stop is requested has not ended and was not aborted before
  intro task htask
  rcases w.jobSet.abort_cases id with ⟨-, habort⟩ | ⟨hother, habort⟩
  · rw [habort, put_self] at htask
    cases htask
    exact hassigned.setStatus rfl
  rw [habort] at htask
  rcases hassigned with ⟨row, hrow, -, hstatus⟩
  have hfits := ((hw.tasks id task htask).node_eq hrow).2
  rw [hstatus] at hfits
  cases task with
  | running => exact absurd htask hother
  | aborting => cases hfits
  | finished result => cases result <;> cases hfits

/-- The result of a task finds the status that it expects, and the job ends. -/
theorem handleJobResult_ok {result : JobResult} (set : JobSet)
    (h : table.Assigned id node (Task.finished result).Fits) :
    ∃ status ∈ JobStatus.terminalStatuses,
      handleJobResult table set id result = .ok (table.setStatus id status, [], set.remove id) := by
  rcases h with ⟨row, hrow, -, hfits⟩
  have hmark : ∃ status ∈ JobStatus.terminalStatuses,
      markResult table id result = .ok (table.setStatus id status) := by
    cases result with
    | completed =>
      have hstatus : row.status = .running := hfits
      exact ⟨.completed, by decide, update_of_mem hrow (by rw [hstatus]; decide)⟩
    | failed =>
      have hstatus : row.status = .running := hfits
      exact ⟨.failed, by decide, update_of_mem hrow (by rw [hstatus]; decide)⟩
    | aborted =>
      have hstatus : row.status = .stopping := hfits
      exact ⟨.stopped, by decide, update_of_mem hrow (by rw [hstatus]; decide)⟩
    | panicked =>
      have hstatus : row.status = .running := hfits
      exact ⟨.failed, by decide, update_of_mem hrow (by rw [hstatus]; decide)⟩
  rcases hmark with ⟨status, hterminal, hmark⟩
  refine ⟨status, hterminal, ?_⟩
  unfold handleJobResult
  rw [hmark]

theorem handleJobResult_handled {result : JobResult} (hw : w.Sound table node)
    (htask : w.jobSet id = some (.finished result)) :
    Handled table node [] (handleJobResult table w.jobSet id result) := by
  have hassigned := hw.tasks id _ htask
  rcases handleJobResult_ok w.jobSet hassigned with ⟨status, -, heq⟩
  rw [heq]
  refine ⟨.setStatus _ hassigned ?_, hw.handle id (fun _ => setStatus_rows_of_ne _ _)
    (fun _ => put_of_ne _ _) nofun .nil (.inl rfl) ?_⟩
  · intro h
    exact h.active (by decide)
  · intro task htask
    rw [remove, put_self] at htask
    cases htask

end Worker

/-! ## Runs without races -/

namespace Cluster

/-- The step is not one of the races. -/
def raceFree (s : Cluster ν) : Event ν → Bool
  | .stop id =>
      (s.table.getById id).all fun job =>
        match job.status with
        | .scheduled => !(s.workers job.nodeId).calls.any (·.id == id)
        | .running => !((s.workers job.nodeId).jobSet id).any Task.isFinished
        | _ => true
  | .notify node ⟨id, .start⟩ =>
      (s.table.getById id).all fun job =>
        job.status == .scheduled || job.status == .running || (s.workers node).jobSet.jobRunning id
  | .notify _ ⟨id, .stop⟩ => (s.table.getById id).all (·.status == .stopRequested)
  | .finish _ id result =>
      result == .aborted || (s.table.getById id).all (·.status == .running)
  | _ => true

/-- The worker was ended by a status update that returned a state conflict. -/
def Conflicted (s : Cluster ν) (node : ν) : Prop :=
  ∃ expected actual, (s.workers node).life = .ended (.statusUpdate (.stateConflict expected actual))

structure Inv (s : Cluster ν) : Prop where
  sent : ∀ p ∈ s.sent, s.table.Addressed p.2.jobId p.1
  retries : ∀ r ∈ s.retries, s.table.Addressed r.1.id r.1.nodeId ∧ s.table.Retryable r.1.id r.2
  workers : ∀ node, (s.workers node).Sound s.table node

theorem init_inv : ∀ s : Cluster ν, Init s → Inv s := by
  rintro s rfl
  refine ⟨nofun, nofun, ?_⟩
  intro node
  exact sound_of_empty nofun

/-- What a step has to show: what is new belongs to its node, and the workers agree with
the new table. -/
theorem Inv.update {s s' : Cluster ν} (hinv : Inv s) (hev : s.table.Evolves s'.table)
    (hsent : ∀ p ∈ s'.sent, p ∈ s.sent ∨ s'.table.Addressed p.2.jobId p.1)
    (hretries : ∀ r ∈ s'.retries, r ∈ s.retries)
    (hworkers : ∀ node, (s'.workers node).Sound s'.table node) : Inv s' where
  sent := by
    intro p hp
    rcases hsent p hp with hold | hnew
    · exact (hinv.sent p hold).mono hev
    · exact hnew
  retries := by
    intro r hr
    rcases hinv.retries r (hretries r hr) with ⟨haddr, hretry⟩
    exact ⟨haddr.mono hev, hretry.mono haddr.1 hev⟩
  workers := hworkers

/-! ### The controller -/

variable {s : Cluster ν} {node : ν} {id : Nat}

theorem register_inv [DecidableEq ν] {manifest : ManifestHash} (hinv : Inv s) :
    Inv (s.registerJob manifest node) := by
  refine hinv.update (.register _ _ _) ?_ (fun _ hr => hr) ?_
  · intro p hp
    rcases List.mem_cons.mp hp with rfl | hp
    · right
      refine ⟨Nat.lt_succ_self _, ?_⟩
      intro row hrow
      change (if s.table.nextId = s.table.nextId then _ else _) = some row at hrow
      rw [if_pos rfl] at hrow
      cases hrow
      rfl
    · exact .inl hp
  · intro n
    refine (hinv.workers n).frame ?_
    intro i row hrow _ _
    have hlt := s.table.lt_nextId hrow
    exact (if_neg (by omega)).trans hrow

theorem delete_inv (hinv : Inv s) : Inv { s with table := s.table.deleteIfTerminal id } := by
  refine hinv.update (.delete _ _) (fun _ hp => .inl hp) (fun _ hr => hr) ?_
  intro n
  refine (hinv.workers n).frame ?_
  intro i row hrow _ hactive
  change (if i = id then _ else _) = some row
  split
  · exact Option.filter_eq_some_iff.mpr ⟨hrow, by simpa using hactive⟩
  · exact hrow

theorem fetchFailed_inv {ready : List Nat} (hinv : Inv s) :
    Inv { s with retries := s.retries ++ s.table.getFailedJobsReadyForRetry ready } := by
  refine ⟨hinv.sent, ?_, hinv.workers⟩
  intro r hr
  rcases List.mem_append.mp hr with hr | hr
  · exact hinv.retries r hr
  rcases mem_getFailedJobsReadyForRetry hr with ⟨row, hrow, hnode, hstatus, hindex⟩
  refine ⟨⟨s.table.lt_nextId hrow, ?_⟩, ?_⟩
  · intro row' hrow'
    rw [hrow] at hrow'
    cases hrow'
    exact hnode
  · intro row' hrow'
    rw [hrow] at hrow'
    cases hrow'
    exact .inr ⟨hstatus, hindex⟩

theorem retry_inv (hinv : Inv s) : Inv s.retryJob := by
  unfold retryJob
  split
  · exact hinv
  rename_i job retryIndex rest hretries
  have hrest : ∀ r ∈ rest, r ∈ s.retries := by
    intro r hr
    rw [hretries]
    exact List.mem_cons_of_mem _ hr
  split
  · exact hinv.update (.refl _) (fun _ hp => .inl hp) hrest hinv.workers
  rename_i table hres
  have hmem : (job, retryIndex) ∈ s.retries := by
    rw [hretries]
    exact List.mem_cons_self
  rcases hinv.retries _ hmem with ⟨haddr, hretry⟩
  rcases hretry.evolves haddr hres with ⟨hev, row, hrow, hstatus⟩
  refine hinv.update hev ?_ hrest ?_
  · intro p hp
    rcases List.mem_cons.mp hp with rfl | hp
    · exact .inr (haddr.mono hev)
    · exact .inl hp
  intro n
  refine (hinv.workers n).frame ?_
  -- the job was failed, and no worker holds on to a failed job
  intro i row' hrow' _ hactive
  rcases reschedule_some hres with ⟨-, -, -, rfl⟩
  have hi : i ≠ job.id := by
    rintro rfl
    rw [hrow] at hrow'
    cases hrow'
    rw [hstatus] at hactive
    exact hactive (by decide)
  exact (modify_rows_of_ne _ _ hi).trans hrow'

/-- A stop request leaves alone what the other workers, and the tasks and calls of the
job, rely on. -/
theorem requestStop_sound {row : JobRow ν} {n : ν} (hw : (s.workers n).Sound s.table n)
    (hrow : s.table.rows id = some row) (hstatus : row.status = .running ∨ row.status = .scheduled)
    (hfree : s.raceFree (.stop id) = true) :
    (s.workers n).Sound (s.table.setStatus id .stopRequested) n := by
  have hrows : ∀ i, i ≠ id → (s.table.setStatus id .stopRequested).rows i = s.table.rows i :=
    fun _ => setStatus_rows_of_ne _ _
  simp only [raceFree, getById_of_row hrow, Option.all_some] at hfree
  refine hw.relabel id hrows ?_ ?_
  · intro task htask
    have hassigned := hw.tasks id task htask
    rcases hassigned.node_eq hrow with ⟨rfl, hfits⟩
    rcases hstatus with hstatus | hstatus
    · -- the task runs, because its result is not waiting
      rw [hstatus] at hfits hfree
      cases task with
      | running => exact hassigned.setStatus (.inr rfl)
      | aborting => cases hfits
      | finished result => simp [htask, Task.isFinished] at hfree
    · -- a scheduled job has no task
      rw [hstatus] at hfits
      cases task with
      | running => rcases hfits with h | h <;> cases h
      | aborting => cases hfits
      | finished result => cases result <;> cases hfits
  · intro call hmem hid hassigned
    rcases hassigned.node_eq hrow with ⟨rfl, hfits⟩
    rcases hstatus with hstatus | hstatus
    · rw [hstatus] at hfits
      cases call with
      | spawnJob job =>
        rcases hfits with ⟨-, h⟩ | ⟨hjob, -⟩
        · cases h
        · exact hassigned.setStatus (.inr ⟨hjob, .inr rfl⟩)
      | initJob job => exact hassigned.setStatus (.inr rfl)
      | abortJob i => cases hfits
    · -- no call is pending for a scheduled job
      rw [hstatus] at hfree
      simp only [Bool.not_eq_true', List.any_eq_false, beq_iff_eq] at hfree
      exact absurd hid (hfree call hmem)

theorem stop_inv (hinv : Inv s) (hfree : s.raceFree (.stop id) = true) : Inv (s.stopJob id) := by
  unfold stopJob
  split
  · exact hinv
  rename_i job hget
  split
  · exact hinv
  rename_i table hstop
  rcases requestStop_ok hstop with ⟨row, hrow, hcases⟩
  rcases getById_eq_some.mp hget with ⟨row', hrow', hjob⟩
  rw [hrow] at hrow'
  cases hrow'
  have haddr : s.table.Addressed id job.nodeId := by
    refine ⟨s.table.lt_nextId hrow, ?_⟩
    intro row' hrow'
    rw [hrow] at hrow'
    cases hrow'
    rw [hjob]
  have hev : s.table.Evolves table := by
    rcases hcases with ⟨hstatus, rfl⟩ | ⟨-, rfl⟩
    · refine .setStatus ?_
      intro row' hrow' hfailed
      rw [hrow] at hrow'
      cases hrow'
      rw [hfailed] at hstatus
      rcases hstatus with h | h <;> cases h
    · exact .refl _
  refine hinv.update hev ?_ (fun _ hr => hr) ?_
  · intro p hp
    rcases List.mem_cons.mp hp with rfl | hp
    · exact .inr (haddr.mono hev)
    · exact .inl hp
  · intro n
    rcases hcases with ⟨hstatus, rfl⟩ | ⟨-, rfl⟩
    · exact requestStop_sound (hinv.workers n) hrow hstatus hfree
    · exact hinv.workers n

/-! ### The workers -/

/-- A job that a query returned can be spawned. -/
theorem spawn_fits {job : Job ν} (hjob : s.table.Assigned job.id node (· = job.status))
    (hstatus : job.status = .scheduled ∨ job.status = .running) :
    s.table.Assigned job.id node (Call.spawnJob job).Fits := by
  rcases hjob with ⟨row, hrow, hnode, heq⟩
  refine ⟨row, hrow, hnode, ?_⟩
  rcases hstatus with h | h
  · exact .inl ⟨h, heq.trans h⟩
  · exact .inr ⟨h, .inl (heq.trans h)⟩

variable [DecidableEq ν]

theorem setWorker_inv {w : Worker ν} (hinv : Inv s) (hw : w.Sound s.table node) :
    Inv (s.setWorker node w) := by
  refine ⟨hinv.sent, hinv.retries, ?_⟩
  intro n
  change Worker.Sound s.table n (if n = node then w else s.workers n)
  split
  · rename_i heq
    subst heq
    exact hw
  · exact hinv.workers n

theorem settle_inv {rest : List (Call ν)} {result : CallResult ν} (hinv : Inv s)
    (hresult : Worker.Handled s.table node rest result) :
    Inv (s.settle node rest result) := by
  cases result with
  | error e =>
    refine setWorker_inv hinv (sound_of_empty ?_)
    intro expected actual h
    cases h
    exact hresult expected actual rfl
  | ok done =>
    rcases done with ⟨table, new, set⟩
    rcases hresult with ⟨hlocal, hsound⟩
    refine hinv.update hlocal.evolves (fun _ hp => .inl hp) (fun _ hr => hr) ?_
    intro n
    change Worker.Sound table n (if n = node then _ else s.workers n)
    split
    · rename_i heq
      subst heq
      exact hsound
    rename_i hne
    refine (hinv.workers n).frame ?_
    intro i row hrow hnode _
    refine hlocal.rows i row hrow ?_
    rw [hnode]
    exact hne

theorem boot_inv (hinv : Inv s) : Inv (s.setWorker node (.boot s.table node)) := by
  refine setWorker_inv hinv ⟨nofun, ?_, ?_, nofun⟩
  · intro call hcall
    rcases List.mem_map.mp hcall with ⟨job, hjob, rfl⟩
    rcases mem_getByNodeIdAndStatuses hjob with ⟨row, hrow, hnode, heq, hmem⟩
    refine .inr (spawn_fits ⟨row, hrow, hnode, heq⟩ ?_)
    simpa using hmem
  · change ((s.table.getScheduled node).map Call.spawnJob).Pairwise _
    rw [List.pairwise_map]
    exact s.table.select_distinct _

theorem tick_inv (hinv : Inv s) : Inv (s.reconcileJobs node) := by
  refine setWorker_inv hinv ⟨(hinv.workers node).tasks, ?_, ?_, (hinv.workers node).unharmed⟩
  · intro call hcall
    rcases List.mem_filterMap.mp hcall with ⟨job, hjob, hcall⟩
    rcases mem_getByNodeIdAndStatuses hjob with ⟨row, hrow, hnode, heq, -⟩
    have hassigned : s.table.Assigned job.id node (· = job.status) := ⟨row, hrow, hnode, heq⟩
    right
    unfold reconcileCall at hcall
    split at hcall <;> cases hcall
    · rename_i hstatus
      exact spawn_fits hassigned (.inl hstatus)
    · rename_i hstatus
      exact spawn_fits hassigned (.inr hstatus)
    · rename_i hstatus
      exact ⟨row, hrow, hnode, heq.trans hstatus⟩
  · change ((s.table.getActive node).filterMap reconcileCall).Pairwise _
    rw [List.pairwise_filterMap]
    refine (s.table.select_distinct _).imp ?_
    have hid : ∀ (job : Job ν) call, reconcileCall job = some call → call.id = job.id := by
      intro job call h
      unfold reconcileCall at h
      split at h <;> cases h <;> rfl
    intro a b hab c hc d hd
    rw [hid a c hc, hid b d hd]
    exact hab

theorem notify_inv {notification : JobNotification} (hinv : Inv s)
    (hsent : (node, notification) ∈ s.sent) (hfree : s.raceFree (.notify node notification) = true) :
    Inv (s.handleJobNotificationAction node notification) := by
  have haddr : s.table.Addressed notification.jobId node := hinv.sent _ hsent
  rcases notification with ⟨id, action⟩
  have hw := hinv.workers node
  unfold handleJobNotificationAction
  cases action with
  | start =>
    simp only
    split
    · exact hinv
    rename_i job hget
    rcases getById_eq_some.mp hget with ⟨row, hrow, rfl⟩
    simp only [raceFree, hget, Option.all_some, Bool.or_eq_true, beq_iff_eq] at hfree
    refine setWorker_inv hinv ⟨hw.tasks, ?_, List.pairwise_singleton _ _, hw.unharmed⟩
    intro call hcall
    rw [List.mem_singleton.mp hcall]
    rcases hfree with hstatus | htracked
    · exact .inr (spawn_fits ⟨row, hrow, haddr.2 row hrow, rfl⟩ hstatus)
    · exact .inl (Option.isSome_iff_exists.mp htracked)
  | stop =>
    refine settle_inv hinv (abortJob_handled hw ?_ nofun .nil)
    cases hrow : s.table.rows id with
    | none => exact .inl rfl
    | some row =>
      simp only [raceFree, getById_of_row hrow, Option.all_some, beq_iff_eq] at hfree
      exact .inr ⟨row, hrow, haddr.2 row hrow, hfree⟩

/-- The new task runs for a job that is running or whose stop is requested. -/
theorem initJob_inv {node : ν} {job : Job ν} {rest : List (Call ν)} {tables : Option (List String)}
    (hinv : Inv s) (hcalls : (s.workers node).calls = .initJob job :: rest) :
    Inv (s.initJob node rest job tables) := by
  have hw := hinv.workers node
  rcases hw.rest hcalls with ⟨hrest, hdistinct⟩
  cases tables with
  | none => exact setWorker_inv hinv (sound_of_empty nofun)
  | some tables =>
    have hfits : s.table.Assigned job.id node (Call.initJob job).Fits := by
      have hmem : Call.initJob job ∈ (s.workers node).calls := by
        rw [hcalls]
        exact List.mem_cons_self
      rcases hw.calls _ hmem with hskip | hfits
      · exact hskip.elim
      · exact hfits
    have hsound : Worker.Sound s.table node
        ⟨.live, [] ++ rest, (s.workers node).jobSet.spawn job.id⟩ := by
      refine hw.handle job.id (fun _ _ => rfl) (fun _ => put_of_ne _ _) hrest
        hdistinct (.inl rfl) ?_
      intro task htask
      rw [spawn, put_self] at htask
      cases htask
      exact hfits
    exact setWorker_inv (s := { s with locations := _ })
      ⟨hinv.sent, hinv.retries, hinv.workers⟩ hsound

theorem call_inv {node : ν} {call : Call ν} {rest : List (Call ν)} {tables : Option (List String)}
    (hinv : Inv s) (hcalls : (s.workers node).calls = call :: rest) :
    Inv (s.performCall node rest tables call) := by
  have hw := hinv.workers node
  cases call with
  | spawnJob job => exact settle_inv hinv (spawnJob_handled hw hcalls)
  | initJob job => exact initJob_inv hinv hcalls
  | abortJob id =>
    have hmem : Call.abortJob id ∈ (s.workers node).calls := by
      rw [hcalls]
      exact List.mem_cons_self
    have hassigned : s.table.Assigned id node (· = .stopRequested) := by
      rcases hw.calls _ hmem with hskip | hfits
      · exact hskip.elim
      · exact hfits
    rcases hw.rest hcalls with ⟨hrest, hdistinct⟩
    exact settle_inv hinv (abortJob_handled hw (.inr hassigned) hrest hdistinct)

theorem putTask_inv {old new : Task} (hinv : Inv s) (hold : (s.workers node).jobSet id = some old)
    (hfits : ∀ status, old.Fits status → s.table.Assigned id node (· = status) → new.Fits status) :
    Inv (s.putTask node id new) := by
  have hw := hinv.workers node
  refine setWorker_inv hinv ⟨?_, ?_, hw.distinct, hw.unharmed⟩
  · intro i task htask
    by_cases hi : i = id
    · subst hi
      change put _ i (some new) i = some task at htask
      rw [put_self] at htask
      cases htask
      rcases hw.tasks i old hold with ⟨row, hrow, hnode, hrowfits⟩
      exact ⟨row, hrow, hnode, hfits _ hrowfits ⟨row, hrow, hnode, rfl⟩⟩
    · change put _ id (some new) i = some task at htask
      rw [put_of_ne _ _ hi] at htask
      exact hw.tasks i task htask
  · intro call hmem
    rcases hw.calls call hmem with hskip | hassigned
    · left
      cases call with
      | spawnJob job =>
        rcases hskip with ⟨task, htask⟩
        by_cases hi : job.id = id
        · subst hi
          exact ⟨new, put_self _ _ _⟩
        · exact ⟨task, (put_of_ne _ _ hi).trans htask⟩
      | initJob job => exact hskip.elim
      | abortJob i => exact hskip.elim
    · exact .inr hassigned

/-- A task that was not aborted ends while its job is marked as running. -/
theorem finish_inv {result : JobResult} {task : Task} (hinv : Inv s)
    (htask : (s.workers node).jobSet id = some task)
    (hends : task = .running ∧ result ≠ .aborted ∨ task = .aborting)
    (hfree : s.raceFree (.finish node id result) = true) :
    Inv (s.putTask node id (.finished result)) := by
  refine putTask_inv hinv htask ?_
  rintro status hfits ⟨row, hrow, -, rfl⟩
  simp only [raceFree, getById_of_row hrow, Option.all_some, Bool.or_eq_true, beq_iff_eq] at hfree
  cases result with
  | aborted =>
    rcases hends with ⟨-, hne⟩ | rfl
    · exact absurd rfl hne
    · exact hfits
  | completed => exact hfree.resolve_left nofun
  | failed => exact hfree.resolve_left nofun
  | panicked => exact hfree.resolve_left nofun

/-! ### All steps -/

theorem step_inv {s s' : Cluster ν} {e : Event ν} (hinv : Inv s) (hfree : s.raceFree e = true)
    (h : step s e = some s') : Inv s' := by
  cases step_steps h with
  | schedule manifest node =>
    unfold scheduleJob
    split
    · exact hinv
    · exact ⟨hinv.sent, hinv.retries, hinv.workers⟩
  | register manifest node => exact register_inv hinv
  | stop id => exact stop_inv hinv hfree
  | fetchFailed ready => exact fetchFailed_inv hinv
  | retry => exact retry_inv hinv
  | delete id => exact delete_inv hinv
  | boot node => exact boot_inv hinv
  | crash node => exact setWorker_inv hinv (sound_of_empty nofun)
  | notify node notification hsent => exact notify_inv hinv hsent hfree
  | tick node => exact tick_inv hinv
  | call node tables call rest hcalls => exact call_inv hinv hcalls
  | finish node id result task htask hends => exact finish_inv hinv htask hends hfree
  | join node id result htask =>
    exact settle_inv hinv (handleJobResult_handled (hinv.workers node) htask)

/-- A step that is not a race. -/
def RaceFreeNext : Action (Cluster ν) := fun s s' => ∃ e, s.raceFree e = true ∧ step s e = some s'

theorem raceFree_inv (hs : Reachable Init RaceFreeNext s) : Inv s := by
  refine init_invariant Init RaceFreeNext Inv init_inv ?_ s hs
  rintro s s' ⟨e, hfree, hstep⟩ hinv
  exact step_inv hinv hfree hstep

/-- In a run without races no status update of a worker returns a state conflict. -/
theorem raceFree_never_conflicted {s : Cluster ν} (hs : Reachable Init RaceFreeNext s) (node : ν) :
    ¬ Conflicted s node := by
  rintro ⟨expected, actual, hlife⟩
  exact ((raceFree_inv hs).workers node).unharmed expected actual hlife

/-- A job fails and is retried, and the second attempt is stopped through a reconcile
tick. -/
def retriedThenStopped : List (Event Nat) :=
  [.boot 0, .schedule 7 0, .register 7 0, .notify 0 ⟨1, .start⟩, .call 0 none,
    .call 0 (some ["blocks"]), .finish 0 1 .failed, .join 0 1, .fetchFailed [1], .retry,
    .notify 0 ⟨1, .start⟩, .call 0 none, .call 0 (some ["blocks"]), .stop 1, .tick 0, .call 0 none,
    .finish 0 1 .aborted, .join 0 1]

theorem raceFree_never_conflicted_retried : ∃ s : Cluster Nat, Reachable Init RaceFreeNext s ∧
      (s.table.rows 1).map (·.status) = some .stopped ∧ ¬ Conflicted s 0 := by
  have hrun : (run step raceFree initial retriedThenStopped).map
      (fun s => (s.table.rows 1).map (·.status)) = some (some .stopped) := by decide
  rcases Option.map_eq_some_iff.mp hrun with ⟨s, hs, hstatus⟩
  have hreach : Reachable Init RaceFreeNext s :=
    Reachable.run (fun _ _ e _ hfree h => ⟨e, hfree, h⟩) (.init rfl) hs
  exact ⟨s, hreach, hstatus, raceFree_never_conflicted hreach 0⟩

/-- A running job is stopped twice and both notifications are handled. -/
def stoppedTwice : List (Event Nat) :=
  [.boot 0, .schedule 7 0, .register 7 0, .notify 0 ⟨1, .start⟩, .call 0 none,
    .call 0 (some ["blocks"]), .stop 1, .stop 1, .notify 0 ⟨1, .stop⟩, .notify 0 ⟨1, .stop⟩]

/-- A running job completes after its stop was requested. -/
def completedWhileStopping : List (Event Nat) :=
  [.boot 0, .schedule 7 0, .register 7 0, .notify 0 ⟨1, .start⟩, .call 0 none,
    .call 0 (some ["blocks"]), .stop 1, .finish 0 1 .completed, .join 0 1]

/-- Both runs end the worker with a state conflict. -/
theorem stop_races_conflict : (∃ s : Cluster Nat, Reachable Init Next s ∧
      (s.workers 0).life = .ended (.statusUpdate (.stateConflict [.stopRequested] .stopping))) ∧
    ∃ s : Cluster Nat, Reachable Init Next s ∧
      (s.workers 0).life = .ended (.statusUpdate (.stateConflict [.running] .stopRequested)) := by
  have htwice : (run step (fun _ _ => true) initial stoppedTwice).map
      (fun s => (s.workers 0).life) =
        some (.ended (.statusUpdate (.stateConflict [.stopRequested] .stopping))) := by decide
  have hcompleted : (run step (fun _ _ => true) initial completedWhileStopping).map
      (fun s => (s.workers 0).life) =
        some (.ended (.statusUpdate (.stateConflict [.running] .stopRequested))) := by decide
  have hnext : ∀ {events : List (Event Nat)} {s : Cluster Nat},
      run step (fun _ _ => true) initial events = some s → Reachable Init Next s :=
    fun hrun => Reachable.run (fun _ _ e _ _ h => ⟨e, h⟩) (.init rfl) hrun
  constructor
  · rcases Option.map_eq_some_iff.mp htwice with ⟨s, hs, hlife⟩
    exact ⟨s, hnext hs, hlife⟩
  · rcases Option.map_eq_some_iff.mp hcompleted with ⟨s, hs, hlife⟩
    exact ⟨s, hnext hs, hlife⟩

end Cluster

end CampNode

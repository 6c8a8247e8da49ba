import CampNode.Worker.Races

/-!
# CampNode.Worker.Stopping — jobs that are stopping and their tasks

A job leaves the status stopping only when its worker joins the aborted task. A
stopping job without a task therefore stays so for ever: no query returns it, and
neither a stop nor a restart of the worker takes it up. It comes about when the stop
of a job is handled by a worker that does not track the job, for instance because the
job was never started, and when a worker goes down while it waits for the task.

The main result excludes both, and the races of `CampNode.Worker.Races`.
-/

namespace CampNode

open JobsTable Worker

namespace Cluster

variable {ν : Type} [DecidableEq ν] (s : Cluster ν)

/-- No job of the node is stopping. -/
def noneStopping (node : ν) : Bool :=
  (s.table.getByNodeIdAndStatuses node [.stopping]).isEmpty

/-- A step that is not a race, in which a stop is handled only for a tracked job and the
worker goes down only while none of its jobs is stopping. -/
def stopsTracked (e : Event ν) : Bool :=
  s.raceFree e &&
    match e with
    | .crash node => s.noneStopping node
    | .notify node ⟨id, .stop⟩ => (s.workers node).jobSet.jobRunning id
    | .call node tables =>
        match (s.workers node).calls.head?, tables with
        | some (.abortJob id), _ => (s.workers node).jobSet.jobRunning id
        | some (.initJob _), none => s.noneStopping node
        | _, _ => true
    | _ => true

/-- The stopping job has a task that was aborted, and joining it marks the job as
stopped. -/
def StopsEventually (id : Nat) (node : ν) : Prop :=
  ((s.workers node).jobSet id = some .aborting ∨
      (s.workers node).jobSet id = some (.finished .aborted)) ∧
    s.table.markStopped id = .ok (s.table.setStatus id .stopped)

structure StopInv (s : Cluster ν) : Prop where
  inv : Inv s
  live : ∀ node id task, (s.workers node).jobSet id = some task → (s.workers node).life = .live
  tracked : ∀ id row, s.table.rows id = some row → row.status = .stopping →
    ∃ task, (s.workers row.nodeId).jobSet id = some task

variable {s s' : Cluster ν} {node : ν} {id : Nat} {w : Worker ν} {rest : List (Call ν)}

theorem noneStopping_spec (h : s.noneStopping node = true) {row : JobRow ν}
    (hrow : s.table.rows id = some row) (hnode : row.nodeId = node) :
    row.status ≠ .stopping := by
  intro hstatus
  have hmem : (⟨id, row.nodeId, row.status, row.manifest⟩ : Job ν) ∈
      s.table.getByNodeIdAndStatuses node [.stopping] := by
    apply mem_select_of_row hrow
    simp [hnode, hstatus]
  rw [List.isEmpty_iff.mp h] at hmem
  cases hmem

omit [DecidableEq ν] in
theorem init_stopInv : ∀ s : Cluster ν, Init s → StopInv s := by
  intro s hs
  have hinv := init_inv s hs
  cases hs
  exact ⟨hinv, nofun, nofun⟩

/-! ## The controller -/

omit [DecidableEq ν] in
/-- The controller does not touch the workers, and no statement of it makes a job
stopping. -/
theorem StopInv.controller (h : StopInv s) (hinv : Inv s') (hworkers : s'.workers = s.workers)
    (hrows : ∀ id row, s'.table.rows id = some row → row.status = .stopping →
      s.table.rows id = some row) : StopInv s' := by
  constructor
  · exact hinv
  · rw [hworkers]
    exact h.live
  · intro id row hrow hstatus
    rw [hworkers]
    exact h.tracked id row (hrows id row hrow hstatus) hstatus

omit [DecidableEq ν] in
/-- An update to another status does not make a job stopping. -/
theorem rows_of_modify {table : JobsTable ν} {id i : Nat} {f : JobRow ν → JobRow ν}
    {row : JobRow ν} (hf : ∀ r, (f r).status ≠ .stopping)
    (hrow : (table.modify id f).rows i = some row) (hstatus : row.status = .stopping) :
    table.rows i = some row := by
  by_cases hi : i = id
  · subst hi
    rw [modify_rows_self] at hrow
    rcases Option.map_eq_some_iff.mp hrow with ⟨r, -, rfl⟩
    exact absurd hstatus (hf r)
  · rw [modify_rows_of_ne _ _ hi] at hrow
    exact hrow

theorem register_stopInv {manifest : ManifestHash} (h : StopInv s) :
    StopInv (s.registerJob manifest node) := by
  refine h.controller (register_inv h.inv) rfl ?_
  intro id row hrow hstatus
  change (if id = s.table.nextId then _ else _) = some row at hrow
  split at hrow
  · cases hrow
    cases hstatus
  · exact hrow

omit [DecidableEq ν] in
theorem stop_stopInv (h : StopInv s) (hfree : s.raceFree (.stop id) = true) :
    StopInv (s.stopJob id) := by
  have hinv := stop_inv h.inv hfree
  unfold stopJob at hinv ⊢
  split
  · exact h
  rename_i job hget
  simp only [hget] at hinv
  split
  · exact h
  rename_i table hstop
  simp only [hstop] at hinv
  refine h.controller hinv rfl ?_
  intro i row hrow hstatus
  rcases requestStop_ok hstop with ⟨-, -, ⟨-, rfl⟩ | ⟨-, rfl⟩⟩
  · exact rows_of_modify (fun _ h => by cases h) hrow hstatus
  · exact hrow

omit [DecidableEq ν] in
theorem retry_stopInv (h : StopInv s) : StopInv s.retryJob := by
  have hinv := retry_inv h.inv
  unfold retryJob at hinv ⊢
  split
  · exact h
  rename_i job retryIndex rest hretries
  simp only [hretries] at hinv
  split
  · rename_i hnone
    simp only [hnone] at hinv
    exact h.controller hinv rfl fun _ _ hrow _ => hrow
  rename_i table hres
  simp only [hres] at hinv
  refine h.controller hinv rfl ?_
  intro i row hrow hstatus
  rcases reschedule_some hres with ⟨-, -, -, rfl⟩
  exact rows_of_modify (fun _ h => by cases h) hrow hstatus

omit [DecidableEq ν] in
theorem delete_stopInv (h : StopInv s) :
    StopInv { s with table := s.table.deleteIfTerminal id } := by
  refine h.controller (delete_inv h.inv) rfl ?_
  intro i row hrow _
  exact rows_of_deleteIfTerminal hrow

/-! ## The workers -/

section

variable (h : StopInv s)
include h

/-- A worker keeps the invariant if it still has a task for each of its stopping jobs. -/
theorem StopInv.worker (hinv : Inv s')
    (hworkers : ∀ n, s'.workers n = if n = node then w else s.workers n)
    (hlive : ∀ id task, w.jobSet id = some task → w.life = .live)
    (hrows : ∀ id row, s'.table.rows id = some row → row.status = .stopping →
      (row.nodeId = node → ∃ task, w.jobSet id = some task) ∧
        (row.nodeId ≠ node → s.table.rows id = some row)) : StopInv s' := by
  constructor
  · exact hinv
  · intro n id task
    rw [hworkers n]
    split
    · exact hlive id task
    · exact h.live n id task
  · intro id row hrow hstatus
    rw [hworkers row.nodeId]
    split
    · rename_i hnode
      exact (hrows id row hrow hstatus).1 hnode
    · rename_i hnode
      exact h.tracked id row ((hrows id row hrow hstatus).2 hnode) hstatus

/-- A worker goes down while none of its jobs is stopping. -/
theorem StopInv.down (hinv : Inv (s.setWorker node w))
    (hlive : ∀ id task, w.jobSet id = some task → w.life = .live)
    (hnone : ∀ id row, s.table.rows id = some row → row.nodeId = node → row.status ≠ .stopping) :
    StopInv (s.setWorker node w) := by
  refine h.worker hinv (fun _ => rfl) hlive ?_
  intro id row hrow hstatus
  exact ⟨fun hnode => absurd hstatus (hnone id row hrow hnode), fun _ => hrow⟩

/-- A worker keeps its tasks. -/
theorem StopInv.keep (hinv : Inv (s.setWorker node w))
    (hlife : w.life = (s.workers node).life) (hset : ∀ id, (∃ task, w.jobSet id = some task) ↔
      ∃ task, (s.workers node).jobSet id = some task) :
    StopInv (s.setWorker node w) := by
  refine h.worker hinv (fun _ => rfl) ?_ ?_
  · intro id task htask
    rcases (hset id).mp ⟨task, htask⟩ with ⟨old, hold⟩
    rw [hlife]
    exact h.live node id old hold
  · intro id row hrow hstatus
    refine ⟨?_, fun _ => hrow⟩
    rintro rfl
    exact (hset id).mpr (h.tracked id row hrow hstatus)

theorem boot_stopInv (hlife : (s.workers node).life ≠ .live) :
    StopInv (s.setWorker node (.boot s.table node)) := by
  refine h.down (boot_inv h.inv) nofun ?_
  -- a worker that is not live has no task, so none of its jobs is stopping
  rintro id row hrow rfl hstatus
  rcases h.tracked id row hrow hstatus with ⟨task, htask⟩
  exact hlife (h.live _ id task htask)

/-- A stop is handled for a tracked job: the job becomes stopping and stays tracked. -/
theorem abort_stopInv {task : Task} (htask : (s.workers node).jobSet id = some task)
    (hstatus : s.table.Assigned id node (· = .stopRequested))
    (hinv : Inv (s.settle node rest (abortJob s.table (s.workers node).jobSet id))) :
    StopInv (s.settle node rest (abortJob s.table (s.workers node).jobSet id)) := by
  rw [abortJob_ok _ hstatus] at hinv ⊢
  refine h.worker hinv (fun _ => rfl) (fun _ _ _ => rfl) ?_
  intro i row hrow hstopping
  change (s.table.setStatus id .stopping).rows i = some row at hrow
  by_cases hi : i = id
  · subst hi
    have hassigned : (s.table.setStatus i .stopping).Assigned i node (fun _ => True) :=
      hstatus.setStatus trivial
    have hnode := (hassigned.node_eq hrow).1
    refine ⟨?_, fun hne => absurd hnode hne⟩
    intro _
    change ∃ task, (s.workers node).jobSet.abort i i = some task
    rcases (s.workers node).jobSet.abort_cases i with ⟨-, habort⟩ | ⟨-, habort⟩
    · exact ⟨.aborting, by rw [habort, JobSet.put_self]⟩
    · exact ⟨task, by rw [habort, htask]⟩
  · rw [setStatus_rows_of_ne _ _ hi] at hrow
    refine ⟨?_, fun _ => hrow⟩
    rintro rfl
    change ∃ task, (s.workers row.nodeId).jobSet.abort id i = some task
    rw [abort_of_ne hi]
    exact h.tracked i row hrow hstopping

theorem notify_stopInv {notification : JobNotification} (hsent : (node, notification) ∈ s.sent)
    (hok : s.stopsTracked (.notify node notification) = true) :
    StopInv (s.handleJobNotificationAction node notification) := by
  rcases notification with ⟨id, action⟩
  rcases Bool.and_eq_true_iff.mp hok with ⟨hfree, htracked⟩
  have hinv := notify_inv h.inv hsent hfree
  cases action with
  | start =>
    simp only [handleJobNotificationAction] at hinv ⊢
    split
    · exact h
    · rename_i job hget
      simp only [hget] at hinv
      exact h.keep hinv rfl fun _ => Iff.rfl
  | stop =>
    rcases Option.isSome_iff_exists.mp htracked with ⟨task, htask⟩
    rcases (h.inv.workers node).tasks id task htask with ⟨row, hrow, hnode, -⟩
    simp only [raceFree, getById_of_row hrow, Option.all_some, beq_iff_eq] at hfree
    exact abort_stopInv h htask ⟨row, hrow, hnode, hfree⟩ hinv

theorem spawn_stopInv {job : Job ν} (hcalls : (s.workers node).calls = .spawnJob job :: rest) :
    StopInv (s.settle node rest (spawnJob s.table (s.workers node).jobSet job)) := by
  have hw := h.inv.workers node
  have hinv := settle_inv h.inv (spawnJob_handled hw hcalls)
  have hmem : Call.spawnJob job ∈ (s.workers node).calls := by
    rw [hcalls]
    exact List.mem_cons_self
  -- the job set stays as it is, and a scheduled job becomes running
  have hresult : ∃ table new,
      spawnJob s.table (s.workers node).jobSet job = .ok (table, new, (s.workers node).jobSet) ∧
      ∀ i row, table.rows i = some row → row.status = .stopping → s.table.rows i = some row := by
    rcases spawnJob_cases hw hmem with ⟨-, heq⟩ | ⟨-, ⟨-, heq⟩ | ⟨-, heq⟩⟩
    · exact ⟨_, _, heq, fun _ _ hrow _ => hrow⟩
    · exact ⟨_, _, heq, fun _ _ hrow hstatus => rows_of_modify (fun _ h => by cases h) hrow hstatus⟩
    · exact ⟨_, _, heq, fun _ _ hrow _ => hrow⟩
  rcases hresult with ⟨table, new, heq, hrows⟩
  rw [heq] at hinv ⊢
  refine h.worker hinv (fun _ => rfl) (fun _ _ _ => rfl) ?_
  intro i row hrow hstatus
  have hold := hrows i row hrow hstatus
  refine ⟨?_, fun _ => hold⟩
  rintro rfl
  exact h.tracked i row hold hstatus

theorem initJob_stopInv {job : Job ν} {tables : Option (List String)} (hcalls : (s.workers node).calls = .initJob job :: rest)
    (hok : s.stopsTracked (.call node tables) = true) :
    StopInv (s.initJob node rest job tables) := by
  have hinv : Inv (s.initJob node rest job tables) := initJob_inv h.inv hcalls
  cases tables with
  | none =>
    have hnone : s.noneStopping node = true := by
      simpa [stopsTracked, hcalls] using (Bool.and_eq_true_iff.mp hok).2
    exact h.down hinv nofun fun id row hrow hnode => noneStopping_spec hnone hrow hnode
  | some tables =>
    refine h.worker hinv (fun _ => rfl) (fun _ _ _ => rfl) ?_
    intro i row hrow hstatus
    refine ⟨?_, fun _ => hrow⟩
    rintro rfl
    change ∃ task, (s.workers row.nodeId).jobSet.put job.id (some .running) i = some task
    by_cases hi : i = job.id
    · exact ⟨.running, by rw [hi, JobSet.put_self]⟩
    · rw [JobSet.put_of_ne _ _ hi]
      exact h.tracked i row hrow hstatus

theorem call_stopInv {call : Call ν} {tables : Option (List String)} (hcalls : (s.workers node).calls = call :: rest)
    (hok : s.stopsTracked (.call node tables) = true) :
    StopInv (s.performCall node rest tables call) := by
  have hinv : Inv (s.performCall node rest tables call) := call_inv h.inv hcalls
  cases call with
  | spawnJob job => exact spawn_stopInv h hcalls
  | initJob job => exact initJob_stopInv h hcalls hok
  | abortJob id =>
    have htracked : (s.workers node).jobSet.jobRunning id = true := by
      simpa [stopsTracked, hcalls] using (Bool.and_eq_true_iff.mp hok).2
    rcases Option.isSome_iff_exists.mp htracked with ⟨task, htask⟩
    have hmem : Call.abortJob id ∈ (s.workers node).calls := by
      rw [hcalls]
      exact List.mem_cons_self
    rcases (h.inv.workers node).calls _ hmem with hskip | hassigned
    · exact hskip.elim
    · exact abort_stopInv h htask hassigned hinv

theorem join_stopInv {result : JobResult} (htask : (s.workers node).jobSet id = some (.finished result)) :
    StopInv (s.settle node []
      (handleJobResult s.table (s.workers node).jobSet id result)) := by
  have hw := h.inv.workers node
  have hinv := settle_inv h.inv (handleJobResult_handled hw htask)
  rcases handleJobResult_ok (s.workers node).jobSet (hw.tasks id _ htask) with
    ⟨status, hterminal, heq⟩
  rw [heq] at hinv ⊢
  refine h.worker hinv (fun _ => rfl) (fun _ _ _ => rfl) ?_
  intro i row hrow hstatus
  change (s.table.setStatus id status).rows i = some row at hrow
  -- the job of the task has ended, so the stopping job is another one
  have hi : i ≠ id := by
    rintro rfl
    rw [setStatus_rows_self] at hrow
    rcases Option.map_eq_some_iff.mp hrow with ⟨old, -, rfl⟩
    have hstopping : status = .stopping := hstatus
    rw [hstopping] at hterminal
    exact absurd hterminal (by decide)
  rw [setStatus_rows_of_ne _ _ hi] at hrow
  refine ⟨?_, fun _ => hrow⟩
  rintro rfl
  change ∃ task, (s.workers row.nodeId).jobSet.put id none i = some task
  rw [JobSet.put_of_ne _ _ hi]
  exact h.tracked i row hrow hstatus

theorem finish_stopInv {old new : Task} (hold : (s.workers node).jobSet id = some old) (hinv : Inv (s.putTask node id new)) :
    StopInv (s.putTask node id new) := by
  refine h.keep hinv rfl ?_
  intro i
  change (∃ task, (s.workers node).jobSet.put id (some new) i = some task) ↔ _
  by_cases hi : i = id
  · subst hi
    rw [JobSet.put_self]
    exact ⟨fun _ => ⟨old, hold⟩, fun _ => ⟨new, rfl⟩⟩
  · rw [JobSet.put_of_ne _ _ hi]

end

/-! ## All steps -/

theorem step_stopInv {e : Event ν} (h : StopInv s) (hok : s.stopsTracked e = true)
    (hstep : step s e = some s') : StopInv s' := by
  have hfree : s.raceFree e = true := (Bool.and_eq_true_iff.mp hok).1
  have hinv := step_inv h.inv hfree hstep
  cases step_steps hstep with
  | schedule manifest node =>
    unfold scheduleJob at hinv ⊢
    split
    · exact h
    · exact ⟨⟨h.inv.sent, h.inv.retries, h.inv.workers⟩, h.live, h.tracked⟩
  | register manifest node => exact register_stopInv h
  | stop id => exact stop_stopInv h hfree
  | fetchFailed ready => exact ⟨hinv, h.live, h.tracked⟩
  | retry => exact retry_stopInv h
  | delete id => exact delete_stopInv h
  | boot node hlife => exact boot_stopInv h hlife
  | crash node =>
    have hnone : s.noneStopping node = true := (Bool.and_eq_true_iff.mp hok).2
    exact h.down hinv nofun fun id row hrow hnode => noneStopping_spec hnone hrow hnode
  | notify node notification hsent => exact notify_stopInv h hsent hok
  | tick node => exact h.keep hinv rfl fun _ => Iff.rfl
  | call node tables call rest hcalls => exact call_stopInv h hcalls hok
  | finish node id result task htask hends => exact finish_stopInv h htask hinv
  | join node id result htask => exact join_stopInv h htask

/-- A step in which stops are handled for tracked jobs. -/
def StopsTrackedNext : Action (Cluster ν) := fun s s' =>
  ∃ e, s.stopsTracked e = true ∧ step s e = some s'

/-- In a run in which stops are handled for tracked jobs and no worker goes down while one
of its jobs is stopping, every stopping job has an aborted task. -/
theorem stopping_has_task {s : Cluster ν} (hs : Reachable Init StopsTrackedNext s) {id : Nat}
    {row : JobRow ν} (hrow : s.table.rows id = some row) (hstatus : row.status = .stopping) :
    StopsEventually s id row.nodeId := by
  have h : StopInv s := by
    refine init_invariant Init StopsTrackedNext StopInv init_stopInv ?_ s hs
    rintro s s' ⟨e, hok, hstep⟩ h
    exact step_stopInv h hok hstep
  rcases h.tracked id row hrow hstatus with ⟨task, htask⟩
  have hfits := (((h.inv.workers row.nodeId).tasks id task htask).node_eq hrow).2
  rw [hstatus] at hfits
  constructor
  · cases task with
    | running => rcases hfits with h | h <;> cases h
    | aborting => exact .inl htask
    | finished result =>
      cases result <;> cases hfits
      exact .inr htask
  · exact update_of_mem hrow (List.mem_singleton.mpr hstatus)

/-- A running job is stopped, and its worker has acknowledged it. -/
def stopAcknowledged : List (Event Nat) :=
  [.boot 0, .schedule 7 0, .register 7 0, .notify 0 ⟨1, .start⟩, .call 0 none,
    .call 0 (some ["blocks"]), .stop 1, .notify 0 ⟨1, .stop⟩]

theorem stopping_has_task_acknowledged :
    ∃ (s : Cluster Nat) (row : JobRow Nat), Reachable Init StopsTrackedNext s ∧
      s.table.rows 1 = some row ∧ row.status = .stopping ∧ StopsEventually s 1 row.nodeId := by
  have hrun : (run step stopsTracked initial stopAcknowledged).map
      (fun s => (s.table.rows 1).map (·.status)) = some (some .stopping) := by decide
  rcases Option.map_eq_some_iff.mp hrun with ⟨s, hs, hrow⟩
  rcases Option.map_eq_some_iff.mp hrow with ⟨row, hrow, hstatus⟩
  have hreach : Reachable Init StopsTrackedNext s :=
    Reachable.run (fun _ _ e _ hok h => ⟨e, hok, h⟩) (.init rfl) hs
  exact ⟨s, row, hreach, hrow, hstatus, stopping_has_task hreach hrow hstatus⟩

/-- A job is stopped before its worker has started it. -/
def stoppedBeforeStart : List (Event Nat) :=
  [.boot 0, .schedule 7 0, .register 7 0, .stop 1, .notify 0 ⟨1, .stop⟩]

/-- A worker crashes after it has acknowledged a stop, and is started again. -/
def crashedWhileStopping : List (Event Nat) := stopAcknowledged ++ [.crash 0, .boot 0]

/-- In both runs a job is stopping and its live worker does not track it. -/
theorem stopping_without_task :
    (∃ s : Cluster Nat, Reachable Init Next s ∧ (s.workers 0).life = .live ∧
      s.table.rows 1 = some ⟨0, .stopping, 7, []⟩ ∧ (s.workers 0).jobSet 1 = none) ∧
    ∃ s : Cluster Nat, Reachable Init Next s ∧ (s.workers 0).life = .live ∧
      s.table.rows 1 = some ⟨0, .stopping, 7, []⟩ ∧ (s.workers 0).jobSet 1 = none := by
  have hend : ∀ events ∈ [stoppedBeforeStart, crashedWhileStopping],
      (run step (fun _ _ => true) initial events).map
        (fun s => ((s.workers 0).life, s.table.rows 1, (s.workers 0).jobSet 1)) =
          some (.live, some ⟨0, .stopping, 7, []⟩, none) := by decide
  have hexists : ∀ events ∈ [stoppedBeforeStart, crashedWhileStopping],
      ∃ s : Cluster Nat, Reachable Init Next s ∧ (s.workers 0).life = .live ∧
        s.table.rows 1 = some ⟨0, .stopping, 7, []⟩ ∧ (s.workers 0).jobSet 1 = none := by
    intro events hevents
    rcases Option.map_eq_some_iff.mp (hend events hevents) with ⟨s, hs, heq⟩
    simp only [Prod.mk.injEq] at heq
    exact ⟨s, Reachable.run (fun _ _ e _ _ h => ⟨e, h⟩) (.init rfl) hs, heq⟩
  constructor
  · exact hexists stoppedBeforeStart (by simp)
  · exact hexists crashedWhileStopping (by simp)

end Cluster

end CampNode

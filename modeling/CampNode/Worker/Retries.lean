import CampNode.Core.Transition
import CampNode.Worker.Races
import Mathlib.Logic.Relation

/-!
# CampNode.Worker.Retries — retrying failed jobs

A reconciler reads the failed jobs, each with the index of its next attempt, and reschedules
them one after the other. In between a worker, the admin API or another reconciler may change
the jobs. The transaction of `reschedule` sets the status without a look at the old one, keeps
the row locked, and inserts the attempt, which fails if the attempt exists.

This is enough. A failed job leaves its status only with a reschedule, which records the next
attempt, or with its deletion; so a read is up to date, or its attempt exists, or the job is
gone (`JobsTable.Retryable`). No retry of a job that is not failed is committed, and no failure
of a job is retried twice (`failure_rescheduled_once`).

To count failures every job has a number that grows whenever it is marked as failed. A
committed reschedule is recorded with the number of the job at this moment. The deletion of
many jobs at once is the deletion of one after the other.
-/

namespace CampNode

open JobsTable Function Relation

variable {ν : Type}

/-! ## Statements -/

/-- What workers and the admin API do to a job. -/
inductive Statement where
  | requestStop
  | markRunning
  | markStopping
  | markStopped
  | markCompleted
  | markFailed
  | deleteIfTerminal
deriving DecidableEq

namespace Statement

def run (statement : Statement) (table : JobsTable ν) (id : Nat) :
    Except JobStatusUpdateError (JobsTable ν) :=
  match statement with
  | .requestStop => table.requestStop id
  | .markRunning => table.markRunning id
  | .markStopping => table.markStopping id
  | .markStopped => table.markStopped id
  | .markCompleted => table.markCompleted id
  | .markFailed => table.markFailed id
  | .deleteIfTerminal => .ok (table.deleteIfTerminal id)

variable {statement : Statement} {table table' : JobsTable ν}

/-- What a statement does to the table: it sets the status of a job that is not failed, or it
deletes a job, or it changes nothing. -/
theorem run_ok {id : Nat} (h : statement.run table id = .ok table') :
    table' = table ∨ table' = table.deleteIfTerminal id ∨
      ∃ status row, table' = table.setStatus id status ∧ table.rows id = some row ∧
        row.status ≠ .failed ∧ (status = .failed → statement = .markFailed) := by
  have hupdate : ∀ {expected : List JobStatus} {new : JobStatus},
      table.updateStatusIfAnyState id expected new = .ok table' → .failed ∉ expected →
        (new = .failed → statement = .markFailed) →
      ∃ status row, table' = table.setStatus id status ∧ table.rows id = some row ∧
        row.status ≠ .failed ∧ (status = .failed → statement = .markFailed) := by
    intro expected new hnew hexpected hmark
    rcases update_ok hnew with ⟨row, hrow, hstatus, rfl⟩
    refine ⟨new, row, rfl, hrow, ?_, hmark⟩
    intro hfailed
    rw [hfailed] at hstatus
    exact hexpected hstatus
  cases statement with
  | requestStop =>
    rcases requestStop_ok h with ⟨row, hrow, ⟨hstatus, rfl⟩ | ⟨-, rfl⟩⟩
    · refine .inr (.inr ⟨.stopRequested, row, rfl, hrow, ?_, nofun⟩)
      intro hfailed
      rw [hfailed] at hstatus
      rcases hstatus with hstatus | hstatus
      · cases hstatus
      · cases hstatus
    · exact .inl rfl
  | markRunning => exact .inr (.inr (hupdate h (by decide) nofun))
  | markStopping => exact .inr (.inr (hupdate h (by decide) nofun))
  | markStopped => exact .inr (.inr (hupdate h (by decide) nofun))
  | markCompleted => exact .inr (.inr (hupdate h (by decide) nofun))
  | markFailed => exact .inr (.inr (hupdate h (by decide) fun _ => rfl))
  | deleteIfTerminal =>
    cases h
    exact .inr (.inl rfl)

/-- No statement takes a job out of its failed status without deleting it. -/
theorem run_evolves {id : Nat} (h : statement.run table id = .ok table') :
    table.Evolves table' := by
  rcases run_ok h with rfl | rfl | ⟨status, row, rfl, hrow, hstatus, -⟩
  · exact .refl _
  · exact .delete _ _
  apply JobsTable.Evolves.setStatus
  intro row' hrow'
  rw [hrow] at hrow'
  cases hrow'
  exact hstatus

/-- A job that is failed after a statement was failed before, or has just been marked. -/
theorem run_failed {id i : Nat} {row : JobRow ν} (h : statement.run table id = .ok table')
    (hrow : table'.rows i = some row) (hfailed : row.status = .failed) :
    table.rows i = some row ∨ statement = .markFailed ∧ i = id := by
  rcases run_ok h with rfl | rfl | ⟨status, row₀, rfl, hrow₀, -, hmark⟩
  · exact .inl hrow
  · exact .inl (rows_of_deleteIfTerminal hrow)
  by_cases hi : i = id
  · -- the status of this job is the one that was set
    subst hi
    rw [setStatus_rows_self, hrow₀] at hrow
    cases hrow
    exact .inr ⟨hmark hfailed, rfl⟩
  · rw [setStatus_rows_of_ne _ _ hi] at hrow
    exact .inl hrow

end Statement

/-! ## The system -/

/-- A controller that runs `reconcile_failed_jobs`. -/
structure Reconciler (ν : Type) where
  /-- The failed jobs that were read and are still to be rescheduled. -/
  pending : List (Job ν × Nat)
  /-- The transaction for the first of them has updated its row. -/
  updated : Bool

structure Retries (ν : Type) where
  table : JobsTable ν
  reconcilers : Nat → Reconciler ν
  /-- How often a job was marked as failed. -/
  failures : Nat → Nat
  /-- The committed reschedules: the job and the number of its failure. -/
  rescheduled : List (Nat × Nat)

namespace Retries

variable (s : Retries ν) (id i : Nat)

def setReconciler (r : Reconciler ν) : Retries ν :=
  { s with reconcilers := Function.update s.reconcilers i r }

/-- A transaction has updated the row of the job and is not finished. -/
def Locked : Prop :=
  ∃ i job retryIndex rest, s.reconcilers i = ⟨(job, retryIndex) :: rest, true⟩ ∧ job.id = id

/-- Any jobs; nothing has been read. -/
def Init : StatePred (Retries ν) := fun s =>
  (∀ i, s.reconcilers i = ⟨[], false⟩) ∧ s.rescheduled = []

/-- `get_failed_jobs_ready_for_retry`. -/
def Read : Action (Retries ν) := fun s s' =>
  ∃ ready, s.reconcilers i = ⟨[], false⟩ ∧
    s' = s.setReconciler i ⟨s.table.getFailedJobsReadyForRetry ready, false⟩

/-- The `UPDATE` of `reschedule` waits for other transactions with the row. -/
def Update : Action (Retries ν) := fun s s' =>
  ∃ job retryIndex rest, s.reconcilers i = ⟨(job, retryIndex) :: rest, false⟩ ∧
    ¬ s.Locked job.id ∧ s' = s.setReconciler i ⟨(job, retryIndex) :: rest, true⟩

/-- The `INSERT` succeeds and the transaction is committed. -/
def Commit : Action (Retries ν) := fun s s' =>
  ∃ job retryIndex rest table, s.reconcilers i = ⟨(job, retryIndex) :: rest, true⟩ ∧
    s.table.reschedule job.id job.nodeId retryIndex = some table ∧
    s' = { s.setReconciler i ⟨rest, false⟩ with
      table := table
      rescheduled := (job.id, s.failures job.id) :: s.rescheduled }

/-- The transaction is rolled back: the attempt exists, the job is gone, or the database
fails. The next job follows. -/
def Rollback : Action (Retries ν) := fun s s' =>
  ∃ job retryIndex rest updated, s.reconcilers i = ⟨(job, retryIndex) :: rest, updated⟩ ∧
    s' = s.setReconciler i ⟨rest, false⟩

def Crash : Action (Retries ν) := fun s s' => s' = s.setReconciler i ⟨[], false⟩

/-- A statement of a worker or the admin API waits for the row as well. -/
def Change (statement : Statement) : Action (Retries ν) := fun s s' =>
  ∃ table, ¬ s.Locked id ∧ statement.run s.table id = .ok table ∧ s' = { s with
      table := table
      failures := if statement = .markFailed then Function.update s.failures id (s.failures id + 1)
        else s.failures }

def Register (node : ν) (manifest : ManifestHash) : Action (Retries ν) := fun s s' =>
  s' = { s with table := s.table.register node manifest }

def Next : Action (Retries ν) := fun s s' =>
  (∃ i, Read i s s') ∨ (∃ i, Update i s s') ∨ (∃ i, Commit i s s') ∨ (∃ i, Rollback i s s') ∨
    (∃ i, Crash i s s') ∨ (∃ id statement, Change id statement s s') ∨
    ∃ node manifest, Register node manifest s s'

/-! ## The invariant -/

structure Inv (s : Retries ν) : Prop where
  reads : ∀ i, ∀ r ∈ (s.reconcilers i).pending,
    s.table.Addressed r.1.id r.1.nodeId ∧ s.table.Retryable r.1.id r.2
  counted : ∀ id n, (id, n) ∈ s.rescheduled → n ≤ s.failures id
  /-- The failure of a failed job has not been answered. -/
  unanswered : ∀ id row, s.table.rows id = some row → row.status = .failed →
    (id, s.failures id) ∉ s.rescheduled
  once : s.rescheduled.Nodup

section Steps

variable {s s' : Retries ν}

theorem init_inv : ∀ s : Retries ν, Init s → Inv s := by
  rintro s ⟨hidle, hnone⟩
  refine ⟨?_, ?_, ?_, ?_⟩
  · intro i r hr
    rw [hidle i] at hr
    cases hr
  · intro id n hn
    rw [hnone] at hn
    cases hn
  · intro id row _ _
    rw [hnone]
    exact List.not_mem_nil
  · rw [hnone]
    exact List.nodup_nil

variable {i : Nat}

/-- A step of a reconciler that does not touch the table. -/
theorem Inv.setReconciler {r : Reconciler ν} (h : Inv s)
    (hreads : ∀ q ∈ r.pending, s.table.Addressed q.1.id q.1.nodeId ∧ s.table.Retryable q.1.id q.2) :
    Inv (s.setReconciler i r) := by
  refine ⟨?_, h.counted, h.unanswered, h.once⟩
  intro j q hq
  by_cases hj : j = i
  · subst hj
    have hq : q ∈ (update s.reconcilers j r j).pending := hq
    rw [update_self] at hq
    exact hreads q hq
  · have hq : q ∈ (update s.reconcilers i r j).pending := hq
    rw [update_of_ne hj] at hq
    exact h.reads j q hq

/-- The reads of a reconciler stay valid while it works through them. -/
theorem Inv.rest {q : Job ν × Nat} {rest : List (Job ν × Nat)} {updated : Bool} (h : Inv s)
    (hi : s.reconcilers i = ⟨q :: rest, updated⟩) :
    ∀ q' ∈ rest, s.table.Addressed q'.1.id q'.1.nodeId ∧ s.table.Retryable q'.1.id q'.2 := by
  intro q' hq'
  refine h.reads i q' ?_
  rw [hi]
  exact List.mem_cons_of_mem q hq'

/-- Reads survive a change of the table. -/
theorem reads_mono {table table' : JobsTable ν} {q : Job ν × Nat}
    (h : table.Addressed q.1.id q.1.nodeId ∧ table.Retryable q.1.id q.2)
    (hevolves : table.Evolves table') :
    table'.Addressed q.1.id q.1.nodeId ∧ table'.Retryable q.1.id q.2 :=
  ⟨h.1.mono hevolves, h.2.mono h.1.1 hevolves⟩

theorem read_inv (hstep : Read i s s') (h : Inv s) : Inv s' := by
  rcases hstep with ⟨ready, -, rfl⟩
  apply h.setReconciler
  rintro ⟨job, retryIndex⟩ hq
  rcases mem_getFailedJobsReadyForRetry hq with ⟨row, hrow, hnode, hstatus, hindex⟩
  constructor
  · refine ⟨s.table.lt_nextId hrow, ?_⟩
    intro row' hrow'
    rw [hrow] at hrow'
    cases hrow'
    exact hnode
  · -- the read is up to date
    intro row' hrow'
    rw [hrow] at hrow'
    cases hrow'
    exact .inr ⟨hstatus, hindex⟩

theorem update_inv (hstep : Update i s s') (h : Inv s) : Inv s' := by
  rcases hstep with ⟨job, retryIndex, rest, hi, -, rfl⟩
  apply h.setReconciler
  intro q hq
  refine h.reads i q ?_
  rw [hi]
  exact hq

theorem commit_inv (hstep : Commit i s s') (h : Inv s) : Inv s' := by
  rcases hstep with ⟨job, retryIndex, rest, table, hi, hres, rfl⟩
  have hread := h.reads i (job, retryIndex) (by rw [hi]; exact List.mem_cons_self)
  rcases hread.2.evolves hread.1 hres with ⟨hevolves, row, hrow, hfailed⟩
  -- the job is failed until now, so this failure is new in the record
  have hnew := h.unanswered job.id row hrow hfailed
  refine ⟨?_, ?_, ?_, List.nodup_cons.mpr ⟨hnew, h.once⟩⟩
  · intro j q hq
    exact reads_mono ((h.setReconciler (h.rest hi)).reads j q hq) hevolves
  · intro id n hn
    rcases List.mem_cons.mp hn with heq | hn
    · cases heq
      exact Nat.le_refl _
    · exact h.counted id n hn
  intro id row' hrow' hfailed' hmem
  rcases reschedule_some hres with ⟨-, -, -, rfl⟩
  by_cases hid : id = job.id
  · -- the job is scheduled now
    subst hid
    rw [modify_rows_self, hrow] at hrow'
    cases hrow'
    cases hfailed'
  · rw [modify_rows_of_ne _ _ hid] at hrow'
    rcases List.mem_cons.mp hmem with heq | hmem
    · exact hid (congrArg Prod.fst heq)
    · exact h.unanswered id row' hrow' hfailed' hmem

theorem rollback_inv (hstep : Rollback i s s') (h : Inv s) : Inv s' := by
  rcases hstep with ⟨job, retryIndex, rest, updated, hi, rfl⟩
  exact h.setReconciler (h.rest hi)

theorem crash_inv (hstep : Crash i s s') (h : Inv s) : Inv s' := by
  cases hstep
  exact h.setReconciler nofun

theorem change_inv {id : Nat} {statement : Statement} (hstep : Change id statement s s')
    (h : Inv s) : Inv s' := by
  rcases hstep with ⟨table, -, hrun, rfl⟩
  refine ⟨?_, ?_, ?_, h.once⟩
  · intro i q hq
    exact reads_mono (h.reads i q hq) (Statement.run_evolves hrun)
  · intro i n hn
    have hle := h.counted i n hn
    dsimp only
    split
    · by_cases hi : i = id
      · subst hi
        rw [update_self]
        exact Nat.le_succ_of_le hle
      · rw [update_of_ne hi]
        exact hle
    · exact hle
  · intro i row hrow hfailed hmem
    dsimp only at hmem
    by_cases hmark : statement = .markFailed ∧ i = id
    · -- a new failure has a new number
      rcases hmark with ⟨hmark, rfl⟩
      rw [if_pos hmark, update_self] at hmem
      exact Nat.not_succ_le_self _ (h.counted i _ hmem)
    -- the job was failed before, and its number is the old one
    rcases Statement.run_failed hrun hrow hfailed with hold | hnew
    · have hcount : (if statement = .markFailed then
          update s.failures id (s.failures id + 1) else s.failures) i = s.failures i := by
        split
        · rename_i hstatement
          exact update_of_ne (fun hi => hmark ⟨hstatement, hi⟩) ..
        · rfl
      rw [hcount] at hmem
      exact h.unanswered i row hold hfailed hmem
    · exact hmark hnew

theorem register_inv {node : ν} {manifest : ManifestHash} (hstep : Register node manifest s s')
    (h : Inv s) : Inv s' := by
  cases hstep
  refine ⟨?_, h.counted, ?_, h.once⟩
  · intro i q hq
    exact reads_mono (h.reads i q hq) (.register _ _ _)
  intro id row hrow hfailed
  change (if id = s.table.nextId then _ else _) = some row at hrow
  split at hrow
  · -- the new job is scheduled
    cases hrow
    cases hfailed
  · exact h.unanswered id row hrow hfailed

theorem step_inv : ∀ s s' : Retries ν, Next s s' → Inv s → Inv s' := by
  rintro s s' (⟨i, hs⟩ | ⟨i, hs⟩ | ⟨i, hs⟩ | ⟨i, hs⟩ | ⟨i, hs⟩ | ⟨id, statement, hs⟩ |
    ⟨node, manifest, hs⟩) h
  · exact read_inv hs h
  · exact update_inv hs h
  · exact commit_inv hs h
  · exact rollback_inv hs h
  · exact crash_inv hs h
  · exact change_inv hs h
  · exact register_inv hs h

end Steps

/-- A reschedule that can be committed finds its job failed and is its next attempt, all others
are rolled back; and no failure of a job is rescheduled twice. -/
theorem failure_rescheduled_once (s : Retries ν) (h : Reachable Init Next s) :
    (∀ i job retryIndex rest table, s.reconcilers i = ⟨(job, retryIndex) :: rest, true⟩ →
      s.table.reschedule job.id job.nodeId retryIndex = some table →
      ∃ row, s.table.rows job.id = some row ∧ row.status = .failed ∧
        retryIndex = nextRetryIndex row.attempts) ∧
    s.rescheduled.Nodup := by
  have hinv := init_invariant Init Next Inv init_inv step_inv s h
  refine ⟨?_, hinv.once⟩
  intro i job retryIndex rest table hi hres
  have hread := hinv.reads i (job, retryIndex) (by rw [hi]; exact List.mem_cons_self)
  exact hread.2.current hres

def oneFailed : Retries Unit where
  table := (JobsTable.empty.register () 0).setStatus 1 .failed
  reconcilers := fun _ => ⟨[], false⟩
  failures := fun _ => 0
  rescheduled := []

def failedJob : Job Unit := ⟨1, (), .failed, 0⟩

theorem not_locked {s : Retries ν} (h : ∀ i, (s.reconcilers i).updated = false) (id : Nat) :
    ¬ s.Locked id := by
  rintro ⟨i, job, retryIndex, rest, hi, -⟩
  have hupdated := h i
  rw [hi] at hupdated
  cases hupdated

/-- Two reconcilers read a failed job, the first one reschedules it, and it fails again. The
read of the second one is rolled back now, a new one is not. -/
theorem failure_rescheduled_once_raced : ∃ s : Retries Unit, Reachable Init Next s ∧
    s.reconcilers 1 = ⟨[(failedJob, 0)], false⟩ ∧ s.table.reschedule 1 () 0 = none ∧
    s.reconcilers 0 = ⟨[(failedJob, 1)], true⟩ ∧
    (∃ row, s.table.rows 1 = some row ∧ row.status = .failed ∧ 1 = nextRetryIndex row.attempts) ∧
    s.rescheduled = [(1, 0)] ∧ s.rescheduled.Nodup := by
  have h : Reachable Init Next oneFailed := .init ⟨fun _ => rfl, rfl⟩
  have h := h.step (.inl ⟨0, [1], rfl, rfl⟩)
  have h := h.step (.inl ⟨1, [1], rfl, rfl⟩)
  have h := h.step (.inr (.inl ⟨0, failedJob, 0, [], rfl,
    not_locked (by rintro (_ | _ | i) <;> rfl) _, rfl⟩))
  have h := h.step (.inr (.inr (.inl ⟨0, failedJob, 0, [], _, rfl, rfl, rfl⟩)))
  have h := h.step (.inr (.inr (.inr (.inr (.inr (.inl ⟨1, .markFailed, _,
    not_locked (by rintro (_ | _ | i) <;> rfl) _, rfl, rfl⟩))))))
  have h := h.step (.inl ⟨0, [1], rfl, rfl⟩)
  have h := h.step (.inr (.inl ⟨0, failedJob, 1, [], rfl,
    not_locked (by rintro (_ | _ | i) <;> rfl) _, rfl⟩))
  have hsafe := failure_rescheduled_once _ h
  exact ⟨_, h, rfl, rfl, rfl, hsafe.1 0 failedJob 1 [] _ rfl rfl, rfl, hsafe.2⟩

end Retries

/-! ## The life of a job -/

/-- The statuses that may follow a status. -/
def JobStatus.next : JobStatus → List JobStatus
  | .scheduled => [.running, .stopRequested, .failed]
  | .running => [.stopRequested, .completed, .failed]
  | .stopRequested => [.stopping]
  | .stopping => [.stopped]
  | .failed => [.scheduled]
  | .completed | .stopped | .unknown => []

def JobRow.Leads (row row' : JobRow ν) : Prop := row'.status ∈ row.status.next

variable {table table' : JobsTable ν} {id i : Nat} {row row' row₀ : JobRow ν}

theorem leads_of_same (hrows : table'.rows i = table.rows i) (hrow : table.rows i = some row)
    (hrow' : table'.rows i = some row') : row' = row ∨ row.Leads row' := by
  rw [hrows, hrow] at hrow'
  exact .inl (Option.some.inj hrow').symm

theorem leads_of_modify {f : JobRow ν → JobRow ν} (hrow₀ : table.rows id = some row₀)
    (hleads : row₀.Leads (f row₀)) (hrow : table.rows i = some row)
    (hrow' : (table.modify id f).rows i = some row') : row' = row ∨ row.Leads row' := by
  by_cases hi : i = id
  · subst hi
    rw [hrow] at hrow₀
    cases hrow₀
    rw [modify_rows_self, hrow] at hrow'
    cases hrow'
    exact .inr hleads
  · exact leads_of_same (modify_rows_of_ne _ _ hi) hrow hrow'

/-- A statement leaves a job as it is or takes it one status on. -/
theorem Statement.run_leads {statement : Statement} (h : statement.run table id = .ok table')
    (hrow : table.rows i = some row) (hrow' : table'.rows i = some row') :
    row' = row ∨ row.Leads row' := by
  have hupdate : ∀ {expected : List JobStatus} {new : JobStatus},
      table.updateStatusIfAnyState id expected new = .ok table' →
      (∀ status ∈ expected, new ∈ status.next) → row' = row ∨ row.Leads row' := by
    intro expected new hnew hnext
    rcases update_ok hnew with ⟨row₀, hrow₀, hstatus, rfl⟩
    refine leads_of_modify hrow₀ ?_ hrow hrow'
    exact hnext _ hstatus
  cases statement with
  | requestStop =>
    rcases requestStop_ok h with ⟨row₀, hrow₀, ⟨hstatus, rfl⟩ | ⟨-, rfl⟩⟩
    · refine leads_of_modify hrow₀ ?_ hrow hrow'
      rcases hstatus with hstatus | hstatus <;> simp [JobRow.Leads, hstatus, JobStatus.next]
    · exact leads_of_same rfl hrow hrow'
  | deleteIfTerminal =>
    cases h
    exact leads_of_same rfl hrow (rows_of_deleteIfTerminal hrow')
  | markRunning | markStopping | markStopped | markCompleted | markFailed =>
    exact hupdate h (by decide)

namespace Retries

variable {s s' : Retries ν}

theorem step_leads (hstep : Next s s') (h : Inv s) : s.table.Evolves s'.table ∧
    ∀ {i row row'}, s.table.rows i = some row → s'.table.rows i = some row' →
      row' = row ∨ row.Leads row' := by
  rcases hstep with ⟨i, ready, -, rfl⟩ | ⟨i, job, retryIndex, rest, -, -, rfl⟩ |
    ⟨i, job, retryIndex, rest, table, hi, hres, rfl⟩ | ⟨i, job, retryIndex, rest, updated, -, rfl⟩ |
    ⟨i, rfl⟩ | ⟨id, statement, table, -, hrun, rfl⟩ | ⟨node, manifest, rfl⟩
  · exact ⟨.refl _, leads_of_same rfl⟩
  · exact ⟨.refl _, leads_of_same rfl⟩
  · -- only a failed job is rescheduled
    have hread := h.reads i (job, retryIndex) (by rw [hi]; exact List.mem_cons_self)
    rcases hread.2.evolves hread.1 hres with ⟨hevolves, row₀, hrow₀, hfailed⟩
    refine ⟨hevolves, ?_⟩
    rcases reschedule_some hres with ⟨-, -, -, rfl⟩
    exact leads_of_modify hrow₀ (by simp [JobRow.Leads, hfailed, JobStatus.next])
  · exact ⟨.refl _, leads_of_same rfl⟩
  · exact ⟨.refl _, leads_of_same rfl⟩
  · exact ⟨Statement.run_evolves hrun, Statement.run_leads hrun⟩
  · refine ⟨.register _ _ _, ?_⟩
    intro id row row' hrow
    have hlt := s.table.lt_nextId hrow
    exact leads_of_same (if_neg (by omega)) hrow

/-- Whatever workers, the admin API and reconcilers with stale reads do, a job goes from status to
status along `JobStatus.next`, and where that ends its row stays as it is until it is deleted. -/
theorem job_lifecycle (h : Reachable Init Next s) (hrun : Reachable (· = s) Next s')
    (hrow : s.table.rows id = some row) (hrow' : s'.table.rows id = some row') :
    ReflTransGen JobRow.Leads row row' ∧ (row.status.next = [] → row' = row) := by
  have hall := init_invariant (· = s) Next (fun t => Inv t ∧ id < t.table.nextId ∧
      ∀ r, t.table.rows id = some r → ReflTransGen JobRow.Leads row r) ?_ ?_ s' hrun
  · have hpath := hall.2.2 row' hrow'
    refine ⟨hpath, ?_⟩
    intro hnil
    rcases hpath.cases_head with heq | ⟨r, hleads, -⟩
    · exact heq.symm
    · simp [JobRow.Leads, hnil] at hleads
  · rintro t rfl
    refine ⟨init_invariant Init Next Inv init_inv step_inv t h, t.table.lt_nextId hrow, ?_⟩
    intro r hr
    rw [hrow] at hr
    cases hr
    exact .refl
  · rintro t t' hstep ⟨ht, hid, hpath⟩
    rcases step_leads hstep ht with ⟨hevolves, hleads⟩
    refine ⟨step_inv t t' hstep ht, Nat.lt_of_lt_of_le hid hevolves.next, ?_⟩
    intro r' hr'
    rcases hevolves.rows id r' hid hr' with ⟨r, hr, -⟩
    rcases hleads hr hr' with rfl | hnext
    · exact hpath r' hr
    · exact (hpath r hr).tail hnext

/-- A failed job is read and rescheduled. -/
theorem job_lifecycle_retried : ∃ s : Retries Unit, Reachable (· = oneFailed) Next s ∧
    ∃ row row', oneFailed.table.rows 1 = some row ∧ s.table.rows 1 = some row' ∧
      row'.status = .scheduled ∧ ReflTransGen JobRow.Leads row row' := by
  have h : Reachable (· = oneFailed) Next oneFailed := .init rfl
  have h := h.step (.inl ⟨0, [1], rfl, rfl⟩)
  have h := h.step (.inr (.inl ⟨0, failedJob, 0, [], rfl,
    not_locked (by rintro (_ | i) <;> rfl) _, rfl⟩))
  have h := h.step (.inr (.inr (.inl ⟨0, failedJob, 0, [], _, rfl, rfl, rfl⟩)))
  refine ⟨_, h, _, _, rfl, rfl, rfl, ?_⟩
  exact (job_lifecycle (.init ⟨fun _ => rfl, rfl⟩) h (rfl : oneFailed.table.rows 1 = _) rfl).1

end Retries

end CampNode

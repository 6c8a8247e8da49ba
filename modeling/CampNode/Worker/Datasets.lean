import CampNode.Worker.Service

/-!
# CampNode.Worker.Datasets — the active jobs of a dataset

`schedule_dataset_sync_job` does not schedule a dataset that has a scheduled or running
job already. It finds the jobs of a dataset through the physical tables they write,
and a job becomes the writer of its tables only when its worker initializes it. Two
schedule calls in a row therefore register two jobs. Retries do not look for other jobs
at all.

The main result is the discipline under which a dataset has at most one scheduled or
running job: a dataset is scheduled while each of its scheduled and running jobs is a
writer of one of its tables and no other schedule call for it is under way, and a
failed job is retried while there is neither another such job nor such a call.
-/

namespace CampNode

open List JobsTable

variable {ν : Type}

/-! ## Active jobs -/

def JobStatus.isActive (status : JobStatus) : Bool :=
  decide (status = .scheduled) || decide (status = .running)

namespace JobsTable

variable (table table' : JobsTable ν) (manifest : ManifestHash)

/-- The job is scheduled or running, and belongs to the dataset. -/
def Active (id : Nat) : Prop :=
  ∃ row, table.rows id = some row ∧ row.manifest = manifest ∧ row.status.isActive = true

/-- The scheduled and running jobs of a dataset. -/
def activeJobs : List (Job ν) :=
  table.select fun job => decide (job.manifest = manifest) && job.status.isActive

variable {id : Nat}

variable {table manifest} in
theorem mem_activeJobs (h : table.Active manifest id) : ∃ job ∈ table.activeJobs manifest, job.id = id := by
  rcases h with ⟨row, hrow, hmanifest, hactive⟩
  refine ⟨_, mem_select_of_row hrow ?_, rfl⟩
  simp [hmanifest, hactive]

/-- No job becomes active. -/
def Quiet : Prop :=
  ∀ manifest id, table'.Active manifest id → table.Active manifest id

theorem Quiet.refl : table.Quiet table := fun _ _ h => h

theorem Quiet.delete (id : Nat) : table.Quiet (table.deleteIfTerminal id) := by
  rintro manifest i ⟨row, hrow, hactive⟩
  exact ⟨row, rows_of_deleteIfTerminal hrow, hactive⟩

/-- A status update makes no job active, unless it was active before. -/
theorem Quiet.update {table table' : JobsTable ν} {expected : List JobStatus} {new : JobStatus}
    (h : table.updateStatusIfAnyState id expected new = .ok table')
    (hnew : new.isActive = true → ∀ status ∈ expected, status.isActive = true) :
    table.Quiet table' := by
  rcases update_ok h with ⟨row, hrow, hexpected, rfl⟩
  rintro manifest i ⟨row', hrow', hmanifest, hactive⟩
  by_cases hi : i = id
  · subst hi
    rw [setStatus_rows_self, hrow] at hrow'
    cases hrow'
    exact ⟨row, hrow, hmanifest, hnew hactive _ hexpected⟩
  · rw [setStatus_rows_of_ne _ _ hi] at hrow'
    exact ⟨row', hrow', hmanifest, hactive⟩

theorem Quiet.requestStop {table table' : JobsTable ν} (h : table.requestStop id = .ok table') :
    table.Quiet table' := by
  rcases requestStop_ok h with ⟨row, hrow, ⟨hstatus, rfl⟩ | ⟨-, rfl⟩⟩
  · have hupdate : table.updateStatusIfAnyState id [.running, .scheduled] .stopRequested =
        .ok (table.setStatus id .stopRequested) := by
      apply update_of_mem hrow
      rcases hstatus with hstatus | hstatus <;> simp [hstatus]
    exact .update hupdate nofun
  · exact .refl _

end JobsTable

namespace Worker

variable {table table' : JobsTable ν} {set set' : JobSet} {new : List (Call ν)}

/-- The calls of a worker make no job active. -/
theorem spawnJob_quiet {job : Job ν} (h : spawnJob table set job = .ok (table', new, set')) :
    table.Quiet table' := by
  unfold spawnJob at h
  split at h
  · cases h
    exact .refl _
  split at h
  · cases h
    exact .refl _
  split at h
  · cases h
  rename_i hmark
  cases h
  refine .update hmark ?_
  intro _ status hstatus
  rw [mem_singleton.mp hstatus]
  rfl

theorem abortJob_quiet {id : Nat} (h : abortJob table set id = .ok (table', new, set')) :
    table.Quiet table' := by
  unfold abortJob at h
  split at h
  · cases h
  · rename_i hmark
    cases h
    exact .update hmark nofun

theorem handleJobResult_quiet {id : Nat} {result : JobResult}
    (h : handleJobResult table set id result = .ok (table', new, set')) : table.Quiet table' := by
  unfold handleJobResult at h
  split at h
  · cases h
  rename_i hmark
  cases h
  cases result with
  | completed => exact .update hmark nofun
  | failed => exact .update hmark nofun
  | aborted => exact .update hmark nofun
  | panicked => exact .update hmark nofun

end Worker

/-! ## One active job for each dataset -/

namespace Cluster

variable [DecidableEq ν]

/-- The schedule calls and retries that keep to the discipline. -/
def oneAtATime (s : Cluster ν) : Event ν → Bool
  | .schedule manifest _ =>
      ((s.table.activeJobs manifest).all fun job =>
        (s.table.getJobsByDataset s.locations manifest).contains job) &&
          s.pending.all fun p => decide (p.1 ≠ manifest)
  | .retry =>
      s.retries.head?.all fun r =>
        (s.table.getById r.1.id).all fun job =>
          ((s.table.activeJobs job.manifest).all fun other => decide (other.id = job.id)) &&
            s.pending.all fun p => decide (p.1 ≠ job.manifest)
  | _ => true

structure Single (s : Cluster ν) : Prop where
  unique : ∀ manifest i j, s.table.Active manifest i → s.table.Active manifest j → i = j
  pending : ∀ p ∈ s.pending, ∀ id, ¬ s.table.Active p.1 id
  distinct : s.pending.Pairwise fun a b => a.1 ≠ b.1

omit [DecidableEq ν] in
theorem init_single : ∀ s : Cluster ν, Init s → Single s := by
  rintro s rfl
  constructor
  · rintro manifest i j ⟨row, hrow, -⟩
    cases hrow
  · exact nofun
  · exact .nil

omit [DecidableEq ν] in
/-- Steps that make no job active and start no schedule call. -/
theorem Single.quiet {s s' : Cluster ν} (h : Single s) (hquiet : s.table.Quiet s'.table)
    (hpending : s'.pending = s.pending) : Single s' := by
  constructor
  · intro manifest i j hi hj
    exact h.unique manifest i j (hquiet _ _ hi) (hquiet _ _ hj)
  · rw [hpending]
    intro p hp id hactive
    exact h.pending p hp id (hquiet _ _ hactive)
  · rw [hpending]
    exact h.distinct

variable {s : Cluster ν} {node : ν}

theorem Single.settle (h : Single s) {rest : List (Call ν)} {result : CallResult ν}
    (hquiet : ∀ table new set, result = .ok (table, new, set) → s.table.Quiet table) :
    Single (s.settle node rest result) := by
  cases result with
  | error e => exact h.quiet (.refl _) rfl
  | ok done =>
    rcases done with ⟨table, new, set⟩
    exact h.quiet (hquiet table new set rfl) rfl

/-- The check finds every active job of the dataset, because all of them are writers. -/
theorem schedule_single {manifest : ManifestHash} (h : Single s)
    (hok : s.oneAtATime (.schedule manifest node) = true) :
    Single (s.scheduleJob manifest node) := by
  rcases Bool.and_eq_true_iff.mp hok with ⟨hlinked, hpending⟩
  simp only [all_eq_true, decide_eq_true_eq, contains_iff_mem] at hlinked hpending
  unfold scheduleJob
  split
  · exact h
  rename_i hnone
  constructor
  · exact h.unique
  · intro p hp id hactive
    rcases mem_cons.mp hp with rfl | hp
    · rcases mem_activeJobs hactive with ⟨job, hjob, -⟩
      apply hnone
      apply any_eq_true.mpr
      refine ⟨job, hlinked job hjob, ?_⟩
      have hstatus := (Bool.and_eq_true_iff.mp (mem_select hjob).2).2
      simpa [JobStatus.isActive] using hstatus
    · exact h.pending p hp id hactive
  · refine pairwise_cons.mpr ⟨?_, h.distinct⟩
    intro p hp
    exact (hpending p hp).symm

theorem register_single {manifest : ManifestHash} (h : Single s)
    (hmem : (manifest, node) ∈ s.pending) : Single (s.registerJob manifest node) := by
  -- the new job is the only one that becomes active
  have hnew : ∀ m i, (s.table.register node manifest).Active m i →
      s.table.Active m i ∨ m = manifest ∧ i = s.table.nextId := by
    rintro m i ⟨row, hrow, hmanifest, hactive⟩
    change (if i = s.table.nextId then _ else _) = some row at hrow
    split at hrow
    · rename_i hi
      cases hrow
      exact .inr ⟨hmanifest.symm, hi⟩
    · exact .inl ⟨row, hrow, hmanifest, hactive⟩
  have hnone := h.pending _ hmem
  constructor
  · intro m i j hi hj
    rcases hnew m i hi with hold | ⟨rfl, rfl⟩
    · rcases hnew m j hj with hold' | ⟨rfl, rfl⟩
      · exact h.unique m i j hold hold'
      · exact absurd hold (hnone i)
    · rcases hnew m j hj with hold' | ⟨-, rfl⟩
      · exact absurd hold' (hnone j)
      · rfl
  · intro p hp id hactive
    have hp' : p ∈ s.pending := mem_of_mem_erase hp
    rcases hnew p.1 id hactive with hactive | ⟨hmanifest, -⟩
    · exact h.pending p hp' id hactive
    · -- another pending call of the same dataset is excluded
      have hperm := perm_cons_erase hmem
      have hdistinct := hperm.pairwise_iff (fun h => h.symm) |>.mp h.distinct
      exact (pairwise_cons.mp hdistinct).1 p hp hmanifest.symm
  · exact h.distinct.sublist erase_sublist

theorem retry_single (h : Single s) (hok : s.oneAtATime .retry = true) : Single s.retryJob := by
  unfold retryJob
  split
  · exact h
  rename_i job retryIndex rest hretries
  split
  · exact h.quiet (.refl _) rfl
  rename_i table hres
  rcases reschedule_some hres with ⟨row, hrow, -, rfl⟩
  simp only [oneAtATime, hretries, head?_cons, Option.all_some, getById_of_row hrow,
    Bool.and_eq_true, all_eq_true, decide_eq_true_eq] at hok
  rcases hok with ⟨halone, hpending⟩
  -- only the retried job becomes active
  have hnew : ∀ m i, (s.table.modify job.id fun row =>
        ⟨job.nodeId, .scheduled, row.manifest, retryIndex :: row.attempts⟩).Active m i →
      s.table.Active m i ∨ m = row.manifest ∧ i = job.id := by
    rintro m i ⟨row', hrow', hmanifest, hactive⟩
    by_cases hi : i = job.id
    · subst hi
      rw [modify_rows_self, hrow] at hrow'
      cases hrow'
      exact .inr ⟨hmanifest.symm, rfl⟩
    · rw [modify_rows_of_ne _ _ hi] at hrow'
      exact .inl ⟨row', hrow', hmanifest, hactive⟩
  have hother : ∀ i, s.table.Active row.manifest i → i = job.id := by
    intro i hi
    rcases mem_activeJobs hi with ⟨other, hmem, rfl⟩
    exact halone other hmem
  constructor
  · intro m i j hi hj
    rcases hnew m i hi with hold | ⟨rfl, rfl⟩
    · rcases hnew m j hj with hold' | ⟨rfl, rfl⟩
      · exact h.unique m i j hold hold'
      · exact hother i hold
    · rcases hnew _ j hj with hold' | ⟨-, rfl⟩
      · exact (hother j hold').symm
      · rfl
  · intro p hp id hactive
    rcases hnew p.1 id hactive with hactive | ⟨hmanifest, -⟩
    · exact h.pending p hp id hactive
    · exact hpending p hp hmanifest
  · exact h.distinct

theorem step_single {s s' : Cluster ν} {e : Event ν} (h : Single s)
    (hok : s.oneAtATime e = true) (hstep : step s e = some s') : Single s' := by
  cases step_steps hstep with
  | schedule manifest node => exact schedule_single h hok
  | register manifest node hmem => exact register_single h hmem
  | stop id =>
    unfold stopJob
    split
    · exact h
    · split
      · exact h
      · rename_i table hstop
        exact h.quiet (.requestStop hstop) rfl
  | fetchFailed ready => exact h.quiet (.refl _) rfl
  | retry => exact retry_single h hok
  | delete id => exact h.quiet (.delete _ _) rfl
  | boot node => exact h.quiet (.refl _) rfl
  | crash node => exact h.quiet (.refl _) rfl
  | notify node notification =>
    unfold handleJobNotificationAction
    split
    · split
      · exact h
      · exact h.quiet (.refl _) rfl
    · exact h.settle fun _ _ _ => Worker.abortJob_quiet
  | tick node => exact h.quiet (.refl _) rfl
  | call node tables call rest =>
    cases call with
    | spawnJob job => exact h.settle fun _ _ _ => Worker.spawnJob_quiet
    | initJob job => cases tables <;> exact h.quiet (.refl _) rfl
    | abortJob id => exact h.settle fun _ _ _ => Worker.abortJob_quiet
  | finish node id result => exact h.quiet (.refl _) rfl
  | join node id result => exact h.settle fun _ _ _ => Worker.handleJobResult_quiet

/-- A step that keeps to the discipline. -/
def OneAtATimeNext : Action (Cluster ν) := fun s s' =>
  ∃ e, s.oneAtATime e = true ∧ step s e = some s'

/-- Under the discipline a dataset has at most one scheduled or running job. -/
theorem one_active_job {s : Cluster ν} (hs : Reachable Init OneAtATimeNext s)
    {manifest : ManifestHash} {i j : Nat} (hi : s.table.Active manifest i)
    (hj : s.table.Active manifest j) : i = j := by
  have h : Single s := by
    refine init_invariant Init OneAtATimeNext Single init_single ?_ s hs
    rintro s s' ⟨e, hok, hstep⟩ h
    exact step_single h hok hstep
  exact h.unique manifest i j hi hj

/-- A dataset is scheduled again while its job runs, and once more after the job has
failed; the new job completes and the failed one is retried. -/
def rescheduled : List (Event Nat) :=
  [.boot 0, .schedule 7 0, .register 7 0, .notify 0 ⟨1, .start⟩, .call 0 none,
    .call 0 (some ["blocks"]), .schedule 7 0, .finish 0 1 .failed, .join 0 1, .schedule 7 0,
    .register 7 0, .notify 0 ⟨2, .start⟩, .call 0 none, .call 0 (some ["blocks"]),
    .finish 0 2 .completed, .join 0 2, .fetchFailed [1], .retry]

theorem one_active_job_rescheduled :
    ∃ s : Cluster Nat, Reachable Init OneAtATimeNext s ∧ s.table.Active 7 1 ∧
      ∀ j, s.table.Active 7 j → 1 = j := by
  have hrun : (run step oneAtATime initial rescheduled).map (fun s => s.table.rows 1) =
      some (some ⟨0, .scheduled, 7, [0]⟩) := by decide
  rcases Option.map_eq_some_iff.mp hrun with ⟨s, hs, hrow⟩
  have hreach : Reachable Init OneAtATimeNext s :=
    Reachable.run (fun _ _ e _ hok h => ⟨e, hok, h⟩) (.init rfl) hs
  have hactive : s.table.Active 7 1 := ⟨_, hrow, rfl, rfl⟩
  exact ⟨s, hreach, hactive, fun j hj => one_active_job hreach hactive hj⟩

/-- A dataset is scheduled twice before its worker has started the first job. -/
def scheduledTwice : List (Event Nat) :=
  [.boot 0, .schedule 7 0, .register 7 0, .schedule 7 0, .register 7 0]

/-- A failed job is retried after a new job was scheduled. -/
def retriedBesideNew : List (Event Nat) :=
  [.boot 0, .schedule 7 0, .register 7 0, .notify 0 ⟨1, .start⟩, .call 0 none,
    .call 0 (some ["blocks"]), .finish 0 1 .failed, .join 0 1, .schedule 7 0, .register 7 0,
    .fetchFailed [1], .retry]

/-- A run that ends with two scheduled jobs of one dataset. -/
theorem two_active_of_run {events : List (Event Nat)}
    (hend : (run step (fun _ _ => true) initial events).map (fun s =>
      ((s.table.rows 1).map fun row => (row.manifest, row.status),
        (s.table.rows 2).map fun row => (row.manifest, row.status))) =
        some (some (7, .scheduled), some (7, .scheduled))) :
    ∃ s : Cluster Nat, run step (fun _ _ => true) initial events = some s ∧
      Reachable Init Next s ∧ s.table.Active 7 1 ∧ s.table.Active 7 2 := by
  rcases Option.map_eq_some_iff.mp hend with ⟨s, hs, hrows⟩
  rcases Prod.mk.inj hrows with ⟨hfirst, hsecond⟩
  rcases Option.map_eq_some_iff.mp hfirst with ⟨row₁, hrow₁, heq₁⟩
  rcases Option.map_eq_some_iff.mp hsecond with ⟨row₂, hrow₂, heq₂⟩
  simp only [Prod.mk.injEq] at heq₁ heq₂
  refine ⟨s, hs, Reachable.run (fun _ _ e _ _ h => ⟨e, h⟩) (.init rfl) hs, ?_, ?_⟩
  · exact ⟨row₁, hrow₁, heq₁.1, by rw [heq₁.2]; rfl⟩
  · exact ⟨row₂, hrow₂, heq₂.1, by rw [heq₂.2]; rfl⟩

/-- Both runs lead to two scheduled jobs of one dataset. -/
theorem two_active_jobs :
    (∃ s : Cluster Nat, run step (fun _ _ => true) initial scheduledTwice = some s ∧
      Reachable Init Next s ∧ s.table.Active 7 1 ∧ s.table.Active 7 2) ∧
    ∃ s : Cluster Nat, run step (fun _ _ => true) initial retriedBesideNew = some s ∧
      Reachable Init Next s ∧ s.table.Active 7 1 ∧ s.table.Active 7 2 := by
  constructor
  · exact two_active_of_run (by decide)
  · exact two_active_of_run (by decide)

end Cluster

end CampNode

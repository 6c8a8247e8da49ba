import CampNode.Core.Transition
import Mathlib.Data.Finset.Basic

/-!
# CampNode.Dump.Check — the consistency check of a table

`consistency_check` compares the files that are registered in the metadata database with the
objects in the store. It reads the database first and lists the store afterwards. An object
that was not registered is deleted, and a registered file that was not listed is an error.

The other processes update the two in opposite orders. A writer or a compaction uploads a file
and then registers it; the collector deletes the row of a file and then its object.

* `check_deletes_registered`, `check_reports_collected` — a file that is uploaded before the
  listing and registered after the read is deleted, and a file that is collected between the
  two is reported as missing.
* `check_consistent` — what holds when neither happens.

File names are not used twice: they contain a random number. The listing is one step of the
model. An object may also be lost for other reasons, which the check is there to find.
-/

namespace CampNode.Consistency

open Finset

/-- How far a run of `consistency_check` is. -/
inductive Check (File : Type) where
  /-- It has read the registered files. -/
  | read (registered : Finset File)
  /-- It has listed the store. The orphans that are not deleted yet are `orphans`. -/
  | listed (registered stored orphans : Finset File)

/-- The files of a table, and the processes that work on them. -/
structure Location (File : Type) where
  /-- The rows in `file_metadata`. -/
  registered : Finset File
  /-- The objects in the store. -/
  stored : Finset File
  /-- The names of all files that were ever written. -/
  used : Finset File
  /-- Uploaded by a writer that has not registered them. -/
  pending : Finset File
  /-- The rows in `gc_manifest` that have expired. -/
  expired : Finset File
  /-- The collector has deleted the row, but not the object. -/
  collecting : Finset File
  check : Option (Check File)
  /-- Objects that the check has deleted. -/
  deleted : Finset File
  /-- Files that the check has reported as missing. -/
  reported : Finset File
  /-- Objects that the collector has deleted. -/
  collected : Finset File
  /-- Objects that have disappeared for another reason. -/
  lost : Finset File

variable {File : Type}

/-! ## Actions -/

variable (f : File)

/-- `ParquetFileWriter::close`. -/
def Upload [DecidableEq File] : Action (Location File) := fun s s' =>
  f ∉ s.used ∧
    s' = { s with stored := insert f s.stored, used := insert f s.used, pending := insert f s.pending }

/-- `commit_metadata`. -/
def Commit [DecidableEq File] : Action (Location File) := fun s s' =>
  f ∈ s.pending ∧ s' = { s with registered := insert f s.registered, pending := s.pending.erase f }

/-- The writer stops before it registers the file. -/
def Abandon [DecidableEq File] : Action (Location File) := fun s s' =>
  f ∈ s.pending ∧ s' = { s with pending := s.pending.erase f }

/-- A compaction has replaced the file and the lock on it has expired. -/
def Expire [DecidableEq File] : Action (Location File) := fun s s' =>
  f ∈ s.registered ∧ s' = { s with expired := insert f s.expired }

/-- `delete_file_ids` for one of the expired files. -/
def DeleteRow [DecidableEq File] : Action (Location File) := fun s s' =>
  f ∈ s.expired ∧ f ∈ s.registered ∧ s' = { s with
      registered := s.registered.erase f
      expired := s.expired.erase f
      collecting := insert f s.collecting }

/-- `delete_stream` for one of them. An object that is not found is ignored. -/
def DeleteObject [DecidableEq File] : Action (Location File) := fun s s' =>
  f ∈ s.collecting ∧ s' = { s with
      stored := s.stored.erase f
      collecting := s.collecting.erase f
      collected := if f ∈ s.stored then insert f s.collected else s.collected }

/-- The collector stops between the two. -/
def AbandonObject [DecidableEq File] : Action (Location File) := fun s s' =>
  f ∈ s.collecting ∧ s' = { s with collecting := s.collecting.erase f }

def Lose [DecidableEq File] : Action (Location File) := fun s s' =>
  f ∈ s.stored ∧ s' = { s with stored := s.stored.erase f, lost := insert f s.lost }

/-- `table.files()`. -/
def ReadFiles : Action (Location File) := fun s s' =>
  s.check = none ∧ s' = { s with check := some (.read s.registered) }

/-- `store.list(..)`. -/
def ListStore [DecidableEq File] : Action (Location File) := fun s s' =>
  ∃ registered, s.check = some (.read registered) ∧
    s' = { s with check := some (.listed registered s.stored (s.stored \ registered)) }

def DeleteOrphan [DecidableEq File] : Action (Location File) := fun s s' =>
  ∃ registered stored orphans, s.check = some (.listed registered stored orphans) ∧ f ∈ orphans ∧
    s' = { s with
      stored := s.stored.erase f
      check := some (.listed registered stored (orphans.erase f))
      deleted := insert f s.deleted }

/-- `MissingRegisteredFile`, after all orphans are deleted. -/
def Report [DecidableEq File] : Action (Location File) := fun s s' =>
  ∃ registered stored, s.check = some (.listed registered stored ∅) ∧
    f ∈ registered ∧ f ∉ stored ∧ s' = { s with check := none, reported := insert f s.reported }

/-- The check returns without a missing file, or fails at one of its steps. -/
def Finish : Action (Location File) := fun s s' =>
  s' = { s with check := none }

/-- A step of one of the processes. -/
inductive Act (File : Type) where
  | upload (f : File)
  | commit (f : File)
  | abandon (f : File)
  | expire (f : File)
  | deleteRow (f : File)
  | deleteObject (f : File)
  | abandonObject (f : File)
  | lose (f : File)
  | readFiles
  | listStore
  | deleteOrphan (f : File)
  | report (f : File)
  | finish

def Perform [DecidableEq File] : Act File → Action (Location File)
  | .upload f => Upload f
  | .commit f => Commit f
  | .abandon f => Abandon f
  | .expire f => Expire f
  | .deleteRow f => DeleteRow f
  | .deleteObject f => DeleteObject f
  | .abandonObject f => AbandonObject f
  | .lose f => Lose f
  | .readFiles => ReadFiles
  | .listStore => ListStore
  | .deleteOrphan f => DeleteOrphan f
  | .report f => Report f
  | .finish => Finish

/-- Any interleaving of the processes whose steps are allowed. -/
def Next [DecidableEq File] (allowed : Location File → Act File → Prop) : Action (Location File) := fun s s' =>
  ∃ act, allowed s act ∧ Perform act s s'

/-- A table all of whose registered files exist, on which no process works. -/
def Init : StatePred (Location File) := fun s =>
  s.registered ⊆ s.stored ∧ s.stored ⊆ s.used ∧ s.pending = ∅ ∧ s.collecting = ∅ ∧
    s.check = none ∧ s.deleted = ∅ ∧ s.reported = ∅ ∧ s.collected = ∅ ∧ s.lost = ∅

variable (s : Location File)

/-- The check starts when no uploaded file waits to be registered. Until it has listed the store
no file is uploaded and no object of a file that it has read is collected. -/
def Orderly : Act File → Prop
  | .readFiles => s.pending = ∅
  | .upload _ => ∀ registered, s.check ≠ some (.read registered)
  | .deleteObject f => ∀ registered, s.check = some (.read registered) → f ∉ registered
  | _ => True

/-! ## The invariant -/

/-- The name is used up: the file is not registered and no writer will register it. -/
def Retired (f : File) : Prop :=
  f ∈ s.used ∧ f ∉ s.pending ∧ f ∉ s.registered

/-- The object exists unless it was lost. -/
def Kept (f : File) : Prop :=
  f ∈ s.stored ∨ f ∈ s.lost

/-- The check has decided to delete these objects. -/
def orphans : Finset File :=
  match s.check with
  | some (.listed _ _ orphans) => orphans
  | _ => ∅

/-- The collector or the check deletes the object, or the check has done so. -/
def Doomed (f : File) : Prop :=
  f ∈ s.collecting ∨ f ∈ orphans s ∨ f ∈ s.deleted

structure Inv : Prop where
  stored : ∀ f ∈ s.stored, f ∈ s.used
  registered : ∀ f ∈ s.registered, f ∈ s.used ∧ Kept s f
  pending : ∀ f ∈ s.pending, f ∉ s.registered ∧ Kept s f
  doomed : ∀ f, Doomed s f → Retired s f
  read : ∀ registered, s.check = some (.read registered) →
    s.pending = ∅ ∧ s.registered ⊆ registered ∧ ∀ f ∈ registered, Kept s f
  listed : ∀ registered stored orphans, s.check = some (.listed registered stored orphans) →
    ∀ f ∈ registered, f ∈ stored ∨ f ∈ s.lost
  reported : ∀ f ∈ s.reported, f ∈ s.lost
  collected : ∀ f ∈ s.collected, f ∈ s.used ∧ f ∉ s.stored ∧ f ∉ s.lost
  lost : ∀ f ∈ s.lost, f ∈ s.used ∧ f ∉ s.stored

variable {s s' : Location File}

theorem Inv.kept_used (h : Inv s) {f : File} (hf : Kept s f) : f ∈ s.used := by
  rcases hf with hstored | hlost
  · exact h.stored f hstored
  · exact (h.lost f hlost).1

/-- Without a listing no orphans are left to delete. -/
theorem Inv.retired_of_unlisted (h : Inv s) {f : File}
    (hf : f ∈ s.collecting ∨ f ∈ (∅ : Finset File) ∨ f ∈ s.deleted) : Retired s f := by
  rcases hf with hf | hf | hf
  · exact h.doomed f (.inl hf)
  · exact absurd hf (notMem_empty f)
  · exact h.doomed f (.inr (.inr hf))

/-- No step brings a retired name back. -/
theorem Retired.step [DecidableEq File] {f : File} (h : Retired s f) (act : Act File) (hact : Perform act s s') :
    Retired s' f := by
  obtain ⟨hused, hpending, hregistered⟩ := h
  cases act with
  | upload g =>
    obtain ⟨hg, rfl⟩ := hact
    have hne : f ≠ g := by
      rintro rfl
      exact hg hused
    exact ⟨mem_insert_of_mem hused, by simp [hne, hpending], hregistered⟩
  | commit g =>
    obtain ⟨hg, rfl⟩ := hact
    have hne : f ≠ g := by
      rintro rfl
      exact hpending hg
    exact ⟨hused, by simp [hpending], by simp [hne, hregistered]⟩
  | abandon g =>
    obtain ⟨-, rfl⟩ := hact
    exact ⟨hused, by simp [hpending], hregistered⟩
  | deleteRow g =>
    obtain ⟨-, -, rfl⟩ := hact
    exact ⟨hused, hpending, by simp [hregistered]⟩
  | listStore =>
    obtain ⟨_, -, rfl⟩ := hact
    exact ⟨hused, hpending, hregistered⟩
  | deleteOrphan g =>
    obtain ⟨_, _, _, -, -, rfl⟩ := hact
    exact ⟨hused, hpending, hregistered⟩
  | report g =>
    obtain ⟨_, _, -, -, -, rfl⟩ := hact
    exact ⟨hused, hpending, hregistered⟩
  | finish =>
    cases hact
    exact ⟨hused, hpending, hregistered⟩
  | _ =>
    obtain ⟨-, rfl⟩ := hact
    exact ⟨hused, hpending, hregistered⟩

theorem init_inv (h : Init s) : Inv s := by
  obtain ⟨hregistered, hstored, hpending, hcollecting, hcheck, hdeleted, hreported, hcollected, hlost⟩ := h
  constructor
  · exact fun f hf => hstored hf
  · exact fun f hf => ⟨hstored (hregistered hf), .inl (hregistered hf)⟩
  · simp [hpending]
  · simp [Doomed, orphans, hcollecting, hcheck, hdeleted]
  · simp [hcheck]
  · simp [hcheck]
  · simp [hreported]
  · simp [hcollected]
  · simp [hlost]

section Steps

variable [DecidableEq File] {f : File}

theorem upload_inv (h : Inv s) (horderly : Orderly s (.upload f)) (hstep : Upload f s s') : Inv s' := by
  have hretired {g : File} (hg : Retired s g) : Retired s' g := hg.step (.upload f) hstep
  obtain ⟨hf, rfl⟩ := hstep
  -- the name is new, so it is none of the files that the invariant is about
  have hne {g : File} (hg : g ∈ s.used) : g ≠ f := by
    rintro rfl
    exact hf hg
  have hkept {g : File} (hg : Kept s g) : g ∈ insert f s.stored ∨ g ∈ s.lost :=
    hg.imp_left mem_insert_of_mem
  constructor
  · intro g hg
    rcases mem_insert.mp hg with rfl | hg
    · exact mem_insert_self ..
    · exact mem_insert_of_mem (h.stored g hg)
  · intro g hg
    obtain ⟨hused, hg⟩ := h.registered g hg
    exact ⟨mem_insert_of_mem hused, hkept hg⟩
  · intro g hg
    rcases mem_insert.mp hg with rfl | hg
    · exact ⟨fun hr => hf (h.registered g hr).1, .inl (mem_insert_self ..)⟩
    · exact ⟨(h.pending g hg).1, hkept (h.pending g hg).2⟩
  · exact fun g hg => hretired (h.doomed g hg)
  · exact fun registered hread => absurd hread (horderly registered)
  · exact h.listed
  · exact h.reported
  · intro g hg
    obtain ⟨hused, hstored, hlost⟩ := h.collected g hg
    exact ⟨mem_insert_of_mem hused, by simp [hne hused, hstored], hlost⟩
  · intro g hg
    obtain ⟨hused, hstored⟩ := h.lost g hg
    exact ⟨mem_insert_of_mem hused, by simp [hne hused, hstored]⟩

theorem commit_inv (h : Inv s) (hstep : Commit f s s') : Inv s' := by
  have hretired {g : File} (hg : Retired s g) : Retired s' g := hg.step (.commit f) hstep
  obtain ⟨hf, rfl⟩ := hstep
  have hkept := (h.pending f hf).2
  refine { h with registered := ?_, pending := ?_, doomed := ?_, read := ?_ }
  · intro g hg
    rcases mem_insert.mp hg with rfl | hg
    · exact ⟨h.kept_used hkept, hkept⟩
    · exact h.registered g hg
  · intro g hg
    obtain ⟨hne, hg⟩ := mem_erase.mp hg
    obtain ⟨hr, hg⟩ := h.pending g hg
    exact ⟨by simp [hne, hr], hg⟩
  · exact fun g hg => hretired (h.doomed g hg)
  · -- nothing is uploaded while the check is between its two reads
    intro registered hread
    rw [(h.read registered hread).1] at hf
    exact absurd hf (notMem_empty f)

theorem abandon_inv (h : Inv s) (hstep : Abandon f s s') : Inv s' := by
  have hretired {g : File} (hg : Retired s g) : Retired s' g := hg.step (.abandon f) hstep
  obtain ⟨-, rfl⟩ := hstep
  refine { h with pending := ?_, doomed := ?_, read := ?_ }
  · exact fun g hg => h.pending g (mem_of_mem_erase hg)
  · exact fun g hg => hretired (h.doomed g hg)
  · intro registered hread
    obtain ⟨hpending, hsub, hkept⟩ := h.read registered hread
    exact ⟨by simp [hpending], hsub, hkept⟩

theorem expire_inv (h : Inv s) (hstep : Expire f s s') : Inv s' := by
  obtain ⟨-, rfl⟩ := hstep
  exact { h with }

theorem deleteRow_inv (h : Inv s) (hstep : DeleteRow f s s') : Inv s' := by
  have hretired {g : File} (hg : Retired s g) : Retired s' g := hg.step (.deleteRow f) hstep
  obtain ⟨-, hf, rfl⟩ := hstep
  refine { h with registered := ?_, pending := ?_, doomed := ?_, read := ?_ }
  · exact fun g hg => h.registered g (mem_of_mem_erase hg)
  · intro g hg
    obtain ⟨hr, hkept⟩ := h.pending g hg
    exact ⟨by simp [hr], hkept⟩
  · rintro g (hg | hg)
    · rcases mem_insert.mp hg with rfl | hg
      · exact ⟨(h.registered g hf).1, fun hp => (h.pending g hp).1 hf, by simp⟩
      · exact hretired (h.doomed g (.inl hg))
    · exact hretired (h.doomed g (.inr hg))
  · intro registered hread
    obtain ⟨hpending, hsub, hkept⟩ := h.read registered hread
    exact ⟨hpending, fun g hg => hsub (mem_of_mem_erase hg), hkept⟩

theorem Kept.erase {g : File} (hg : Kept s g) (hne : g ≠ f) : g ∈ s.stored.erase f ∨ g ∈ s.lost :=
  hg.imp_left fun hstored => mem_erase.mpr ⟨hne, hstored⟩

section

variable (h : Inv s)
include h

/-- Registered files survive the deletion of a retired object. -/
theorem Inv.registered_erase (hf : Retired s f) :
    ∀ g ∈ s.registered, g ∈ s.used ∧ (g ∈ s.stored.erase f ∨ g ∈ s.lost) := by
  intro g hg
  obtain ⟨hused, hkept⟩ := h.registered g hg
  exact ⟨hused, hkept.erase (ne_of_mem_of_not_mem hg hf.2.2)⟩

/-- So do the files that are about to be registered. -/
theorem Inv.pending_erase (hf : Retired s f) :
    ∀ g ∈ s.pending, g ∉ s.registered ∧ (g ∈ s.stored.erase f ∨ g ∈ s.lost) := by
  intro g hg
  obtain ⟨hr, hkept⟩ := h.pending g hg
  exact ⟨hr, hkept.erase (ne_of_mem_of_not_mem hg hf.2.1)⟩

/-- Lost objects stay lost. -/
theorem Inv.lost_erase : ∀ g ∈ s.lost, g ∈ s.used ∧ g ∉ s.stored.erase f := by
  intro g hg
  obtain ⟨hused, hstored⟩ := h.lost g hg
  exact ⟨hused, fun hmem => hstored (mem_of_mem_erase hmem)⟩

theorem deleteObject_inv (horderly : Orderly s (.deleteObject f))
    (hstep : DeleteObject f s s') : Inv s' := by
  have hretired {g : File} (hg : Retired s g) : Retired s' g := hg.step (.deleteObject f) hstep
  obtain ⟨hf, rfl⟩ := hstep
  have hfretired := h.doomed f (.inl hf)
  constructor
  · exact fun g hg => h.stored g (mem_of_mem_erase hg)
  · exact h.registered_erase hfretired
  · exact h.pending_erase hfretired
  · intro g hg
    exact hretired (h.doomed g (hg.imp_left mem_of_mem_erase))
  · intro registered hread
    obtain ⟨hpending, hsub, hkept⟩ := h.read registered hread
    have hfresh := horderly registered hread
    exact ⟨hpending, hsub, fun g hg => (hkept g hg).erase (ne_of_mem_of_not_mem hg hfresh)⟩
  · exact h.listed
  · exact h.reported
  · intro g hg
    have hnew : g ∈ s.collected ∨ (g = f ∧ f ∈ s.stored) := by
      change g ∈ (if f ∈ s.stored then insert f s.collected else s.collected) at hg
      split at hg
      · rename_i hfstored
        rcases mem_insert.mp hg with rfl | hg
        · exact .inr ⟨rfl, hfstored⟩
        · exact .inl hg
      · exact .inl hg
    rcases hnew with hold | ⟨rfl, hfstored⟩
    · obtain ⟨hused, hstored, hlost⟩ := h.collected g hold
      exact ⟨hused, by simp [hstored], hlost⟩
    · exact ⟨hfretired.1, by simp, fun hlost => (h.lost g hlost).2 hfstored⟩
  · exact h.lost_erase

theorem abandonObject_inv (hstep : AbandonObject f s s') : Inv s' := by
  obtain ⟨-, rfl⟩ := hstep
  refine { h with doomed := ?_ }
  intro g hg
  exact h.doomed g (hg.imp_left mem_of_mem_erase)

theorem lose_inv (hstep : Lose f s s') : Inv s' := by
  obtain ⟨hf, rfl⟩ := hstep
  have hkept {g : File} (hg : Kept s g) : g ∈ s.stored.erase f ∨ g ∈ insert f s.lost := by
    by_cases hgf : g = f
    · exact .inr (by simp [hgf])
    · exact (hg.erase hgf).imp_right mem_insert_of_mem
  constructor
  · exact fun g hg => h.stored g (mem_of_mem_erase hg)
  · intro g hg
    obtain ⟨hused, hg⟩ := h.registered g hg
    exact ⟨hused, hkept hg⟩
  · intro g hg
    obtain ⟨hr, hg⟩ := h.pending g hg
    exact ⟨hr, hkept hg⟩
  · exact h.doomed
  · intro registered hread
    obtain ⟨hpending, hsub, hread⟩ := h.read registered hread
    exact ⟨hpending, hsub, fun g hg => hkept (hread g hg)⟩
  · intro registered stored orphans hlisted g hg
    exact (h.listed _ _ _ hlisted g hg).imp_right mem_insert_of_mem
  · exact fun g hg => mem_insert_of_mem (h.reported g hg)
  · intro g hg
    obtain ⟨hused, hstored, hlost⟩ := h.collected g hg
    have hne : g ≠ f := fun hgf => hstored (hgf ▸ hf)
    exact ⟨hused, by simp [hstored], by simp [hne, hlost]⟩
  · intro g hg
    rcases mem_insert.mp hg with rfl | hg
    · exact ⟨h.stored g hf, by simp⟩
    · obtain ⟨hused, hstored⟩ := h.lost g hg
      exact ⟨hused, by simp [hstored]⟩

theorem listStore_inv (hstep : ListStore s s') : Inv s' := by
  obtain ⟨registered, hread, rfl⟩ := hstep
  obtain ⟨hpending, hsub, hkept⟩ := h.read registered hread
  refine { h with doomed := ?_, read := nofun, listed := ?_ }
  · rintro g (hg | hg | hg)
    · exact h.doomed g (.inl hg)
    · -- an orphan is not registered, and nobody is about to register it
      obtain ⟨hstored, hg⟩ := mem_sdiff.mp hg
      refine ⟨h.stored g hstored, ?_, fun hr => hg (hsub hr)⟩
      change g ∉ s.pending
      simp [hpending]
    · exact h.doomed g (.inr (.inr hg))
  · intro registered' stored orphans hlisted g hg
    cases hlisted
    exact hkept g hg

theorem deleteOrphan_inv (hstep : DeleteOrphan f s s') : Inv s' := by
  obtain ⟨registered, stored, orphans, hcheck, hf, rfl⟩ := hstep
  have horphan {g : File} (hg : g ∈ orphans) : Retired s g := by
    refine h.doomed g (.inr (.inl ?_))
    unfold Consistency.orphans
    rw [hcheck]
    exact hg
  constructor
  · exact fun g hg => h.stored g (mem_of_mem_erase hg)
  · exact h.registered_erase (horphan hf)
  · exact h.pending_erase (horphan hf)
  · rintro g (hg | hg | hg)
    · exact h.doomed g (.inl hg)
    · exact horphan (mem_of_mem_erase hg)
    · rcases mem_insert.mp hg with rfl | hg
      · exact horphan hf
      · exact h.doomed g (.inr (.inr hg))
  · nofun
  · intro registered' stored' orphans' hlisted
    cases hlisted
    exact h.listed _ _ _ hcheck
  · exact h.reported
  · intro g hg
    obtain ⟨hused, hstored, hlost⟩ := h.collected g hg
    exact ⟨hused, by simp [hstored], hlost⟩
  · exact h.lost_erase

theorem report_inv (hstep : Report f s s') : Inv s' := by
  obtain ⟨registered, stored, hcheck, hf, hmissing, rfl⟩ := hstep
  refine { h with doomed := ?_, read := nofun, listed := nofun, reported := ?_ }
  · exact fun g hg => h.retired_of_unlisted hg
  · intro g hg
    rcases mem_insert.mp hg with rfl | hg
    · exact (h.listed _ _ _ hcheck g hf).resolve_left hmissing
    · exact h.reported g hg

end

end Steps

theorem readFiles_inv (h : Inv s) (horderly : Orderly s .readFiles) (hstep : ReadFiles s s') : Inv s' := by
  obtain ⟨hcheck, rfl⟩ := hstep
  refine { h with doomed := ?_, read := ?_, listed := nofun }
  · exact fun g hg => h.retired_of_unlisted hg
  · intro registered hread
    cases hread
    exact ⟨horderly, subset_rfl, fun g hg => (h.registered g hg).2⟩

theorem finish_inv (h : Inv s) (hstep : Finish s s') : Inv s' := by
  cases hstep
  refine { h with doomed := ?_, read := nofun, listed := nofun }
  exact fun g hg => h.retired_of_unlisted hg

theorem step_inv [DecidableEq File] (h : Inv s) (hstep : Next Orderly s s') : Inv s' := by
  obtain ⟨act, horderly, hact⟩ := hstep
  cases act with
  | upload f => exact upload_inv h horderly hact
  | commit f => exact commit_inv h hact
  | abandon f => exact abandon_inv h hact
  | expire f => exact expire_inv h hact
  | deleteRow f => exact deleteRow_inv h hact
  | deleteObject f => exact deleteObject_inv h horderly hact
  | abandonObject f => exact abandonObject_inv h hact
  | lose f => exact lose_inv h hact
  | readFiles => exact readFiles_inv h horderly hact
  | listStore => exact listStore_inv h hact
  | deleteOrphan f => exact deleteOrphan_inv h hact
  | report f => exact report_inv h hact
  | finish => exact finish_inv h hact

/-- In an orderly run a file that the check deletes is not registered, then or later, and a file
that it reports was not removed by the collector: it was lost. -/
theorem check_consistent [DecidableEq File] (s : Location File) (hs : Reachable Init (Next Orderly) s) :
    (∀ f ∈ s.deleted, f ∉ s.registered) ∧ ∀ f ∈ s.reported, f ∉ s.collected ∧ f ∈ s.lost := by
  have hinv : Inv s := init_invariant _ _ Inv (fun _ => init_inv) (fun _ _ h hi => step_inv hi h) s hs
  constructor
  · intro f hf
    exact (hinv.doomed f (.inr (.inr hf))).2.2
  · intro f hf
    have hlost := hinv.reported f hf
    exact ⟨fun hcollected => (hinv.collected f hcollected).2.2 hlost, hlost⟩

/-! ## Runs with one file -/

/-- A table with the given files, on which no process works. -/
def resting (files expired : Finset Nat) : Location Nat where
  registered := files
  stored := files
  used := files
  pending := ∅
  expired := expired
  collecting := ∅
  check := none
  deleted := ∅
  reported := ∅
  collected := ∅
  lost := ∅

theorem resting_reachable (allowed : Location Nat → Act Nat → Prop) (files expired : Finset Nat) :
    Reachable Init (Next allowed) (resting files expired) :=
  .init ⟨subset_rfl, subset_rfl, rfl, rfl, rfl, rfl, rfl, rfl, rfl⟩

/-- An abandoned file is deleted. -/
theorem check_consistent_orphan :
    ∃ s : Location Nat, Reachable Init (Next Orderly) s ∧ 0 ∈ s.deleted ∧ 0 ∉ s.registered := by
  have huploaded := Reachable.step (resting_reachable Orderly ∅ ∅) ⟨.upload 0, nofun, by decide, rfl⟩
  have habandoned := Reachable.step huploaded ⟨.abandon 0, trivial, by decide, rfl⟩
  have hread := Reachable.step habandoned ⟨.readFiles,
    (by decide : (insert 0 ∅ : Finset Nat).erase 0 = ∅), rfl, rfl⟩
  have hlisted := Reachable.step hread ⟨.listStore, trivial, _, rfl, rfl⟩
  have hdeleted := Reachable.step hlisted ⟨.deleteOrphan 0, trivial, _, _, _, rfl, by decide, rfl⟩
  have h0 : 0 ∈ insert 0 (∅ : Finset Nat) := by decide
  exact ⟨_, hdeleted, h0, (check_consistent _ hdeleted).1 0 h0⟩

/-- A writer uploads a file, the check reads the database, lists the store and deletes the file,
and the writer registers it. -/
theorem check_deletes_registered :
    ∃ s : Location Nat, Reachable Init (Next fun _ _ => True) s ∧ 0 ∈ s.deleted ∧ 0 ∈ s.registered := by
  have huploaded := Reachable.step (resting_reachable (fun _ _ => True) ∅ ∅)
    ⟨.upload 0, trivial, by decide, rfl⟩
  have hread := Reachable.step huploaded ⟨.readFiles, trivial, rfl, rfl⟩
  have hlisted := Reachable.step hread ⟨.listStore, trivial, _, rfl, rfl⟩
  have hdeleted := Reachable.step hlisted ⟨.deleteOrphan 0, trivial, _, _, _, rfl, by decide, rfl⟩
  have hcommitted := Reachable.step hdeleted ⟨.commit 0, trivial, by decide, rfl⟩
  exact ⟨_, hcommitted, by decide, by decide⟩

/-- The collector removes an expired file after the check has read the database and before it
lists the store. -/
theorem check_reports_collected :
    ∃ s : Location Nat, Reachable Init (Next fun _ _ => True) s ∧ 0 ∈ s.reported ∧ 0 ∈ s.collected ∧
      s.lost = ∅ := by
  have hread := Reachable.step (resting_reachable (fun _ _ => True) {0} {0})
    ⟨.readFiles, trivial, rfl, rfl⟩
  have hrow := Reachable.step hread ⟨.deleteRow 0, trivial, by decide, by decide, rfl⟩
  have hobject := Reachable.step hrow ⟨.deleteObject 0, trivial, by decide, rfl⟩
  have hlisted := Reachable.step hobject ⟨.listStore, trivial, _, rfl, rfl⟩
  have hreported := Reachable.step hlisted
    ⟨.report 0, trivial, _, _, rfl, by decide, by decide, rfl⟩
  exact ⟨_, hreported, by decide, by decide, rfl⟩

/-- Both parts fail without a condition on the interleaving. -/
theorem check_inconsistent :
    (∃ s : Location Nat, Reachable Init (Next fun _ _ => True) s ∧ 0 ∈ s.deleted ∧ 0 ∈ s.registered) ∧
    (∃ s : Location Nat, Reachable Init (Next fun _ _ => True) s ∧ 0 ∈ s.reported ∧ 0 ∈ s.collected ∧
      s.lost = ∅) :=
  ⟨check_deletes_registered, check_reports_collected⟩

end CampNode.Consistency

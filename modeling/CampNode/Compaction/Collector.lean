import CampNode.Compaction.Table

/-!
# CampNode.Compaction.Collector — the garbage collection manifest

Files are not deleted when they are found to be superseded. They are entered in
the table `gc_manifest` with an expiration, and a later run of the collector
deletes the rows that have expired. Nothing looks at the canonical chain again
in between: `reclaim_superseded` reads the segments and schedules some of them in
two steps, `Collector::collect` reads the expired rows and deletes the files in
two steps, and writers and the compactor commit at any time.

`collector_deletes_canonical_file` is a run in which the collector deletes a file of the
canonical chain: a file that was superseded by a fork is scheduled, and before it
expires a writer extends the chain it belongs to. The inputs of a compaction are also
deleted while they are canonical, if the output is as old as they are.

Where no writer commits a fork and outputs are newer than their inputs the system is simulated by
`Table`, and `collector_spares_canonical` says that no canonical file is deleted.
-/

namespace CampNode

open List

/-! ## Database functions -/

/-- A row of `gc_manifest`. -/
structure GcManifestRow where
  fileId : Nat
  expiration : Int
deriving DecidableEq, Repr

variable (ids : List Nat) (files : List Segment) (expiration now : Int)
  (manifest : List GcManifestRow)

/-- The given ids that have a row in `file_metadata` (the join of both inserts). -/
def existingIds (ids : List Nat) : List Nat :=
  ids.filter fun id => (files.map (·.id)).contains id

/-- `MetadataDb::upsert_gc_manifest`: a row that exists gets the new expiration. -/
def upsertGcManifest (ids : List Nat) (manifest : List GcManifestRow) : List GcManifestRow :=
  manifest.filter (fun row => !(existingIds files ids).contains row.fileId) ++
    (existingIds files ids).map fun id => ⟨id, expiration⟩

/-- `MetadataDb::schedule_gc_manifest`: a row that exists keeps its expiration. -/
def scheduleGcManifest (ids : List Nat) (manifest : List GcManifestRow) : List GcManifestRow :=
  manifest ++ ((existingIds files ids).filter fun id =>
    !(manifest.map (·.fileId)).contains id).map fun id => ⟨id, expiration⟩

/-- `MetadataDb::stream_expired_files`. -/
def expiredFiles : List Nat :=
  (manifest.filter fun row => row.expiration < now).map (·.fileId)

/-- `MetadataDb::delete_file_ids`. -/
def deleteFileIds : List Segment :=
  files.filter fun f => !ids.contains f.id

/-- Rows of `gc_manifest` go with the file they reference. -/
def cascadeManifest : List GcManifestRow :=
  manifest.filter fun row => !ids.contains row.fileId

/-! ## The system -/

structure Gc where
  files : List Segment
  manifest : List GcManifestRow
  now : Int
  nextId : Nat
  /-- The ranges committed by writers. -/
  written : List BlockRange
  /-- The compactor's snapshot and the part of it in committed groups. -/
  snapshot : List Segment
  used : List Segment
  /-- Inputs of committed compactions, whose manifest rows may still be missing. -/
  parents : List Nat
  /-- Ids returned by sweeps, whose manifest rows may still be missing. -/
  swept : List Nat
  /-- Expired ids that a collector has read and not yet deleted. -/
  found : List Nat

namespace Gc

-- `lock` is the duration of the deletion lock (`file_lock_duration`); `admits` says
-- which ranges writers commit, depending on those committed before, and `commits` which
-- outputs the compactor commits.
variable (lock : Int) (admits : List BlockRange → BlockRange → Prop)
  (commits : List Segment → Segment → Prop)

def Init : StatePred Gc := fun s =>
  s.files = [] ∧ s.manifest = [] ∧ s.written = [] ∧ s.snapshot = [] ∧ s.used = [] ∧
    s.parents = [] ∧ s.swept = [] ∧ s.found = []

/-- A writer commits file `f`. -/
def WriterCommit (f : Segment) : Action Gc := fun s s' =>
  admits s.written f.range ∧ f.id = s.nextId ∧ s' = { s with
      files := f :: s.files
      written := f.range :: s.written
      nextId := s.nextId + 1 }

/-- The compactor takes the canonical chain as its snapshot. -/
def BeginCompaction : Action Gc := fun s s' =>
  ∃ (σ : SegmentSort) (segments : List Segment) (chain : Chain), segments.Perm s.files ∧
    canonicalChain σ segments = some chain ∧
    s' = { s with snapshot := chain.segments, used := [] }

/-- The first half of `CompactionGroup::compact`: `commit_metadata`. -/
def CommitMetadata (group : List Segment) (output : Segment) : Action Gc := fun s s' =>
  CompactionOutput s.snapshot s.used s.nextId group output ∧ s' = { s with
      files := output :: s.files
      nextId := s.nextId + 1
      used := group ++ s.used
      parents := group.map (·.id) ++ s.parents }

/-- The second half: `upsert_gc_manifest` for the inputs. -/
def UpsertManifest (ids : List Nat) : Action Gc := fun s s' =>
  ids ⊆ s.parents ∧
    s' = { s with manifest := upsertGcManifest s.files (s.now + lock) ids s.manifest }

/-- The first half of `reclaim_superseded`: the reclaimable segments are read. -/
def Sweep : Action Gc := fun s s' =>
  ∃ (σ : SegmentSort) (segments : List Segment), segments.Perm s.files ∧
    s' = { s with swept := (reclaimableSegments σ segments).map (·.id) ++ s.swept }

/-- The second half: `schedule_gc_manifest`. -/
def ScheduleManifest (ids : List Nat) : Action Gc := fun s s' =>
  ids ⊆ s.swept ∧
    s' = { s with manifest := scheduleGcManifest s.files (s.now + lock) ids s.manifest }

/-- Time passes, and locks expire. -/
def Tick : Action Gc := fun s s' => ∃ now, s.now ≤ now ∧ s' = { s with now := now }

/-- `Collector::collect` reads the expired rows. -/
def StreamExpired : Action Gc := fun s s' =>
  s' = { s with found := expiredFiles s.now s.manifest ++ s.found }

/-- `Collector::collect` deletes files it has read before. -/
def DeleteFiles (ids : List Nat) : Action Gc := fun s s' =>
  ids ⊆ s.found ∧ s' = { s with
      files := deleteFileIds ids s.files
      manifest := cascadeManifest ids s.manifest }

def Next : Action Gc := fun s s' =>
  (∃ f, WriterCommit admits f s s') ∨ BeginCompaction s s' ∨
    (∃ group output, commits group output ∧ CommitMetadata group output s s') ∨
    (∃ ids, UpsertManifest lock ids s s') ∨ Sweep s s' ∨
    (∃ ids, ScheduleManifest lock ids s s') ∨ Tick s s' ∨ StreamExpired s s' ∨
    ∃ ids, DeleteFiles ids s s'

/-! ## Simulation by `Table` -/

/-- The table behind the files: everything that is scheduled or about to be, or
that a collector has read, may be deleted there. -/
structure Sim (s : Gc) (t : Table) : Prop where
  files : t.live = s.files
  written : t.history.ranges = s.written
  nextId : t.nextId = s.nextId
  snapshot : t.snapshot = s.snapshot
  used : t.used = s.used
  parents : s.parents ⊆ t.deletable
  swept : s.swept ⊆ t.deletable
  manifest : ∀ row ∈ s.manifest, row.fileId ∈ t.deletable
  found : s.found ⊆ t.deletable

variable {ids : List Nat}

variable {files expiration manifest} in
theorem mem_upsertGcManifest {row : GcManifestRow}
    (h : row ∈ upsertGcManifest files expiration ids manifest) :
    row ∈ manifest ∨ row.fileId ∈ ids := by
  rcases mem_append.mp h with h | h
  · exact Or.inl (mem_filter.mp h).1
  · rcases mem_map.mp h with ⟨id, hid, rfl⟩
    exact Or.inr (mem_filter.mp hid).1

variable {files expiration manifest} in
theorem mem_scheduleGcManifest {row : GcManifestRow}
    (h : row ∈ scheduleGcManifest files expiration ids manifest) :
    row ∈ manifest ∨ row.fileId ∈ ids := by
  rcases mem_append.mp h with h | h
  · exact Or.inl h
  · rcases mem_map.mp h with ⟨id, hid, rfl⟩
    exact Or.inr (mem_filter.mp (mem_filter.mp hid).1).1

/-- A table deletes several files in as many steps. -/
theorem table_deletes {t : Table} (ht : Reachable Table.Init (Table.Next NewerThanInputs) t)
    (hids : ids ⊆ t.deletable) : Reachable Table.Init (Table.Next NewerThanInputs)
      { t with live := deleteFileIds ids t.live } := by
  induction ids with
  | nil => simpa [deleteFileIds] using ht
  | cons id ids ih =>
    have hrest := ih fun x hx => hids (mem_cons_of_mem _ hx)
    have hinv := Table.safety _ hrest
    have hcons : deleteFileIds (id :: ids) t.live =
        (deleteFileIds ids t.live).filter fun f => decide (f.id ≠ id) := by
      unfold deleteFileIds
      rw [filter_filter]
      refine filter_congr fun f _ => ?_
      simp
    rw [hcons]
    by_cases hex : ∃ f ∈ deleteFileIds ids t.live, f.id = id
    · rcases hex with ⟨f, hf, rfl⟩
      have herase : (deleteFileIds ids t.live).filter (fun g => decide (g.id ≠ f.id)) =
          (deleteFileIds ids t.live).erase f := by
        rw [List.Nodup.erase_eq_filter hinv.ids.nodup]
        refine filter_congr fun g hg => ?_
        by_cases hgf : g = f
        · subst hgf
          simp
        · have hne : g.id ≠ f.id := fun heq => hgf (hinv.ids.eq_of_id hg hf heq)
          simp [hgf, hne]
      rw [herase]
      refine hrest.step (Or.inr (Or.inr (Or.inr (Or.inr ⟨f, hf, ?_, rfl⟩))))
      exact hids (by simp)
    · have hsame : (deleteFileIds ids t.live).filter (fun f => decide (f.id ≠ id)) =
          deleteFileIds ids t.live := by
        refine filter_eq_self.mpr fun f hf => ?_
        have hne : f.id ≠ id := fun heq => hex ⟨f, hf, heq⟩
        simpa using hne
      rw [hsame]
      exact hrest

theorem init_sim (s : Gc) (h : Init s) : ∃ t, Table.Init t ∧ Sim s t := by
  rcases h with ⟨hfiles, hmanifest, hwritten, hsnapshot, hused, hparents, hswept, hfound⟩
  refine ⟨⟨[], History.empty, s.nextId, [], [], []⟩, ⟨rfl, rfl, rfl, rfl, rfl⟩, ?_⟩
  constructor <;> simp [*]

/-- Every step is matched by steps of a table, if writers commit ranges that fit and outputs are
newer than their inputs. -/
theorem step_sim (s s' : Gc) (t : Table) (hstep : Next lock Fits NewerThanInputs s s')
    (ht : Reachable Table.Init (Table.Next NewerThanInputs) t) (h : Sim s t) :
    ∃ t', Reachable Table.Init (Table.Next NewerThanInputs) t' ∧ Sim s' t' := by
  rcases hstep with ⟨f, hfits, hid, rfl⟩ | ⟨σ, segments, chain, hperm, hchain, rfl⟩ |
    ⟨group, output, hnewer, hout, rfl⟩ | ⟨ids, hids, rfl⟩ | ⟨σ, segments, hperm, rfl⟩ |
    ⟨ids, hids, rfl⟩ | ⟨now, -, rfl⟩ | rfl | ⟨ids, hids, rfl⟩
  · -- a writer commits
    rw [← h.written] at hfits
    rw [← h.nextId] at hid
    refine ⟨_, ht.step (Or.inl ⟨f, hfits, hid, rfl⟩), ?_⟩
    constructor <;> simp [h.files, h.written, h.nextId, h.snapshot, h.used]
    · exact h.parents
    · exact h.swept
    · exact h.manifest
    · exact h.found
  · rw [← h.files] at hperm
    refine ⟨_, ht.step (Or.inr (Or.inl ⟨σ, segments, chain, hperm, hchain, rfl⟩)), ?_⟩
    exact { h with snapshot := rfl, used := rfl }
  · -- a compaction output is committed; its inputs may be deleted from now on
    rw [← h.snapshot, ← h.used, ← h.nextId] at hout
    refine ⟨_, ht.step (Or.inr (Or.inr (Or.inl ⟨group, output, hnewer, hout, rfl⟩))), ?_⟩
    constructor <;> simp only [h.files, h.written, h.nextId, h.snapshot, h.used]
    · exact append_subset.mpr
        ⟨subset_append_left _ _, subset_append_of_subset_right _ h.parents⟩
    · exact subset_append_of_subset_right _ h.swept
    · exact fun row hrow => mem_append_right _ (h.manifest row hrow)
    · exact subset_append_of_subset_right _ h.found
  · refine ⟨t, ht, { h with manifest := ?_ }⟩
    intro row hrow
    rcases mem_upsertGcManifest hrow with hrow | hrow
    · exact h.manifest row hrow
    · exact h.parents (hids hrow)
  · rw [← h.files] at hperm
    refine ⟨_, ht.step (Or.inr (Or.inr (Or.inr (Or.inl ⟨σ, segments, hperm, rfl⟩)))), ?_⟩
    exact { h with
      parents := subset_append_of_subset_right _ h.parents
      swept := append_subset.mpr
        ⟨subset_append_left _ _, subset_append_of_subset_right _ h.swept⟩
      manifest := fun row hrow => mem_append_right _ (h.manifest row hrow)
      found := subset_append_of_subset_right _ h.found }
  · refine ⟨t, ht, { h with manifest := ?_ }⟩
    intro row hrow
    rcases mem_scheduleGcManifest hrow with hrow | hrow
    · exact h.manifest row hrow
    · exact h.swept (hids hrow)
  · exact ⟨t, ht, { h with }⟩
  · refine ⟨t, ht, { h with found := ?_ }⟩
    intro x hx
    rcases mem_append.mp hx with hx | hx
    · rcases mem_map.mp hx with ⟨row, hrow, rfl⟩
      exact h.manifest row (mem_filter.mp hrow).1
    · exact h.found hx
  · -- files are deleted; all of them may be
    refine ⟨_, table_deletes ht fun x hx => h.found (hids hx), ?_⟩
    refine { h with files := by rw [← h.files], manifest := ?_ }
    exact fun row hrow => h.manifest row (mem_filter.mp hrow).1

/-! ## Safety without forks -/

/-- In every run in which writers commit only ranges that fit the ones before (no
block is written twice, and hashes agree with the neighbouring ranges) and outputs are
newer than their inputs, whenever the collector deletes files, those of the canonical
chain stay: for every order in which the database returns the segments and for every sort. -/
theorem collector_spares_canonical (lock : Int) (s s' : Gc) (ids : List Nat)
    (hs : Reachable Init (Next lock Fits NewerThanInputs) s) (hdelete : DeleteFiles ids s s')
    (σ : SegmentSort) (segments : List Segment) (hperm : segments.Perm s.files) (c : Chain)
    (hc : canonicalChain σ segments = some c) :
    ∀ f ∈ c.segments, f ∈ s'.files := by
  intro f hf
  rcases hs.simulate Sim init_sim (step_sim lock) with ⟨t, ht, hsim⟩
  rcases hdelete with ⟨hids, rfl⟩
  rcases Option.map_eq_some_iff.mp hc with ⟨out, hout, rfl⟩
  have hinv := Table.safety t ht
  rw [← hsim.files] at hperm
  rcases (hinv.represents.perm hperm.symm).canonical_roots hout with ⟨-, hroots⟩
  have hlive : f ∈ t.live := hperm.mem_iff.mp (hroots f hf).1.1
  -- what may be deleted lies inside a live segment, but canonical segments are roots
  have hnot : f.id ∉ ids := by
    intro hid
    rcases hinv.shadowed f hlive (hsim.found (hids hid)) with ⟨d, hd, hin⟩
    exact (hroots f hf).1.2 d (hperm.mem_iff.mpr hd) hin
  rw [hsim.files] at hlive
  exact mem_filter.mpr ⟨hlive, by simpa using hnot⟩

def initial : Gc := ⟨[], [], 0, 0, [], [], [], [], [], []⟩

def chainA : Segment := ⟨0, ⟨⟨0, 2⟩, "mainnet", 0xA, none⟩, ⟨0⟩⟩

def chainB : Segment := ⟨1, ⟨⟨3, 5⟩, "mainnet", 0xB, some 0xA⟩, ⟨1⟩⟩

/-- The output of compacting `chainA` and `chainB`. -/
def chainAB : Segment := ⟨2, ⟨⟨0, 5⟩, "mainnet", 0xB, none⟩, ⟨2⟩⟩

/-- Two files are compacted, and the collector deletes them after their lock. -/
theorem collector_spares_compacted :
    ∃ s s' : Gc, Reachable Init (Next 10 Fits NewerThanInputs) s ∧ DeleteFiles [0, 1] s s' ∧
      s'.files = [chainAB] ∧
      ∃ c, canonicalChain (insertionSort Segment.lastModified) s.files = some c ∧
        ∀ f ∈ c.segments, f ∈ s'.files := by
  have h0 : Reachable Init (Next 10 Fits NewerThanInputs) initial :=
    .init ⟨rfl, rfl, rfl, rfl, rfl, rfl, rfl, rfl⟩
  have h1 := h0.step (Or.inl ⟨chainA, by decide, rfl, rfl⟩)
  have h2 := h1.step (Or.inl ⟨chainB, by decide, rfl, rfl⟩)
  have h3 := h2.step (Or.inr (Or.inl ⟨insertionSort _, _,
    ⟨[chainA, chainB], by decide, by decide⟩, List.Perm.refl _, by decide, rfl⟩))
  have h4 := h3.step (Or.inr (Or.inr (Or.inl ⟨[chainA, chainB], chainAB,
    by unfold NewerThanInputs; decide,
    ⟨infix_refl _, by decide, by decide, rfl, by decide, rfl⟩, rfl⟩)))
  have h5 := h4.step (Or.inr (Or.inr (Or.inr (Or.inl ⟨[0, 1], by decide, rfl⟩))))
  have h6 := h5.step (Or.inr (Or.inr (Or.inr (Or.inr (Or.inr (Or.inr (Or.inl
    ⟨11, by decide, rfl⟩)))))))
  have h7 := h6.step (Or.inr (Or.inr (Or.inr (Or.inr (Or.inr (Or.inr (Or.inr (Or.inl
    rfl))))))))
  refine ⟨_, _, h7, ⟨by decide, rfl⟩, by decide, ⟨[chainAB], by decide, by decide⟩, by decide, ?_⟩
  exact collector_spares_canonical 10 _ _ [0, 1] h7 ⟨by decide, rfl⟩ (insertionSort _) _
    (List.Perm.refl _) _ (by decide)

/-! ## A superseded file becomes canonical again -/

/-- The fork of blocks 3 to 5. -/
def forkB : Segment := ⟨2, ⟨⟨3, 5⟩, "mainnet", 0xBF, some 0xA⟩, ⟨2⟩⟩

/-- The chain goes on from `chainB`. -/
def chainC : Segment := ⟨3, ⟨⟨6, 8⟩, "mainnet", 0xC, some 0xB⟩, ⟨3⟩⟩

/-- A segment as it is loaded from the database, without a modification time. -/
def loaded (s : Segment) : Segment := { s with object := ⟨0⟩ }

/-- While the fork is canonical `chainB` is swept and scheduled. Then a writer
extends `chainB`, which is canonical again when its lock expires and the collector
deletes it. Without forks, an output and its last input tie; if the database returns the
input last, the inputs are still canonical when the collector deletes them. -/
theorem collector_deletes_canonical_file :
    (∃ s s' : Gc, Reachable Init (Next 10 (fun _ r => r.Valid) NewerThanInputs) s ∧
      DeleteFiles [1] s s' ∧
      ∃ c, canonicalChain (insertionSort Segment.lastModified) s.files = some c ∧
        chainB ∈ c.segments ∧ chainB ∉ s'.files) ∧
    ∃ s s' : Gc, Reachable Init (Next 10 Fits fun _ _ => True) s ∧ DeleteFiles [0, 1] s s' ∧
      ∃ segments c, segments.Perm s.files ∧
        canonicalChain (insertionSort Segment.lastModified) segments = some c ∧
        loaded chainB ∈ c.segments ∧ loaded chainB ∉ s'.files := by
  constructor
  · have h0 : Reachable Init (Next 10 (fun _ r => r.Valid) NewerThanInputs) initial :=
      .init ⟨rfl, rfl, rfl, rfl, rfl, rfl, rfl, rfl⟩
    have h1 := h0.step (Or.inl ⟨chainA, by decide, rfl, rfl⟩)
    have h2 := h1.step (Or.inl ⟨chainB, by decide, rfl, rfl⟩)
    have h3 := h2.step (Or.inl ⟨forkB, by decide, rfl, rfl⟩)
    have h4 := h3.step (Or.inr (Or.inr (Or.inr (Or.inr (Or.inl
      ⟨insertionSort _, _, List.Perm.refl _, rfl⟩)))))
    have h5 := h4.step (Or.inr (Or.inr (Or.inr (Or.inr (Or.inr (Or.inl
      ⟨[1], by decide, rfl⟩))))))
    have h6 := h5.step (Or.inl ⟨chainC, by decide, rfl, rfl⟩)
    have h7 := h6.step (Or.inr (Or.inr (Or.inr (Or.inr (Or.inr (Or.inr (Or.inl
      ⟨11, by decide, rfl⟩)))))))
    have h8 := h7.step (Or.inr (Or.inr (Or.inr (Or.inr (Or.inr (Or.inr (Or.inr (Or.inl
      rfl))))))))
    exact ⟨_, _, h8, ⟨by decide, rfl⟩, ⟨[chainA, chainB, chainC], by decide, by decide⟩,
      by decide, by decide, by decide⟩
  · have h0 : Reachable Init (Next 10 Fits fun _ _ => True) initial :=
      .init ⟨rfl, rfl, rfl, rfl, rfl, rfl, rfl, rfl⟩
    have h1 := h0.step (Or.inl ⟨loaded chainA, by decide, rfl, rfl⟩)
    have h2 := h1.step (Or.inl ⟨loaded chainB, by decide, rfl, rfl⟩)
    have h3 := h2.step (Or.inr (Or.inl ⟨insertionSort _, _,
      ⟨[loaded chainA, loaded chainB], by decide, by decide⟩, List.Perm.refl _, by decide, rfl⟩))
    have h4 := h3.step (Or.inr (Or.inr (Or.inl ⟨[loaded chainA, loaded chainB], loaded chainAB,
      trivial, ⟨infix_refl _, by decide, by decide, rfl, by decide, rfl⟩, rfl⟩)))
    have h5 := h4.step (Or.inr (Or.inr (Or.inr (Or.inl ⟨[0, 1], by decide, rfl⟩))))
    have h6 := h5.step (Or.inr (Or.inr (Or.inr (Or.inr (Or.inr (Or.inr (Or.inl
      ⟨11, by decide, rfl⟩)))))))
    have h7 := h6.step (Or.inr (Or.inr (Or.inr (Or.inr (Or.inr (Or.inr (Or.inr (Or.inl
      rfl))))))))
    exact ⟨_, _, h7, ⟨by decide, rfl⟩, [loaded chainAB, loaded chainA, loaded chainB],
      ⟨[loaded chainA, loaded chainB], by decide, by decide⟩, by decide, by decide, by decide,
      by decide⟩

end Gc

end CampNode

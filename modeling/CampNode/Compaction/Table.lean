import CampNode.Compaction.Plan
import CampNode.Core.Transition

/-!
# CampNode.Compaction.Table — a table under writes, compaction and collection

The segments of a table change by four kinds of steps that interleave freely:

* `Append` — a writer commits a segment whose range fits the appended ones;
* `BeginCompaction`, `CommitCompaction` — the compactor takes the canonical chain
  of the table as its snapshot and later commits outputs built from runs of it;
* `Reclaim` — a sweep returns `reclaimable_segments`;
* `Delete` — an input of a committed compaction, or a segment that some sweep has
  returned, is deleted.

The database gives the segments in any order, so a snapshot is any permutation of
the live ones, and every step may use its own unstable sort.

The invariant `Table.Inv` says that the live segments represent the appended
ranges, that a segment which may be deleted lies inside a live one, and that the
segments of the compactor's snapshot it has not used are roots.
`canonical_is_first_run` is what it is for. It holds where outputs are newer than their
inputs. The steps themselves do not ask for that: segments that are loaded from the
database have no modification time (`plan_commit` is about all runs).
-/

namespace CampNode

open List Segment

/-- What a compactor with this snapshot may commit: the output of a group, which is
a run of two or more consecutive segments of the snapshot, none of them in an
earlier group. -/
structure CompactionOutput (snapshot used : List Segment) (nextId : Nat)
    (group : List Segment) (output : Segment) : Prop where
  run : group <:+: snapshot
  two : 2 ≤ group.length
  unused : ∀ s ∈ group, s ∉ used
  id : output.id = nextId
  range : ∃ hne : group ≠ [],
    output.range = mergeRange (group.head hne).range (group.getLast hne).range

/-- The output is newer than its inputs, in particular if it is newer than every existing
segment. -/
def NewerThanInputs (group : List Segment) (output : Segment) : Prop :=
  ∀ s ∈ group, s.lastModified < output.lastModified

structure Table where
  live : List Segment
  /-- All ranges appended so far. -/
  history : History
  /-- File ids come from a sequence of the database. -/
  nextId : Nat
  /-- The canonical chain from which the current run of the compactor started. -/
  snapshot : List Segment
  /-- The segments of the snapshot that are inputs of committed groups. -/
  used : List Segment
  /-- Ids of compaction inputs and of segments returned by a sweep. -/
  deletable : List Nat

namespace Table

/-! ## Steps -/

def Init : StatePred Table := fun t =>
  t.live = [] ∧ t.history = History.empty ∧ t.snapshot = [] ∧ t.used = [] ∧ t.deletable = []

/-- A writer commits segment `s`. -/
def Append (s : Segment) : Action Table := fun t t' =>
  ∃ hfits : Fits t.history.ranges s.range, s.id = t.nextId ∧ t' = { t with
      live := s :: t.live
      history := t.history.append s.range hfits
      nextId := t.nextId + 1 }

/-- The compactor takes a snapshot; an earlier run is over. -/
def BeginCompaction : Action Table := fun t t' =>
  ∃ (σ : SegmentSort) (segments : List Segment) (chain : Chain), segments.Perm t.live ∧
    canonicalChain σ segments = some chain ∧
    t' = { t with snapshot := chain.segments, used := [] }

/-- The compactor commits the output of a group. -/
def CommitCompaction (group : List Segment) (output : Segment) : Action Table := fun t t' =>
  CompactionOutput t.snapshot t.used t.nextId group output ∧ t' = { t with
      live := output :: t.live
      nextId := t.nextId + 1
      used := group ++ t.used
      deletable := group.map (·.id) ++ t.deletable }

/-- A sweep returns the reclaimable segments. -/
def Reclaim : Action Table := fun t t' =>
  ∃ (σ : SegmentSort) (segments : List Segment), segments.Perm t.live ∧
    t' = { t with deletable := (reclaimableSegments σ segments).map (·.id) ++ t.deletable }

/-- Segment `s` is deleted. -/
def Delete (s : Segment) : Action Table := fun t t' =>
  s ∈ t.live ∧ s.id ∈ t.deletable ∧ t' = { t with live := t.live.erase s }

/-- All steps; `commits` says which outputs are committed. -/
def Next (commits : List Segment → Segment → Prop) : Action Table := fun t t' =>
  (∃ s, Append s t t') ∨ BeginCompaction t t' ∨
    (∃ group output, commits group output ∧ CommitCompaction group output t t') ∨ Reclaim t t' ∨
    ∃ s, Delete s t t'

/-! ## The invariant -/

structure Inv (t : Table) : Prop where
  represents : Represents t.history t.live
  ids : DistinctIds t.live
  fresh : ∀ s ∈ t.live, s.id < t.nextId
  freshDeletable : ∀ id ∈ t.deletable, id < t.nextId
  shadowed : ∀ s ∈ t.live, s.id ∈ t.deletable → ∃ c ∈ t.live, Inside Segment.start Segment.level s c
  linked : t.snapshot.IsChain Segment.Adj
  pending : ∀ s ∈ t.snapshot, s ∉ t.used → LiveRoot t.live s

variable {t t' : Table}

theorem init_inv (h : Init t) : Inv t := by
  rcases h with ⟨hlive, hhistory, hsnapshot, -, hdeletable⟩
  constructor
  · rw [hlive, hhistory]
    refine ⟨⟨by simp, by simp, by simp⟩, by simp, ?_⟩
    rintro b ⟨r, hr, -⟩
    simp at hr
  · rw [hlive]
    exact nodup_nil
  · simp [hlive]
  · simp [hdeletable]
  · simp [hlive]
  · simp [hsnapshot]
  · simp [hsnapshot]

variable {s output : Segment} {group : List Segment}

/-- A new segment has a new id. -/
theorem Inv.distinctIds_cons (h : Inv t) (hid : s.id = t.nextId) : DistinctIds (s :: t.live) := by
  refine nodup_cons.mpr ⟨fun hmem => ?_, h.ids⟩
  rcases mem_map.mp hmem with ⟨u, hu, hus⟩
  have := h.fresh u hu
  have hid' : u.id = t.nextId := hus.trans hid
  omega

theorem Inv.fresh_cons (h : Inv t) (hid : s.id = t.nextId) :
    ∀ u ∈ s :: t.live, u.id < t.nextId + 1 := by
  intro u hu
  rcases mem_cons.mp hu with rfl | hu
  · omega
  · have := h.fresh u hu
    omega

/-- A range that fits is apart from every live segment. -/
theorem Inv.apart_of_fits (h : Inv t) {s u : Segment} (hfits : Fits t.history.ranges s.range)
    (hu : u ∈ t.live) : Apart start level u s := by
  by_contra hnot
  have hvs : s.range.start ≤ s.range.stop := hfits.valid
  have hvu : u.range.start ≤ u.range.stop := h.represents.allValid u hu
  -- a common block was appended before
  have hcommon : ∃ b, u.range.Contains b ∧ s.range.Contains b := by
    refine ⟨max u.range.start s.range.start, ?_, ?_⟩ <;>
      unfold Apart start level at hnot <;> unfold BlockRange.Contains <;> omega
  rcases hcommon with ⟨b, hub, hsb⟩
  rcases h.represents.has_of_contains hu hub with ⟨r, hr, hrb⟩
  have hapart := hfits.apart r hr
  unfold Apart at hapart
  unfold BlockRange.Contains at hrb hsb
  omega

theorem append_inv (hstep : Append s t t') (h : Inv t) : Inv t' := by
  rcases hstep with ⟨hfits, hid, rfl⟩
  have hapart : ∀ u ∈ t.live, Apart start level u s := fun u hu => h.apart_of_fits hfits hu
  constructor
  · refine ⟨h.represents.laminar.cons_apart hfits.valid hapart, ?_, ?_⟩
    · intro u hu
      rcases mem_cons.mp hu with rfl | hu
      · exact RunOf.of_mem (by simp)
      · exact (h.represents.run u hu).mono (subset_cons_self _ _)
    · rintro b ⟨r, hr, hrb⟩
      rcases mem_cons.mp hr with rfl | hr
      · exact ⟨s, by simp, hrb⟩
      · rcases h.represents.covered b ⟨r, hr, hrb⟩ with ⟨u, hu, hub⟩
        exact ⟨u, mem_cons_of_mem _ hu, hub⟩
  · exact h.distinctIds_cons hid
  · exact h.fresh_cons hid
  · intro id hmem
    exact Nat.lt_succ_of_lt (h.freshDeletable id hmem)
  · intro u hu hmem
    rcases mem_cons.mp hu with rfl | hu
    · have := h.freshDeletable _ hmem
      omega
    · rcases h.shadowed u hu hmem with ⟨c, hc, hin⟩
      exact ⟨c, mem_cons_of_mem _ hc, hin⟩
  · exact h.linked
  · intro u hu hnot
    have hroot := h.pending u hu hnot
    exact Laminar.root_cons_apart hroot (h.represents.allValid u hroot.1) (hapart u hroot.1)

theorem beginCompaction_inv (hstep : BeginCompaction t t') (h : Inv t) : Inv t' := by
  rcases hstep with ⟨σ, segments, chain, hperm, hchain, rfl⟩
  rcases Option.map_eq_some_iff.mp hchain with ⟨out, hout, rfl⟩
  refine { h with linked := out.canonical.linked, pending := ?_ }
  -- the canonical chain consists of roots
  intro s hs _
  rcases (h.represents.perm hperm.symm).canonical_roots hout with ⟨-, hroots⟩
  have hroot := (hroots s hs).1
  exact ⟨hperm.mem_iff.mp hroot.1, fun c hc => hroot.2 c (hperm.mem_iff.mpr hc)⟩

/-- A segment of a linked group of two or more is its first and ends before the
last one starts, or it starts after the first one ends. -/
theorem first_or_after (hgroup : group.IsChain Segment.Adj) (hne : group ≠ [])
    (hlen : 2 ≤ group.length) (hvalid : AllValid group) (hs : s ∈ group) :
    s = group.head hne ∧ (group.head hne).range.stop < (group.getLast hne).range.start ∨
      (group.head hne).range.stop < s.range.start := by
  have hpair := pairwise_lt_of_linked hgroup hvalid
  cases group with
  | nil => exact absurd rfl hne
  | cons a group =>
    rcases mem_cons.mp hs with rfl | hs
    · left
      refine ⟨rfl, (pairwise_cons.mp hpair).1 _ ?_⟩
      have hne' : group ≠ [] := by
        rintro rfl
        simp at hlen
      rw [getLast_cons hne']
      exact getLast_mem hne'
    · exact Or.inr ((pairwise_cons.mp hpair).1 s hs)

/-- The members of a group lie inside its output, and cover it. -/
theorem group_inside (hgroup : group.IsChain Segment.Adj) (hne : group ≠ [])
    (hlen : 2 ≤ group.length) (hvalid : AllValid group)
    (hrange : output.range = mergeRange (group.head hne).range (group.getLast hne).range) :
    (∀ s ∈ group, Inside start level s output) ∧
      ∀ b, HoldsPoint start level output b → ∃ s ∈ group, HoldsPoint start level s b := by
  have hstart : output.start = (group.head hne).range.start := by
    unfold start
    rw [hrange]
    rfl
  have hstop : output.level = (group.getLast hne).range.stop := by
    unfold level
    rw [hrange]
    rfl
  let c : Chain := ⟨group, hne, hgroup⟩
  constructor
  · intro s hs
    have h1 : (group.head hne).range.start ≤ s.range.start := Chain.start_le (c := c) hvalid hs
    have h2 : s.range.stop ≤ (group.getLast hne).range.stop := Chain.le_stop (c := c) hvalid hs
    -- the group has another segment next to `s`, on one side or the other
    have hsides : s = group.head hne ∧ (group.head hne).range.stop <
        (group.getLast hne).range.start ∨ (group.head hne).range.stop < s.range.start :=
      first_or_after hgroup hne hlen hvalid hs
    have hv1 : (group.head hne).range.start ≤ (group.head hne).range.stop := hvalid _ (head_mem hne)
    have hv2 : (group.getLast hne).range.start ≤ (group.getLast hne).range.stop :=
      hvalid _ (getLast_mem hne)
    unfold Inside
    rw [hstart, hstop]
    unfold start level
    refine ⟨h1, h2, ?_⟩
    rcases hsides with ⟨rfl, hlt⟩ | hlt
    · right
      omega
    · left
      omega
  · intro b hb
    rcases linked_covers range hgroup hne b (hstart ▸ hb.1) (hstop ▸ hb.2) with
      ⟨s, hs, hsb⟩
    exact ⟨s, hs, hsb⟩

theorem commitCompaction_inv (hnewer : NewerThanInputs group output)
    (hstep : CommitCompaction group output t t') (h : Inv t) : Inv t' := by
  rcases hstep with ⟨⟨hgroupIn, hlen, hunused, hid, hne, hrange⟩, rfl⟩
  have hroot : ∀ s ∈ group, LiveRoot t.live s := fun s hs =>
    h.pending s (hgroupIn.subset hs) (hunused s hs)
  have hlinked : group.IsChain Segment.Adj := List.IsChain.infix h.linked hgroupIn
  have hvalid : AllValid group := fun s hs => h.represents.allValid s (hroot s hs).1
  rcases group_inside hlinked hne hlen hvalid hrange with ⟨hinside, hcover⟩
  have hrun : ∀ s ∈ group, LiveRoot t.live s ∧ Inside start level s output :=
    fun s hs => ⟨hroot s hs, hinside s hs⟩
  have hout : output.start ≤ output.level := by
    have hin := hinside _ (head_mem hne)
    have hv : (group.head hne).range.start ≤ (group.head hne).range.stop := hvalid _ (head_mem hne)
    unfold Inside start level at *
    omega
  have hnewer' : ∀ u ∈ t.live, Inside start level u output →
      u.lastModified < output.lastModified := by
    intro u hu hin
    -- `u` is an input or lies inside one
    have hub : HoldsPoint start level u u.start := ⟨Nat.le_refl _, h.represents.laminar.valid u hu⟩
    rcases hcover _ (hin.holdsPoint hub) with ⟨s, hs, hsb⟩
    rcases h.represents.laminar.eq_or_inside_of_root (hroot s hs) hu hsb hub with rfl | hus
    · exact hnewer u hs
    · exact (h.represents.laminar.newer u hu s (hroot s hs).1 hus).trans (hnewer s hs)
  constructor
  · refine ⟨h.represents.laminar.cons_run hout hrun hcover hnewer', ?_, ?_⟩
    · intro u hu
      rcases mem_cons.mp hu with rfl | hu
      · rw [hrange]
        exact RunOf.merge_group hlinked hne fun s hs => h.represents.run s (hroot s hs).1
      · exact h.represents.run u hu
    · intro b hb
      rcases h.represents.covered b hb with ⟨u, hu, hub⟩
      exact ⟨u, mem_cons_of_mem _ hu, hub⟩
  · exact h.distinctIds_cons hid
  · exact h.fresh_cons hid
  · intro id hmem
    rcases mem_append.mp hmem with hmem | hmem
    · rcases mem_map.mp hmem with ⟨s, hs, rfl⟩
      exact Nat.lt_succ_of_lt (h.fresh s (hroot s hs).1)
    · exact Nat.lt_succ_of_lt (h.freshDeletable id hmem)
  · -- the inputs lie inside the output
    intro u hu hmem
    rcases mem_cons.mp hu with rfl | hu
    · rcases mem_append.mp hmem with hmem | hmem
      · rcases mem_map.mp hmem with ⟨s, hs, hsid⟩
        have hlt := h.fresh s (hroot s hs).1
        omega
      · have := h.freshDeletable _ hmem
        omega
    · rcases mem_append.mp hmem with hmem | hmem
      · rcases mem_map.mp hmem with ⟨s, hs, hsid⟩
        have heq : s = u := h.ids.eq_of_id (hroot s hs).1 hu hsid
        subst heq
        exact ⟨output, by simp, hinside s hs⟩
      · rcases h.shadowed u hu hmem with ⟨c, hc, hin⟩
        exact ⟨c, mem_cons_of_mem _ hc, hin⟩
  · exact h.linked
  · intro u hu hnot
    rw [mem_append, not_or] at hnot
    exact h.represents.laminar.root_cons_run hrun hcover (h.pending u hu hnot.2) hnot.1

theorem reclaim_inv (hstep : Reclaim t t') (h : Inv t) : Inv t' := by
  rcases hstep with ⟨σ, segments, hperm, rfl⟩
  have hids : DistinctIds segments := (hperm.map _).nodup_iff.mpr h.ids
  have hrep := h.represents.perm hperm.symm
  have hinside := fun s hs => @Represents.reclaimable_inside _ _ hrep hids σ s hs
  refine { h with freshDeletable := ?_, shadowed := ?_ }
  · intro id hmem
    rcases mem_append.mp hmem with hmem | hmem
    · rcases mem_map.mp hmem with ⟨s, hs, rfl⟩
      exact h.fresh s (hperm.mem_iff.mp (hinside s hs).1)
    · exact h.freshDeletable id hmem
  · intro u hu hmem
    rcases mem_append.mp hmem with hmem | hmem
    · rcases mem_map.mp hmem with ⟨s, hs, hsid⟩
      rcases hinside s hs with ⟨hlive, c, hc, hin⟩
      have heq : s = u := h.ids.eq_of_id (hperm.mem_iff.mp hlive) hu hsid
      subst heq
      exact ⟨c, hperm.mem_iff.mp hc, hin⟩
    · exact h.shadowed u hu hmem

theorem delete_inv (hstep : Delete s t t') (h : Inv t) : Inv t' := by
  rcases hstep with ⟨hs, hid, rfl⟩
  have hsub : t.live.erase s ⊆ t.live := erase_subset
  have hkeep : ∀ u ∈ t.live, u ≠ s → u ∈ t.live.erase s := fun u hu hne =>
    (mem_erase_of_ne hne).mpr hu
  rcases h.shadowed s hs hid with ⟨c, hc, hin⟩
  have hc' : c ∈ t.live.erase s := hkeep c hc hin.ne.symm
  constructor
  · refine ⟨h.represents.laminar.subset hsub, fun u hu => h.represents.run u (hsub hu), ?_⟩
    -- the blocks of `s` stay covered by the segment around it
    intro b hb
    rcases h.represents.covered b hb with ⟨u, hu, hub⟩
    by_cases hus : u = s
    · subst hus
      exact ⟨c, hc', hin.holdsPoint hub⟩
    · exact ⟨u, hkeep u hu hus, hub⟩
  · exact h.ids.sublist (erase_sublist.map _)
  · exact fun u hu => h.fresh u (hsub hu)
  · exact h.freshDeletable
  · intro u hu hmem
    rcases h.shadowed u (hsub hu) hmem with ⟨d, hd, hud⟩
    by_cases hds : d = s
    · subst hds
      exact ⟨c, hc', hud.trans hin⟩
    · exact ⟨d, hkeep d hd hds, hud⟩
  · exact h.linked
  · intro u hu hnot
    have hroot := h.pending u hu hnot
    have hne : u ≠ s := by
      rintro rfl
      exact hroot.2 c hc hin
    exact ⟨hkeep u hroot.1 hne, fun d hd => hroot.2 d (hsub hd)⟩

theorem step_inv (hstep : Next NewerThanInputs t t') (h : Inv t) : Inv t' := by
  rcases hstep with ⟨s, hs⟩ | hs | ⟨group, output, hnewer, hs⟩ | hs | ⟨s, hs⟩
  · exact append_inv hs h
  · exact beginCompaction_inv hs h
  · exact commitCompaction_inv hnewer hs h
  · exact reclaim_inv hs h
  · exact delete_inv hs h

/-- The invariant holds in every reachable state. -/
theorem safety : ∀ t, Reachable Init (Next NewerThanInputs) t → Inv t :=
  init_invariant Init _ Inv (fun _ => init_inv) (fun _ _ => step_inv)

/-! ## Plans -/

/-- What holds of a snapshot also if outputs are as old as their inputs. -/
structure Linked (t : Table) : Prop where
  live : AllValid t.live
  snapshot : AllValid t.snapshot
  linked : t.snapshot.IsChain Segment.Adj
  nodup : t.snapshot.Nodup

theorem step_linked {commits : List Segment → Segment → Prop} (hstep : Next commits t t')
    (h : Linked t) : Linked t' := by
  rcases hstep with ⟨s, hfits, -, rfl⟩ | ⟨σ, segments, chain, hperm, hchain, rfl⟩ |
    ⟨group, output, -, ⟨hgroupIn, hlen, -, -, hne, hrange⟩, rfl⟩ | ⟨σ, segments, -, rfl⟩ |
    ⟨s, -, -, rfl⟩
  · exact { h with live := forall_mem_cons.mpr ⟨hfits.valid, h.live⟩ }
  · rcases Option.map_eq_some_iff.mp hchain with ⟨out, hout, rfl⟩
    have hvalid : AllValid out.canonical.segments := fun s hs =>
      h.live s (hperm.mem_iff.mp (chains_mem hout hs))
    exact ⟨h.live, hvalid, out.canonical.linked, out.canonical.nodup hvalid⟩
  · have hvalid : AllValid group := fun s hs => h.snapshot s (hgroupIn.subset hs)
    have hgroup : group.IsChain Segment.Adj := List.IsChain.infix h.linked hgroupIn
    have hin := (group_inside hgroup hne hlen hvalid hrange).1 _ (head_mem hne)
    have hv : (group.head hne).range.start ≤ (group.head hne).range.stop := hvalid _ (head_mem hne)
    refine { h with live := forall_mem_cons.mpr ⟨?_, h.live⟩ }
    unfold Inside start level at hin
    exact hin.1.trans (hv.trans hin.2.1)
  · exact { h with }
  · exact { h with live := fun u hu => h.live u (erase_subset hu) }

theorem linked_of_reachable {commits : List Segment → Segment → Prop} :
    ∀ t, Reachable Init (Next commits) t → Linked t := by
  refine init_invariant Init _ Linked ?_ fun _ _ => step_linked
  rintro t ⟨hlive, -, hsnapshot, -, -⟩
  constructor
  · simp [hlive, AllValid]
  · simp [hsnapshot, AllValid]
  · simp [hsnapshot]
  · simp [hsnapshot]

/-- In every run, the groups of the plan for the snapshot can be committed in any order. -/
theorem plan_commit (ht : Reachable Init (Next fun _ _ => True) t)
    (predicate : List Segment → Segment → Bool) (opens : Segment → Bool)
    {plan done : List (List Segment)} (hplan : plan = compactionPlan predicate []
      (t.snapshot.map fun s => if opens s then some s else none)) (hgroup : group ∈ plan)
    (hdone : ∀ d ∈ done, d ∈ plan ∧ d ≠ group) (hused : t.used = done.flatten) (hne : group ≠ [])
    (hid : output.id = t.nextId)
    (hrange : output.range = mergeRange (group.head hne).range (group.getLast hne).range) :
    ∃ t', CommitCompaction group output t t' ∧ Reachable Init (Next fun _ _ => True) t' := by
  suffices houtput : CompactionOutput t.snapshot t.used t.nextId group output from
    ⟨_, ⟨houtput, rfl⟩, ht.step (.inr (.inr (.inl ⟨group, output, trivial, houtput, rfl⟩)))⟩
  subst hplan
  have hopened := openedFiles_initial opens t.snapshot
  rcases compactionPlan_runs [] _ group hgroup with ⟨hgroupIn, hlen⟩
  have hdisjoint := @compactionPlan_disjoint predicate [] _
    ((linked_of_reachable t ht).nodup.sublist hopened.sublist)
  refine ⟨hgroupIn.trans hopened.isInfix, hlen, ?_, hid, hne, hrange⟩
  intro s hs hmem
  rw [hused, mem_flatten] at hmem
  rcases hmem with ⟨d, hd, hsd⟩
  have : Std.Symm (List.Disjoint (α := Segment)) := ⟨fun _ _ hab => hab.symm⟩
  exact hdisjoint.forall (hdone d hd).1 hgroup (hdone d hd).2 hsd hs

/-! ## The canonical chain -/

/-- In every reachable state, and for every order of the segments and every sort,
the canonical chain covers exactly the maximal contiguous run of appended blocks
from the smallest one, and ends with the hash of that run's last block. -/
theorem canonical_is_first_run (t : Table) (ht : Reachable Init (Next NewerThanInputs) t)
    (σ : SegmentSort) (segments : List Segment) (hperm : segments.Perm t.live) :
    (t.history.ranges = [] → canonicalChain σ segments = none) ∧
      (t.history.ranges ≠ [] → ∃ c, canonicalChain σ segments = some c ∧
        (∀ b, c.Covers b ↔ t.history.FirstRun b) ∧
        ∃ r ∈ t.history.ranges, r.stop = c.stop ∧ r.hash = c.last.hash) := by
  have hrep := (safety t ht).represents.perm hperm.symm
  constructor
  · intro hnil
    rw [hrep.live_eq_nil_iff.mpr hnil]
    rfl
  intro hne
  have hsegs : segments ≠ [] := fun hnil => hne (hrep.live_eq_nil_iff.mp hnil)
  rcases chains_isSome σ hsegs hrep.allValid with ⟨out, hout⟩
  refine ⟨out.canonical, by simp [canonicalChain, hout], ?_, ?_⟩
  · exact hrep.canonical_covers hout
  · exact hrep.canonical_hash hout

/-! ## A run -/

def initial : Table := ⟨[], History.empty, 0, [], [], []⟩

def blocks02 : Segment := ⟨0, ⟨⟨0, 2⟩, "mainnet", 2, none⟩, ⟨5⟩⟩

def blocks35 : Segment := ⟨1, ⟨⟨3, 5⟩, "mainnet", 5, some 2⟩, ⟨1⟩⟩

def blocks78 : Segment := ⟨2, ⟨⟨7, 8⟩, "mainnet", 8, some 6⟩, ⟨3⟩⟩

/-- The output of compacting the first two. -/
def blocks05 : Segment := ⟨3, ⟨⟨0, 5⟩, "mainnet", 5, none⟩, ⟨9⟩⟩

/-- Three segments are appended, the first two compacted and the first deleted. -/
theorem exists_compacted : ∃ t, Reachable Init (Next NewerThanInputs) t ∧
    t.live = [blocks05, blocks78, blocks35] ∧
    t.history.ranges = [blocks78.range, blocks35.range, blocks02.range] := by
  have h0 : Reachable Init (Next NewerThanInputs) initial := .init ⟨rfl, rfl, rfl, rfl, rfl⟩
  have h1 := h0.step (Or.inl ⟨blocks02, by decide, rfl, rfl⟩)
  have h2 := h1.step (Or.inl ⟨blocks35, by decide, rfl, rfl⟩)
  have h3 := h2.step (Or.inl ⟨blocks78, by decide, rfl, rfl⟩)
  have h4 := h3.step (Or.inr (Or.inl ⟨insertionSort _, _,
    ⟨[blocks02, blocks35], by decide, by decide⟩, List.Perm.refl _, by decide, rfl⟩))
  have h5 := h4.step (Or.inr (Or.inr (Or.inl ⟨[blocks02, blocks35], blocks05,
    by unfold NewerThanInputs; decide,
    ⟨infix_refl _, by decide, by decide, rfl, by decide, rfl⟩, rfl⟩)))
  have h6 := h5.step (Or.inr (Or.inr (Or.inr (Or.inr
    ⟨blocks02, by decide, by decide, rfl⟩))))
  exact ⟨_, h6, by decide, rfl⟩

def blocks67 : Segment := ⟨2, ⟨⟨6, 7⟩, "mainnet", 7, some 5⟩, ⟨0⟩⟩

def blocks89 : Segment := ⟨3, ⟨⟨8, 9⟩, "mainnet", 9, some 7⟩, ⟨0⟩⟩

def block10 : Segment := ⟨4, ⟨⟨10, 10⟩, "mainnet", 10, some 9⟩, ⟨0⟩⟩

def block11 : Segment := ⟨5, ⟨⟨11, 11⟩, "mainnet", 11, some 10⟩, ⟨0⟩⟩

/-- The last of six files cannot be opened, and the plan has two groups. The first one was
committed with an output that is not newer than its inputs; the second one can be committed too. -/
theorem plan_commit_second : ∃ t t', t.used = [blocks02, blocks35] ∧
    CommitCompaction [blocks67, blocks89] ⟨7, ⟨⟨6, 9⟩, "mainnet", 9, some 5⟩, ⟨0⟩⟩ t t' := by
  have h : Reachable Init (Next fun _ _ => True) initial := .init ⟨rfl, rfl, rfl, rfl, rfl⟩
  have h := h.step (.inl ⟨blocks02, by decide, rfl, rfl⟩)
  have h := h.step (.inl ⟨blocks35, by decide, rfl, rfl⟩)
  have h := h.step (.inl ⟨blocks67, by decide, rfl, rfl⟩)
  have h := h.step (.inl ⟨blocks89, by decide, rfl, rfl⟩)
  have h := h.step (.inl ⟨block10, by decide, rfl, rfl⟩)
  have h := h.step (.inl ⟨block11, by decide, rfl, rfl⟩)
  have h := h.step (.inr (.inl ⟨insertionSort _, _,
    ⟨[blocks02, blocks35, blocks67, blocks89, block10, block11], by decide, by decide⟩, .refl _,
    by decide, rfl⟩))
  have h := h.step (.inr (.inr (.inl ⟨[blocks02, blocks35],
    ⟨6, ⟨⟨0, 5⟩, "mainnet", 5, none⟩, ⟨0⟩⟩, trivial,
    ⟨⟨[], [blocks67, blocks89, block10, block11], rfl⟩, by decide, by decide, rfl, by decide, rfl⟩,
    rfl⟩)))
  rcases @plan_commit _ ⟨7, ⟨⟨6, 9⟩, "mainnet", 9, some 5⟩, ⟨0⟩⟩ [blocks67, blocks89] h
    (fun group _ => decide (group.length < 2)) (fun s => s.id != 5) _ [[blocks02, blocks35]] rfl
    (by decide) (by decide) rfl (by decide) rfl rfl with ⟨t', hcommit, -⟩
  exact ⟨_, t', rfl, hcommit⟩

theorem canonical_is_first_run_compacted :
    ∃ t, Reachable Init (Next NewerThanInputs) t ∧
      ∃ c, canonicalChain (exchangeSort lastModified) t.live = some c ∧
      (∀ b, c.Covers b ↔ t.history.FirstRun b) ∧
      ∃ r ∈ t.history.ranges, r.stop = c.stop ∧ r.hash = c.last.hash := by
  rcases exists_compacted with ⟨t, ht, -, hranges⟩
  refine ⟨t, ht, (canonical_is_first_run t ht _ t.live (List.Perm.refl _)).2 ?_⟩
  rw [hranges]
  simp

end Table

end CampNode

import CampNode.Segments.Chains

/-!
# CampNode.Segments.Reclaim — reclaimable segments

`reclaimable_segments` returns the segments inside the range of the canonical
chain that belong neither to it nor to the fork (`mem_reclaimableSegments`).
-/

namespace CampNode

open List Segment Chain

/-- File ids are distinct. -/
def DistinctIds (segments : List Segment) : Prop := (segments.map (·.id)).Nodup

variable {σ : SegmentSort} {segments : List Segment} {out : Chains}

theorem DistinctIds.nodup (h : DistinctIds segments) : segments.Nodup := List.Nodup.of_map _ h

theorem DistinctIds.eq_of_id (h : DistinctIds segments) {s t : Segment} (hs : s ∈ segments)
    (ht : t ∈ segments) (hid : s.id = t.id) : s = t :=
  inj_on_of_nodup_map h hs ht hid

/-! ## Picked and reclaimed -/

/-- Picked chains consist of segments of the list. -/
theorem mem_of_picked {minStart : Nat} {picked : List Chain}
    (hrounds : Rounds Segment.Adj level lastModified
      (fun s => s.range.start = minStart) segments (picked.map path))
    {c : Chain} (hc : c ∈ picked) {s : Segment} (hs : s ∈ c.segments) : s ∈ segments := by
  rcases hrounds.subperm with ⟨rest, hperm⟩
  refine hperm.mem_iff.mpr (mem_append_left _ ?_)
  refine mem_flatMap.mpr ⟨c.path, mem_map.mpr ⟨c, hc, rfl⟩, ?_⟩
  exact c.mem_top_cons_below.mpr hs

variable {s : Segment}

theorem fork_mem (h : chains σ segments = some out) {f : Chain} (hf : out.fork = some f)
    (hs : s ∈ f.segments) : s ∈ segments := by
  rcases chains_spec h with ⟨_, others, -, hrounds, hfork⟩
  rw [hfork] at hf
  exact mem_of_picked hrounds (mem_append_left _ (mem_of_find?_eq_some hf)) hs

theorem mem_reclaimableSegments (h : chains σ segments = some out) (hids : DistinctIds segments) :
    s ∈ reclaimableSegments σ segments ↔ s ∈ segments ∧ s ∉ out.canonical.segments ∧
        (∀ f, out.fork = some f → s ∉ f.segments) ∧ s.range.stop ≤ out.canonical.stop := by
  have hmem : ∀ c : Chain, (∀ t ∈ c.segments, t ∈ segments) → s ∈ segments →
      (s.id ∈ c.ids ↔ s ∈ c.segments) := by
    intro c hc hs
    constructor
    · intro hid
      rcases mem_map.mp hid with ⟨t, ht, hts⟩
      rw [← hids.eq_of_id (hc t ht) hs hts]
      exact ht
    · intro hsc
      exact mem_map.mpr ⟨s, hsc, rfl⟩
  have hstart : s ∈ segments → out.canonical.start ≤ s.range.start :=
    fun hs => canonical_startsFirst h s hs
  rcases out with ⟨canonical, fork⟩
  by_cases hs : s ∈ segments
  · have hcan := hmem canonical (fun t ht => chains_mem h ht) hs
    cases fork with
    | none => simp [reclaimableSegments, h, hs, hcan, hstart hs, and_comm]
    | some f =>
      have hfork := hmem f (fun t ht => fork_mem h rfl ht) hs
      simp [reclaimableSegments, h, hs, hcan, hfork, hstart hs]
      tauto
  · simp [reclaimableSegments, h, hs]

end CampNode

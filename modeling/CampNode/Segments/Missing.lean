import CampNode.Segments.Ranges
import CampNode.Segments.Reclaim

/-!
# CampNode.Segments.Missing — the block ranges a table still needs

`missing_ranges` cuts the range of every segment out of the desired range, one segment
after the other, in a list of ranges that is edited while it is scanned. If the
segments end in a fork, the canonical segment at which the fork leaves the canonical
chain is extracted again, up to the block before the fork. The result is merged.

The ranges that are cut out and the range of the fork have no block in common with
what is left, so that no sum of `merge_ranges` wraps around here.
-/

namespace CampNode

open List

/-! ## Cutting out segments -/

/-- The loop over the ranges for one segment, at an index. Every iteration passes one
of the ranges there were at the start. -/
def subtractLoop (segment : RangeInclusive) : Nat → List RangeInclusive → Nat → List RangeInclusive
  | 0, missing, _ => missing
  | fuel + 1, missing, index =>
      match missing[index]? with
      | none => missing
      | some range =>
          if (blockRangeIntersection range segment).isNone then
            subtractLoop segment fuel missing (index + 1)
          else
            let ranges := missingBlockRanges segment range
            -- splice
            subtractLoop segment fuel (missing.take index ++ ranges ++ missing.drop (index + 1))
              (index + ranges.length)

variable (missing : List RangeInclusive) (segment : Segment)

def subtractSegment : List RangeInclusive :=
  subtractLoop segment.range.numbers missing.length missing 0

/-- Remove the ranges of all segments. -/
def uncovered (segments : List Segment) (desired : RangeInclusive) : List RangeInclusive :=
  segments.foldl subtractSegment [desired]

/-- What the loop makes of one range. -/
def cutOut (segment range : RangeInclusive) : List RangeInclusive :=
  if (blockRangeIntersection range segment).isNone then [range]
  else missingBlockRanges segment range

/-- The loop passes every range once and never looks at the ranges it has put in. -/
theorem subtractLoop_eq (segment : RangeInclusive) (fuel : Nat)
    (before after : List RangeInclusive) (hfuel : after.length ≤ fuel) :
    subtractLoop segment fuel (before ++ after) before.length =
      before ++ after.flatMap (cutOut segment) := by
  induction fuel generalizing before after with
  | zero =>
    have hnil : after = [] := length_eq_zero_iff.mp (by omega)
    subst hnil
    rfl
  | succ fuel ih =>
    cases after with
    | nil =>
      have hnone : (before ++ [])[before.length]? = none := by simp
      unfold subtractLoop
      rw [hnone]
      simp
    | cons range after =>
      have hsome : (before ++ range :: after)[before.length]? = some range := by simp
      have hlen : after.length ≤ fuel := by simpa using hfuel
      unfold subtractLoop
      rw [hsome]
      by_cases hnone : (blockRangeIntersection range segment).isNone = true
      · -- no overlap: the range stays
        simp only [hnone, if_true]
        have hsplit : before ++ range :: after = (before ++ [range]) ++ after := by simp
        have hlength : before.length + 1 = (before ++ [range]).length := by simp
        rw [hsplit, hlength, ih (before ++ [range]) after hlen]
        simp [cutOut, hnone]
      · -- the range is replaced by what is left of it
        simp only [hnone]
        have htake : (before ++ range :: after).take before.length = before := by simp
        have hdrop : (before ++ range :: after).drop (before.length + 1) = after := by
          rw [drop_append]
          simp
        have hlength : before.length + (missingBlockRanges segment range).length =
            (before ++ missingBlockRanges segment range).length := by simp
        simp only [Bool.false_eq_true, if_false]
        rw [htake, hdrop, hlength, ih (before ++ missingBlockRanges segment range) after hlen]
        simp [cutOut, hnone]

theorem subtractSegment_eq :
    subtractSegment missing segment = missing.flatMap (cutOut segment.range.numbers) :=
  subtractLoop_eq segment.range.numbers missing.length [] missing (Nat.le_refl _)

/-- One range ends before the other starts. -/
def RangeInclusive.Below (r r' : RangeInclusive) : Prop := r.stop < r'.start

theorem cutOut_spec {segment range : RangeInclusive} (hrange : range.Valid)
    (hsegment : segment.Valid) :
    (∀ r ∈ cutOut segment range, r.Valid) ∧ (cutOut segment range).Pairwise RangeInclusive.Below ∧
      ∀ b, Holds (cutOut segment range) b ↔ range.Contains b ∧ ¬ segment.Contains b := by
  unfold cutOut
  split
  · rename_i hnone
    have hapart := blockRangeIntersection_none (Option.isNone_iff_eq_none.mp hnone)
    exact singleton_spec hrange fun b => ⟨fun hb => ⟨hb, hapart b hb⟩, fun hb => hb.1⟩
  · rcases missingBlockRanges_spec hrange hsegment with ⟨hvalid, hpair, hholds⟩
    refine ⟨hvalid, hpair.imp ?_, hholds⟩
    intro a b hab
    unfold RangeInclusive.Before at hab
    unfold RangeInclusive.Below
    omega

/-- The ends of a valid range lie in it, so a range that holds only blocks of another
one lies inside it. -/
theorem RangeInclusive.Valid.inside {r : RangeInclusive} {P : Nat → Prop} (hr : r.Valid)
    (h : ∀ b, r.Contains b → P b) : P r.start ∧ P r.stop :=
  ⟨h _ ⟨Nat.le_refl _, hr⟩, h _ ⟨hr, Nat.le_refl _⟩⟩

variable {missing segment} in
/-- Cutting out one segment. -/
theorem subtractSegment_spec (hvalid : ∀ r ∈ missing, r.Valid) (hpair : missing.Pairwise RangeInclusive.Below)
    (hsegment : segment.range.Valid) :
    (∀ r ∈ subtractSegment missing segment, r.Valid) ∧
      (subtractSegment missing segment).Pairwise RangeInclusive.Below ∧
      ∀ b, Holds (subtractSegment missing segment) b ↔
        Holds missing b ∧ ¬ segment.range.Contains b := by
  rw [subtractSegment_eq]
  have hcut : ∀ r ∈ missing, _ := fun r hr =>
    cutOut_spec (hvalid r hr) (show segment.range.numbers.Valid from hsegment)
  have hinside : ∀ r ∈ missing, ∀ p ∈ cutOut segment.range.numbers r,
      r.start ≤ p.start ∧ p.stop ≤ r.stop := by
    intro r hr p hp
    have hp' := ((hcut r hr).1 p hp).inside fun b hb => (((hcut r hr).2.2 b).mp ⟨p, hp, hb⟩).1
    exact ⟨hp'.1.1, hp'.2.2⟩
  refine ⟨?_, ?_, ?_⟩
  · intro p hp
    rcases mem_flatMap.mp hp with ⟨r, hr, hp⟩
    exact (hcut r hr).1 p hp
  · rw [pairwise_flatMap]
    refine ⟨fun r hr => (hcut r hr).2.1, ?_⟩
    refine List.Pairwise.imp_of_mem ?_ hpair
    intro r r' hr hr' hlt p hp p' hp'
    have h₁ := hinside r hr p hp
    have h₂ := hinside r' hr' p' hp'
    unfold RangeInclusive.Below at hlt ⊢
    omega
  · intro b
    constructor
    · rintro ⟨p, hp, hb⟩
      rcases mem_flatMap.mp hp with ⟨r, hr, hp⟩
      have := ((hcut r hr).2.2 b).mp ⟨p, hp, hb⟩
      exact ⟨⟨r, hr, this.1⟩, this.2⟩
    · rintro ⟨⟨r, hr, hb⟩, hnot⟩
      rcases ((hcut r hr).2.2 b).mpr ⟨hb, hnot⟩ with ⟨p, hp, hpb⟩
      exact ⟨p, mem_flatMap.mpr ⟨r, hr, hp⟩, hpb⟩

variable {segments : List Segment} {desired : RangeInclusive} {σ : SegmentSort} {out : Chains}

/-- Cutting out all segments, by induction over the segments. -/
theorem foldl_subtractSegment_spec {missing : List RangeInclusive} (hvalid : ∀ r ∈ missing, r.Valid)
    (hpair : missing.Pairwise RangeInclusive.Below) (hsegments : AllValid segments) :
    (∀ r ∈ segments.foldl subtractSegment missing, r.Valid) ∧
      (segments.foldl subtractSegment missing).Pairwise RangeInclusive.Below ∧
      ∀ b, Holds (segments.foldl subtractSegment missing) b ↔
        Holds missing b ∧ ∀ s ∈ segments, ¬ s.range.Contains b := by
  induction segments generalizing missing with
  | nil =>
    refine ⟨hvalid, hpair, ?_⟩
    intro b
    simp
  | cons s segments ih =>
    rcases subtractSegment_spec hvalid hpair (hsegments s mem_cons_self) with
      ⟨hvalid', hpair', hholds'⟩
    rcases ih hvalid' hpair' (fun t ht => hsegments t (mem_cons_of_mem _ ht)) with
      ⟨hvalid'', hpair'', hholds''⟩
    refine ⟨hvalid'', hpair'', ?_⟩
    intro b
    rw [foldl_cons, hholds'' b, hholds' b]
    simp only [mem_cons, forall_eq_or_imp, and_assoc]

theorem uncovered_spec (hdesired : desired.Valid) (hsegments : AllValid segments) :
    (∀ r ∈ uncovered segments desired, r.Valid) ∧
      (uncovered segments desired).Pairwise RangeInclusive.Below ∧
      ∀ b, Holds (uncovered segments desired) b ↔
        desired.Contains b ∧ ∀ s ∈ segments, ¬ s.range.Contains b := by
  have hvalid : ∀ r ∈ [desired], r.Valid := by
    intro r hr
    rw [mem_singleton.mp hr]
    exact hdesired
  rcases foldl_subtractSegment_spec hvalid (pairwise_singleton _ _) hsegments with
    ⟨hvalid', hpair, hholds⟩
  refine ⟨hvalid', hpair, ?_⟩
  intro b
  rw [uncovered, hholds b, holds_cons]
  simp only [holds_nil, or_false]

/-! ## The range before a fork -/

/-- The canonical range that overlaps with a reorg. -/
def reorgRange (σ : SegmentSort) (segments : List Segment) (desired : RangeInclusive) :
    Option RangeInclusive :=
  match chains σ segments with
  | none => none
  | some out =>
      match out.fork with
      | none => none
      | some fork =>
          let reorgBlock := fork.start - 1
          let canonicalRange := (out.canonical.segments.map (·.range.numbers)).reverse.find?
            fun r => decide (r.Contains reorgBlock)
          canonicalRange.bind fun r => blockRangeIntersection ⟨r.start, reorgBlock⟩ desired

def missingRanges (σ : SegmentSort) (segments : List Segment) (desired : RangeInclusive) :
    List RangeInclusive :=
  mergeRanges (uncovered segments desired ++ (reorgRange σ segments desired).toList)

/-- A fork exists, and `b` lies between the start of the canonical segment with the block
before the fork and that block. -/
def ReorgBlock (σ : SegmentSort) (segments : List Segment) (b : Nat) : Prop :=
  ∃ out fork, chains σ segments = some out ∧ out.fork = some fork ∧
    ∃ s ∈ out.canonical.segments, s.range.Contains (fork.start - 1) ∧
      s.range.start ≤ b ∧ b ≤ fork.start - 1

/-- A fork starts above the canonical chain's first block, leaves no gap to the chain, and
no canonical segment fits under it. -/
theorem fork_spec (h : chains σ segments = some out) {fork : Chain} (hfork : out.fork = some fork) :
    out.canonical.start < fork.start ∧ fork.start ≤ out.canonical.stop + 1 ∧
      ∀ s ∈ out.canonical.segments, ¬ s.Adj (fork.segments.head fork.nonempty) := by
  have hfirst := canonical_startsFirst h
  rcases chains_spec h with ⟨minStart, others, hmin, hrounds, hfind⟩
  rw [hfork] at hfind
  have hmem : fork ∈ others := mem_of_find?_eq_some hfind.symm
  have hgap := find?_some hfind.symm
  simp only [Bool.and_eq_true, decide_eq_true_eq] at hgap
  have hne : fork.start ≠ minStart := by
    rw [fork.start_eq]
    apply hrounds.not_accept fork.path
    rw [← map_dropLast, dropLast_concat]
    exact mem_map.mpr ⟨fork, hmem, rfl⟩
  have hhead : fork.segments.head fork.nonempty ∈ segments := fork_mem h hfork fork.head_mem
  have hstart : out.canonical.start ≤ fork.start := hfirst _ hhead
  have hmin' : out.canonical.start = minStart :=
    (startsFirst_iff hmin (chains_mem h out.canonical.head_mem)).mpr hfirst
  have hnot := hrounds.later_not_adj
  rw [pairwise_map, pairwise_append] at hnot
  refine ⟨by omega, hgap.2, ?_⟩
  intro s hs
  rw [← fork.bottom_eq]
  exact hnot.2.2 fork hmem out.canonical (mem_singleton_self _) s
    (out.canonical.mem_top_cons_below.mpr hs)

/-- A fork does not start at block 0, so that there is a block before it. -/
theorem fork_start_pos (h : chains σ segments = some out) {fork : Chain}
    (hfork : out.fork = some fork) :
    0 < fork.start :=
  Nat.zero_lt_of_lt (fork_spec h hfork).1

/-- Segments without common blocks that are linked wherever one ends right before another
have no fork. -/
theorem fork_eq_none (h : chains σ segments = some out) (hvalid : AllValid segments)
    (hapart : segments.Pairwise fun s t => s.range.numbers.Apart t.range.numbers)
    (hlinked : ∀ s ∈ segments, ∀ t ∈ segments, s.range.stop + 1 = t.range.start → s.Adj t) :
    out.fork = none := by
  cases hfork : out.fork with
  | none => rfl
  | some fork =>
    rcases fork_spec h hfork with ⟨hstart, hgap, hnot⟩
    have hcanonical : AllValid out.canonical.segments := fun s hs => hvalid s (chains_mem h hs)
    -- the canonical segment with the block before the fork
    rcases (Chain.covers_iff hcanonical (fork.start - 1)).mpr ⟨by omega, by omega⟩ with
      ⟨s, hs, hsb⟩
    have hsmem := chains_mem h hs
    have hhead := fork_mem h hfork fork.head_mem
    have hheadValid := hvalid _ hhead
    have hheadStart : (fork.segments.head fork.nonempty).range.start = fork.start := rfl
    refine absurd (hlinked s hsmem _ hhead ?_) (hnot s hs)
    -- it ends there, since the fork does not overlap with it
    by_contra hstop
    unfold BlockRange.Contains at hsb
    have hne : s ≠ fork.segments.head fork.nonempty := by
      rintro rfl
      omega
    have : Std.Symm fun s t : Segment => s.range.numbers.Apart t.range.numbers :=
      ⟨fun _ _ => RangeInclusive.Apart.symm⟩
    refine hapart.forall hsmem hhead hne fork.start ?_ ⟨Nat.le_of_eq hheadStart, hheadValid⟩
    show s.range.start ≤ fork.start ∧ fork.start ≤ s.range.stop
    omega

/-- The range of the reorg is valid and holds the desired blocks before the fork. -/
theorem reorgRange_spec {σ : SegmentSort} {segments : List Segment} {desired : RangeInclusive}
    (hvalid : AllValid segments) :
    (∀ r ∈ (reorgRange σ segments desired).toList, r.Valid) ∧
      ∀ b, Holds (reorgRange σ segments desired).toList b ↔
        desired.Contains b ∧ ReorgBlock σ segments b := by
  unfold reorgRange ReorgBlock
  cases hchains : chains σ segments with
  | none => simp
  | some out =>
    cases hfork : out.fork with
    | none => simp [hfork]
    | some fork =>
      have hcanonical : AllValid out.canonical.segments := fun s hs =>
        hvalid s (chains_mem hchains hs)
      simp only [hfork]
      cases hfind : (out.canonical.segments.map (·.range.numbers)).reverse.find?
          fun r => decide (r.Contains (fork.start - 1)) with
      | none =>
        -- no canonical segment holds the block before the fork
        rw [find?_eq_none] at hfind
        refine ⟨forall_mem_nil _, ?_⟩
        intro b
        simp only [Option.bind_none, Option.toList_none, holds_nil, false_iff]
        rintro ⟨-, out', fork', hout', hfork', s, hs, hblock, -⟩
        cases hout'
        rw [hfork] at hfork'
        cases hfork'
        refine hfind s.range.numbers ?_ (decide_eq_true hblock)
        exact mem_reverse.mpr (mem_map.mpr ⟨s, hs, rfl⟩)
      | some r =>
        have hr := find?_some hfind
        rcases mem_map.mp (mem_reverse.mp (mem_of_find?_eq_some hfind)) with
          ⟨s, hs, rfl⟩
        have hblock : s.range.Contains (fork.start - 1) := of_decide_eq_true hr
        -- the segment is the only one that holds the block
        have hreorg : ∀ b, (∃ out' fork', some out = some out' ∧ out'.fork = some fork' ∧
            ∃ t ∈ out'.canonical.segments, t.range.Contains (fork'.start - 1) ∧
              t.range.start ≤ b ∧ b ≤ fork'.start - 1) ↔
            s.range.start ≤ b ∧ b ≤ fork.start - 1 := by
          intro b
          constructor
          · rintro ⟨out', fork', hout', hfork', t, ht, htblock, hb⟩
            cases hout'
            rw [hfork] at hfork'
            cases hfork'
            rw [eq_of_linked_contains out.canonical.linked hcanonical hs ht hblock htblock]
            exact hb
          · intro hb
            exact ⟨out, fork, rfl, hfork, s, hs, hblock, hb⟩
        simp only [Option.bind_some, hreorg]
        cases hinter : blockRangeIntersection ⟨s.range.numbers.start, fork.start - 1⟩ desired with
        | none =>
          have hapart := blockRangeIntersection_none hinter
          refine ⟨forall_mem_nil _, ?_⟩
          intro b
          simp only [Option.toList_none, holds_nil, false_iff]
          rintro ⟨hdesired, hb⟩
          exact hapart b hb hdesired
        | some r =>
          rcases blockRangeIntersection_some hinter with ⟨hrvalid, hcontains⟩
          constructor
          · intro r' hr'
            rw [Option.toList_some, mem_singleton] at hr'
            rw [hr']
            exact hrvalid
          · intro b
            rw [Option.toList_some, holds_cons, hcontains b]
            simp only [holds_nil, or_false]
            exact and_comm

/-- Blocks before a fork lie in a canonical segment. -/
theorem ReorgBlock.covered {b : Nat} (h : ReorgBlock σ segments b) :
    ∃ s ∈ segments, s.range.Contains b := by
  rcases h with ⟨out, fork, hchains, -, s, hs, hblock, hb⟩
  exact ⟨s, chains_mem hchains hs, hb.1, hb.2.trans hblock.2⟩

/-! ## The missing ranges -/

/-- Sorted ranges without common blocks do not wrap around. -/
theorem noWrap_of_apart {ranges : List RangeInclusive} (hvalid : ∀ r ∈ ranges, r.Valid)
    (hu64 : ∀ r ∈ ranges, r.stop < 2 ^ 64) (hapart : ranges.Pairwise RangeInclusive.Apart) :
    (ranges.insertionSort fun a b => a.start ≤ b.start).Pairwise fun a _ => NoWrap a := by
  have hperm := perm_insertionSort (fun a b : RangeInclusive => a.start ≤ b.start) ranges
  have hapart' := (hperm.symm.pairwise_iff fun h => h.symm).mp hapart
  refine List.Pairwise.imp_of_mem ?_ (hapart'.and (sorted_insertionSort ranges))
  rintro a b ha hb ⟨hab, hle⟩
  have hbvalid : b.start ≤ b.stop := hvalid b (hperm.mem_iff.mp hb)
  have hbu64 := hu64 b (hperm.mem_iff.mp hb)
  -- the start of the later range is not in the earlier one
  have hnot : ¬ a.Contains b.start := fun h => hab b.start h ⟨Nat.le_refl _, hbvalid⟩
  unfold RangeInclusive.Contains at hnot
  unfold NoWrap
  omega

/-- The ranges before merging: they have no blocks in common. -/
theorem unmerged_spec (σ : SegmentSort) (hvalid : AllValid segments) (hdesired : desired.Valid) :
    (∀ r ∈ uncovered segments desired ++ (reorgRange σ segments desired).toList, r.Valid) ∧
      (uncovered segments desired ++ (reorgRange σ segments desired).toList).Pairwise
        RangeInclusive.Apart ∧
      ∀ b, Holds (uncovered segments desired ++ (reorgRange σ segments desired).toList) b ↔
        desired.Contains b ∧
          ((∀ s ∈ segments, ¬ s.range.Contains b) ∨ ReorgBlock σ segments b) := by
  rcases uncovered_spec hdesired hvalid with ⟨huvalid, hupair, huholds⟩
  rcases @reorgRange_spec σ segments desired hvalid with ⟨hrvalid, hrholds⟩
  refine ⟨?_, ?_, ?_⟩
  · intro r hr
    rcases mem_append.mp hr with hr | hr
    · exact huvalid r hr
    · exact hrvalid r hr
  · rw [pairwise_append]
    refine ⟨?_, ?_, ?_⟩
    · apply hupair.imp
      intro a b hab n ha hb
      unfold RangeInclusive.Below at hab
      unfold RangeInclusive.Contains at ha hb
      omega
    · cases reorgRange σ segments desired with
      | none => exact .nil
      | some r => exact pairwise_singleton _ _
    · -- what is left lies in no segment, the range of the reorg in a canonical one
      intro a ha c hc n han hcn
      rcases ((hrholds n).mp ⟨c, hc, hcn⟩).2.covered with ⟨s, hs, hsn⟩
      exact ((huholds n).mp ⟨a, ha, han⟩).2 s hs hsn
  · intro b
    rw [holds_append, huholds b, hrholds b, ← and_or_left]

/-- What merging does to the ranges of `missing_ranges`. -/
theorem missingRanges_spec (σ : SegmentSort) (hvalid : AllValid segments) (hdesired : desired.Valid)
    (hu64 : desired.stop < 2 ^ 64) :
    (∀ r ∈ missingRanges σ segments desired, r.Valid) ∧
      (missingRanges σ segments desired).Pairwise RangeInclusive.Before ∧
      ∀ b, Holds (missingRanges σ segments desired) b ↔ desired.Contains b ∧
        ((∀ s ∈ segments, ¬ s.range.Contains b) ∨ ReorgBlock σ segments b) := by
  rcases unmerged_spec σ hvalid hdesired with ⟨hall, hapart, hholds⟩
  have hbound : ∀ r ∈ uncovered segments desired ++ (reorgRange σ segments desired).toList,
      r.stop < 2 ^ 64 := by
    intro r hr
    have hr' := (hall r hr).inside fun b hb => ((hholds b).mp ⟨r, hr, hb⟩).1
    exact Nat.lt_of_le_of_lt hr'.2.2 hu64
  rcases mergeRanges_spec hall (noWrap_of_apart hall hbound hapart) with
    ⟨hmvalid, hmpair, hmholds⟩
  exact ⟨hmvalid, hmpair, fun b => (hmholds b).trans (hholds b)⟩

/-- The result of `missing_ranges` is sorted, with gaps between the ranges, and lies
inside the desired range. A desired block is in it if no segment holds the block, or if
there is a fork and the block lies between the start of the canonical segment with the
block before the fork and that block. -/
theorem missing_iff_uncovered_or_reorg (σ : SegmentSort) (segments : List Segment)
    (desired : RangeInclusive) (hvalid : AllValid segments) (hdesired : desired.Valid)
    (hu64 : desired.stop < 2 ^ 64) :
    (∀ r ∈ missingRanges σ segments desired,
        r.Valid ∧ desired.start ≤ r.start ∧ r.stop ≤ desired.stop) ∧
      (missingRanges σ segments desired).Pairwise RangeInclusive.Before ∧
      (∀ b, desired.Contains b → (Holds (missingRanges σ segments desired) b ↔
        (∀ s ∈ segments, ¬ s.range.Contains b) ∨ ReorgBlock σ segments b)) ∧
      ∀ out fork, chains σ segments = some out → out.fork = some fork → 0 < fork.start := by
  rcases missingRanges_spec σ hvalid hdesired hu64 with ⟨hmvalid, hmpair, hholds⟩
  refine ⟨?_, hmpair, ?_, ?_⟩
  · intro r hr
    have hr' := (hmvalid r hr).inside fun b hb => ((hholds b).mp ⟨r, hr, hb⟩).1
    exact ⟨hmvalid r hr, hr'.1.1, hr'.2.2⟩
  · intro b hb
    rw [hholds b, and_iff_right hb]
  · intro out fork hchains hfork
    exact fork_start_pos hchains hfork

/-- Blocks 3 to 14 in four canonical segments and a fork of blocks 9 to 17. -/
def forkedAt9 : List Segment :=
  [⟨1, ⟨⟨3, 5⟩, "mainnet", 5, none⟩, ⟨0⟩⟩, ⟨2, ⟨⟨6, 8⟩, "mainnet", 8, some 5⟩, ⟨0⟩⟩,
    ⟨3, ⟨⟨9, 11⟩, "mainnet", 11, some 8⟩, ⟨0⟩⟩, ⟨4, ⟨⟨12, 14⟩, "mainnet", 14, some 11⟩, ⟨0⟩⟩,
    ⟨5, ⟨⟨9, 11⟩, "mainnet", 111, some 108⟩, ⟨1⟩⟩, ⟨6, ⟨⟨12, 14⟩, "mainnet", 114, some 111⟩, ⟨1⟩⟩,
    ⟨7, ⟨⟨15, 17⟩, "mainnet", 117, some 114⟩, ⟨1⟩⟩]

/-- The segments of the comment at `missing_ranges`: blocks 6 to 8 are missing because of
the fork. -/
theorem missing_iff_uncovered_or_reorg_forked :
    missingRanges (insertionSort Segment.lastModified) forkedAt9 ⟨0, 20⟩ =
        [⟨0, 2⟩, ⟨6, 8⟩, ⟨18, 20⟩] ∧
      ReorgBlock (insertionSort Segment.lastModified) forkedAt9 7 := by
  have hmissing : missingRanges (insertionSort Segment.lastModified) forkedAt9 ⟨0, 20⟩ =
      [⟨0, 2⟩, ⟨6, 8⟩, ⟨18, 20⟩] := by decide
  refine ⟨hmissing, ?_⟩
  have hiff := (missing_iff_uncovered_or_reorg (insertionSort Segment.lastModified) forkedAt9
    ⟨0, 20⟩ (by decide) (by decide) (by decide)).2.2.1 7 (by decide)
  rw [hmissing] at hiff
  rcases hiff.mp ⟨⟨6, 8⟩, by decide, by decide⟩ with huncovered | hreorg
  · exact absurd huncovered (by decide)
  · exact hreorg

end CampNode

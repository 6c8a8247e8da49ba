import CampNode.Segments.Basic
import Mathlib.Data.List.Sort

/-!
# CampNode.Segments.Ranges — lists of block ranges

The helpers of `missing_ranges` and of the dump: the intersection of two ranges, the
difference of two ranges, and `merge_ranges`, which sorts a list of ranges and joins
the ones that overlap or touch. A list of ranges stands for the set of the blocks it
`Holds`.

`merge_ranges` adds one to the end of a range, in `u64`. At the last block number the
sum wraps around and the range is not joined with the one after it.
-/

namespace CampNode

open List

namespace RangeInclusive

/-- The range holds at least one block. -/
def Valid (r : RangeInclusive) : Prop := r.start ≤ r.stop

instance (r : RangeInclusive) : Decidable r.Valid := inferInstanceAs (Decidable (_ ≤ _))

/-- Block `b` lies in the range. -/
def Contains (r : RangeInclusive) (b : Nat) : Prop := r.start ≤ b ∧ b ≤ r.stop

instance (r : RangeInclusive) (b : Nat) : Decidable (r.Contains b) :=
  inferInstanceAs (Decidable (_ ∧ _))

/-- There is a gap between the ranges. -/
def Before (r r' : RangeInclusive) : Prop := r.stop + 1 < r'.start

instance : DecidableRel Before := fun r r' =>
  inferInstanceAs (Decidable (r.stop + 1 < r'.start))

/-- The ranges have no block in common. -/
def Apart (r r' : RangeInclusive) : Prop := ∀ b, r.Contains b → ¬ r'.Contains b

theorem Apart.symm {r r' : RangeInclusive} (h : r.Apart r') : r'.Apart r :=
  fun b hb hb' => h b hb' hb

end RangeInclusive

/-- Block `b` lies in one of the ranges. -/
def Holds (ranges : List RangeInclusive) (b : Nat) : Prop := ∃ r ∈ ranges, r.Contains b

instance (ranges : List RangeInclusive) (b : Nat) : Decidable (Holds ranges b) :=
  inferInstanceAs (Decidable (∃ r ∈ ranges, r.Contains b))

variable {b : Nat} {r : RangeInclusive} {ranges : List RangeInclusive}

@[simp] theorem holds_nil : ¬ Holds [] b := by
  rintro ⟨r, hr, -⟩
  cases hr

theorem holds_cons : Holds (r :: ranges) b ↔ r.Contains b ∨ Holds ranges b := by
  unfold Holds
  simp

theorem holds_append {ranges ranges' : List RangeInclusive} :
    Holds (ranges ++ ranges') b ↔ Holds ranges b ∨ Holds ranges' b := by
  unfold Holds
  simp only [mem_append, or_and_right, exists_or]

theorem holds_perm {ranges ranges' : List RangeInclusive} (h : ranges.Perm ranges') :
    Holds ranges b ↔ Holds ranges' b := by
  unfold Holds
  simp only [h.mem_iff]

/-! ## Two ranges -/

def blockRangeIntersection (a b : RangeInclusive) : Option RangeInclusive :=
  if max a.start b.start ≤ min a.stop b.stop then
    some ⟨max a.start b.start, min a.stop b.stop⟩
  else none

/-- The blocks of `desired` that are not in `synced`. -/
def missingBlockRanges (synced desired : RangeInclusive) : List RangeInclusive :=
  if synced.stop < desired.start ∨ synced.start > desired.stop then [desired]
  else if synced.start ≤ desired.start ∧ synced.stop ≥ desired.stop then []
  else
    (if desired.start < synced.start then [⟨desired.start, synced.start - 1⟩] else []) ++
      if desired.stop > synced.stop then [⟨synced.stop + 1, desired.stop⟩] else []

theorem blockRangeIntersection_some {a b r : RangeInclusive}
    (h : blockRangeIntersection a b = some r) :
    r.Valid ∧ ∀ n, r.Contains n ↔ a.Contains n ∧ b.Contains n := by
  unfold blockRangeIntersection at h
  split at h
  · rename_i hle
    cases h
    refine ⟨hle, ?_⟩
    intro n
    simp only [RangeInclusive.Contains]
    omega
  · cases h

theorem blockRangeIntersection_none {a b : RangeInclusive}
    (h : blockRangeIntersection a b = none) : a.Apart b := by
  unfold blockRangeIntersection at h
  split at h
  · cases h
  · rename_i hle
    unfold RangeInclusive.Apart RangeInclusive.Contains
    omega

theorem singleton_spec {r : RangeInclusive} {order : RangeInclusive → RangeInclusive → Prop}
    {p : Nat → Prop} (hvalid : r.Valid) (h : ∀ b, r.Contains b ↔ p b) :
    (∀ x ∈ [r], x.Valid) ∧ [r].Pairwise order ∧ ∀ b, Holds [r] b ↔ p b := by
  refine ⟨by simpa using hvalid, pairwise_singleton _ _, ?_⟩
  intro b
  simp only [holds_cons, holds_nil, or_false, h b]

/-- The parts of a difference are valid, in order and inside the range. -/
theorem missingBlockRanges_spec {synced desired : RangeInclusive} (hdesired : desired.Valid)
    (hsynced : synced.Valid) :
    (∀ r ∈ missingBlockRanges synced desired, r.Valid) ∧
      (missingBlockRanges synced desired).Pairwise RangeInclusive.Before ∧
      ∀ b, Holds (missingBlockRanges synced desired) b ↔
        desired.Contains b ∧ ¬ synced.Contains b := by
  unfold RangeInclusive.Valid at hdesired hsynced
  unfold missingBlockRanges
  split
  · -- no overlap
    refine singleton_spec hdesired fun b => ?_
    simp only [RangeInclusive.Contains]
    omega
  split
  · -- `desired` lies inside `synced`
    refine ⟨nofun, .nil, ?_⟩
    intro b
    simp only [holds_nil, false_iff, RangeInclusive.Contains]
    omega
  -- partial overlap
  by_cases hleft : desired.start < synced.start
  · by_cases hright : desired.stop > synced.stop
    · simp only [if_pos hleft, if_pos hright, cons_append, nil_append]
      refine ⟨?_, ?_, ?_⟩
      · simp only [mem_cons, not_mem_nil, or_false, RangeInclusive.Valid]
        rintro r (rfl | rfl)
        · show desired.start ≤ synced.start - 1
          omega
        · show synced.stop + 1 ≤ desired.stop
          omega
      · refine pairwise_pair.mpr ?_
        show synced.start - 1 + 1 < synced.stop + 1
        omega
      · intro b
        simp only [holds_cons, holds_nil, or_false, RangeInclusive.Contains]
        omega
    · simp only [if_pos hleft, if_neg hright, append_nil]
      refine singleton_spec (Nat.le_sub_one_of_lt hleft) fun b => ?_
      simp only [RangeInclusive.Contains]
      omega
  · by_cases hright : desired.stop > synced.stop
    · simp only [if_neg hleft, if_pos hright, nil_append]
      refine singleton_spec hright fun b => ?_
      simp only [RangeInclusive.Contains]
      omega
    · omega

/-! ## Merging -/

/-- The loop of `merge_ranges` over sorted ranges, with the current range. -/
def mergeLoop : RangeInclusive → List RangeInclusive → List RangeInclusive
  | current, [] => [current]
  | current, next :: rest =>
      if next.start ≤ nextBlock current.stop then
        mergeLoop ⟨current.start, max current.stop next.stop⟩ rest
      else current :: mergeLoop next rest

/-- Any stable sort gives the same list; here it is insertion sort. -/
def mergeRanges (ranges : List RangeInclusive) : List RangeInclusive :=
  match ranges.insertionSort fun a b => a.start ≤ b.start with
  | [] => []
  | current :: rest => mergeLoop current rest

/-- A range with ranges after it does not end in the last block number. -/
def NoWrap (r : RangeInclusive) : Prop := r.stop + 1 < 2 ^ 64

theorem nextBlock_of_noWrap (h : NoWrap r) : nextBlock r.stop = r.stop + 1 := Nat.mod_eq_of_lt h

/-- The merged ranges start with the current one, have gaps between them and hold the
same blocks. -/
theorem mergeLoop_spec {current : RangeInclusive} {rest : List RangeInclusive}
    (hvalid : ∀ r ∈ current :: rest, r.Valid)
    (hsorted : (current :: rest).Pairwise fun a b => a.start ≤ b.start)
    (hwrap : (current :: rest).Pairwise fun a _ => NoWrap a) :
    (∀ r ∈ mergeLoop current rest, r.Valid ∧ current.start ≤ r.start) ∧
      (mergeLoop current rest).Pairwise RangeInclusive.Before ∧
      ∀ b, Holds (mergeLoop current rest) b ↔ Holds (current :: rest) b := by
  induction rest generalizing current with
  | nil =>
    have hcurrent := hvalid current mem_cons_self
    refine ⟨?_, pairwise_singleton _ _, fun b => Iff.rfl⟩
    intro r hr
    rw [mem_singleton.mp hr]
    exact ⟨hcurrent, Nat.le_refl _⟩
  | cons next rest ih =>
    rcases pairwise_cons.mp hsorted with ⟨hfirst, hsorted'⟩
    rcases pairwise_cons.mp hwrap with ⟨hnowrap, hwrap'⟩
    have hcurrent : current.start ≤ current.stop := hvalid current mem_cons_self
    have hnextvalid : next.start ≤ next.stop := hvalid next (mem_cons_of_mem _ mem_cons_self)
    have hle := hfirst next mem_cons_self
    have hsucc := nextBlock_of_noWrap (hnowrap next mem_cons_self)
    have hrest : ∀ r ∈ rest, r.Valid := fun r hr =>
      hvalid r (mem_cons_of_mem _ (mem_cons_of_mem _ hr))
    unfold mergeLoop
    rw [hsucc]
    split
    · -- the next range touches the current one
      rename_i htouch
      have hvalid₁ : ∀ r ∈ ⟨current.start, max current.stop next.stop⟩ :: rest,
          RangeInclusive.Valid r := by
        intro r hr
        rcases mem_cons.mp hr with rfl | hr
        · show current.start ≤ max current.stop next.stop
          omega
        · exact hrest r hr
      have hsorted₁ : (⟨current.start, max current.stop next.stop⟩ :: rest).Pairwise
          fun a b : RangeInclusive => a.start ≤ b.start := by
        refine pairwise_cons.mpr ⟨?_, (pairwise_cons.mp hsorted').2⟩
        intro r hr
        exact hfirst r (mem_cons_of_mem _ hr)
      have hwrap₁ : (⟨current.start, max current.stop next.stop⟩ :: rest).Pairwise
          fun a _ : RangeInclusive => NoWrap a := by
        refine pairwise_cons.mpr ⟨?_, (pairwise_cons.mp hwrap').2⟩
        intro r hr
        have hcur := hnowrap next mem_cons_self
        have hnext := (pairwise_cons.mp hwrap').1 r hr
        unfold NoWrap at hcur hnext
        show max current.stop next.stop + 1 < 2 ^ 64
        omega
      rcases ih hvalid₁ hsorted₁ hwrap₁ with ⟨hvalid', hpair, hholds⟩
      refine ⟨hvalid', hpair, ?_⟩
      intro b
      rw [hholds b, holds_cons, holds_cons, holds_cons, ← or_assoc]
      refine or_congr ?_ Iff.rfl
      simp only [RangeInclusive.Contains]
      omega
    · -- a gap: the current range is done
      rename_i hgap
      rcases ih (fun r hr => hvalid r (mem_cons_of_mem _ hr)) hsorted' hwrap' with
        ⟨hvalid', hpair, hholds⟩
      refine ⟨?_, ?_, ?_⟩
      · intro r hr
        rcases mem_cons.mp hr with rfl | hr
        · exact ⟨hcurrent, Nat.le_refl _⟩
        · exact ⟨(hvalid' r hr).1, hle.trans (hvalid' r hr).2⟩
      · refine pairwise_cons.mpr ⟨?_, hpair⟩
        intro r hr
        have hstart := (hvalid' r hr).2
        show current.stop + 1 < r.start
        omega
      · intro b
        rw [holds_cons, holds_cons, hholds b]

theorem sorted_insertionSort (ranges : List RangeInclusive) :
    (ranges.insertionSort fun a b => a.start ≤ b.start).Pairwise fun a b => a.start ≤ b.start := by
  have : Std.Total fun a b : RangeInclusive => a.start ≤ b.start :=
    ⟨fun a b => Nat.le_total a.start b.start⟩
  have : IsTrans RangeInclusive fun a b => a.start ≤ b.start :=
    ⟨fun a b c hab hbc => Nat.le_trans hab hbc⟩
  exact pairwise_insertionSort _ _

/-- Merging keeps the blocks, and leaves gaps between the ranges, if no range wraps
around except a last one. -/
theorem mergeRanges_spec (hvalid : ∀ r ∈ ranges, r.Valid)
    (hwrap : (ranges.insertionSort fun a b => a.start ≤ b.start).Pairwise fun a _ => NoWrap a) :
    (∀ r ∈ mergeRanges ranges, r.Valid) ∧ (mergeRanges ranges).Pairwise RangeInclusive.Before ∧
      ∀ b, Holds (mergeRanges ranges) b ↔ Holds ranges b := by
  have hperm := perm_insertionSort (fun a b : RangeInclusive => a.start ≤ b.start) ranges
  have hsorted := sorted_insertionSort ranges
  unfold mergeRanges
  cases hs : ranges.insertionSort fun a b => a.start ≤ b.start with
  | nil =>
    rw [hs] at hperm
    rw [hperm.symm.eq_nil]
    exact ⟨nofun, .nil, fun b => Iff.rfl⟩
  | cons current rest =>
    rw [hs] at hperm hsorted hwrap
    rcases mergeLoop_spec (fun r hr => hvalid r (hperm.mem_iff.mp hr)) hsorted hwrap with
      ⟨hvalid', hpair, hholds⟩
    exact ⟨fun r hr => (hvalid' r hr).1, hpair, fun b => (hholds b).trans (holds_perm hperm)⟩

theorem mergeLoop_of_before {current : RangeInclusive} {rest : List RangeInclusive}
    (hwrap : ∀ r ∈ current :: rest, NoWrap r)
    (hbefore : (current :: rest).Pairwise RangeInclusive.Before) :
    mergeLoop current rest = current :: rest := by
  induction rest generalizing current with
  | nil => rfl
  | cons next rest ih =>
    have hgap : current.stop + 1 < next.start := rel_of_pairwise_cons hbefore mem_cons_self
    rw [mergeLoop, nextBlock_of_noWrap (hwrap current mem_cons_self), if_neg (by omega),
      ih (fun r hr => hwrap r (mem_cons_of_mem _ hr)) (pairwise_cons.mp hbefore).2]

/-- The merged ranges are sorted by their starts, have a missing block between them and hold the
blocks of the ranges, and merging them again changes nothing. -/
theorem mergeRanges_canonical (hvalid : ∀ r ∈ ranges, r.Valid) (hwrap : ∀ r ∈ ranges, NoWrap r) :
    (mergeRanges ranges).Pairwise (fun a b => a.start < b.start) ∧
      (mergeRanges ranges).Pairwise RangeInclusive.Before ∧
      (∀ b, Holds (mergeRanges ranges) b ↔ Holds ranges b) ∧
      mergeRanges (mergeRanges ranges) = mergeRanges ranges := by
  have hsort : (ranges.insertionSort fun a b => a.start ≤ b.start).Pairwise fun a _ => NoWrap a :=
    pairwise_of_forall_mem_list fun a ha _ _ => hwrap a ((mem_insertionSort _).mp ha)
  obtain ⟨hmerged, hbefore, hholds⟩ := mergeRanges_spec hvalid hsort
  have hsorted : (mergeRanges ranges).Pairwise fun a b => a.start < b.start := by
    refine hbefore.imp_of_mem ?_
    intro a b ha _ hab
    have := hmerged a ha
    unfold RangeInclusive.Valid at this
    unfold RangeInclusive.Before at hab
    omega
  refine ⟨hsorted, hbefore, hholds, ?_⟩
  -- the last block of a merged range is in a range before
  have hnowrap : ∀ r ∈ mergeRanges ranges, NoWrap r := by
    intro r hr
    obtain ⟨r', hr', -, hle⟩ := (hholds r.stop).mp ⟨r, hr, hmerged r hr, Nat.le_refl _⟩
    exact Nat.lt_of_le_of_lt (Nat.succ_le_succ hle) (hwrap r' hr')
  generalize mergeRanges ranges = merged at hsorted hbefore hnowrap
  unfold mergeRanges
  rw [(hsorted.imp Nat.le_of_lt).insertionSort_eq]
  cases merged with
  | nil => rfl
  | cons current rest => exact mergeLoop_of_before hnowrap hbefore

/-- Three ranges become two. -/
theorem mergeRanges_canonical_three : mergeRanges [⟨7, 9⟩, ⟨0, 2⟩, ⟨3, 4⟩] = [⟨0, 4⟩, ⟨7, 9⟩] ∧
      mergeRanges (mergeRanges [⟨7, 9⟩, ⟨0, 2⟩, ⟨3, 4⟩]) = mergeRanges [⟨7, 9⟩, ⟨0, 2⟩, ⟨3, 4⟩] := by
  refine ⟨by decide, (mergeRanges_canonical ?_ ?_).2.2.2⟩
  · decide
  · simp [NoWrap]

end CampNode

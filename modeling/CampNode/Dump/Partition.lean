import CampNode.Segments.Missing

/-!
# CampNode.Dump.Partition — cutting ranges for the writers

The dump cuts block ranges twice. `split_and_partition` deals the missing ranges of a
dataset out to partitions of about equal size, and `limit_ranges` bounds the number of
blocks of a file. Both only cut: the ranges they return are a `Cut` of the ranges they
are given, so that they hold the same blocks in the same order.
-/

namespace CampNode

open List

/-! ## Cuts -/

/-- `Cut ranges parts`: the parts are the ranges, some of them cut into several parts. -/
inductive Cut : List RangeInclusive → List RangeInclusive → Prop where
  | nil : Cut [] []
  | keep {r ranges parts} : Cut ranges parts → Cut (r :: ranges) (r :: parts)
  | cut {r ranges parts m} : r.start ≤ m → m < r.stop →
      Cut (⟨m + 1, r.stop⟩ :: ranges) parts → Cut (r :: ranges) (⟨r.start, m⟩ :: parts)

variable (r : RangeInclusive)

/-- The blocks of a range. -/
def blockCount : Nat := r.stop - r.start + 1

def blockCounts (ranges : List RangeInclusive) : Nat := (ranges.map blockCount).sum

@[simp] theorem blockCounts_nil : blockCounts [] = 0 := rfl

@[simp] theorem blockCounts_cons (ranges : List RangeInclusive) :
    blockCounts (r :: ranges) = blockCount r + blockCounts ranges := by
  simp [blockCounts]

@[simp] theorem blockCounts_append (ranges ranges' : List RangeInclusive) :
    blockCounts (ranges ++ ranges') = blockCounts ranges + blockCounts ranges' := by
  simp [blockCounts]

theorem blockCount_pos : 0 < blockCount r := Nat.succ_pos _

variable {ranges : List RangeInclusive} {r : RangeInclusive} {maxLen : Nat}

theorem blockCounts_pos (hne : ranges ≠ []) : 0 < blockCounts ranges := by
  cases ranges with
  | nil => exact absurd rfl hne
  | cons r rest =>
    exact Nat.add_pos_left (blockCount_pos r) _

theorem eq_nil_of_blockCounts (h : blockCounts ranges ≤ 0) : ranges = [] := by
  by_contra hne
  exact Nat.not_le_of_lt (blockCounts_pos hne) h

/-- The block numbers of the ranges, in their order. -/
def blockNumbers (ranges : List RangeInclusive) : List Nat :=
  ranges.flatMap fun r => List.range' r.start (blockCount r)

namespace Cut

variable {ranges parts : List RangeInclusive}

theorem holds (h : Cut ranges parts) (b : Nat) : Holds parts b ↔ Holds ranges b := by
  induction h with
  | nil => exact Iff.rfl
  | keep _ ih => rw [holds_cons, holds_cons, ih]
  | cut hstart hstop _ ih =>
    rw [holds_cons, ih, holds_cons, holds_cons, ← or_assoc]
    refine or_congr ?_ Iff.rfl
    simp only [RangeInclusive.Contains]
    omega

/-- A cut neither loses nor moves a block. -/
theorem blockNumbers_eq (h : Cut ranges parts) : blockNumbers parts = blockNumbers ranges := by
  induction h with
  | nil => rfl
  | keep _ ih =>
    unfold blockNumbers at ih ⊢
    rw [flatMap_cons, ih, flatMap_cons]
  | @cut r ranges parts m hstart hstop _ ih =>
    unfold blockNumbers at ih ⊢
    rw [flatMap_cons, ih, flatMap_cons, ← append_assoc, flatMap_cons]
    have hnext : r.start + (m - r.start + 1) = m + 1 := by omega
    have hcount : m - r.start + 1 + (r.stop - (m + 1) + 1) = r.stop - r.start + 1 := by omega
    have hjoin := @List.range'_append_1 r.start (m - r.start + 1) (r.stop - (m + 1) + 1)
    rw [hnext, hcount] at hjoin
    exact congrArg (· ++ _) hjoin

theorem valid (h : Cut ranges parts) (hvalid : ∀ r ∈ ranges, r.Valid) : ∀ r ∈ parts, r.Valid := by
  induction h with
  | nil => exact hvalid
  | keep _ ih =>
    intro x hx
    rcases mem_cons.mp hx with rfl | hx
    · exact hvalid x mem_cons_self
    · exact ih (fun y hy => hvalid y (mem_cons_of_mem _ hy)) x hx
  | @cut r ranges parts m hstart hstop _ ih =>
    intro x hx
    rcases mem_cons.mp hx with rfl | hx
    · exact hstart
    refine ih ?_ x hx
    intro y hy
    rcases mem_cons.mp hy with rfl | hy
    · exact hstop
    · exact hvalid y (mem_cons_of_mem _ hy)

variable {n : Nat} {pieces : List RangeInclusive}

section

variable (h : Cut ranges parts)
include h

section

variable (hvalid : ∀ r ∈ ranges, r.Valid)
include hvalid

theorem le_start (hn : ∀ r ∈ ranges, n ≤ r.start) : ∀ r ∈ parts, n ≤ r.start := by
  intro r hr
  have hrvalid := h.valid hvalid r hr
  rcases (h.holds r.start).mp ⟨r, hr, Nat.le_refl _, hrvalid⟩ with ⟨s, hs, hsr, -⟩
  exact Nat.le_trans (hn s hs) hsr

/-- A range that ends before a list of ranges ends before its parts. -/
theorem lt_start (hn : ∀ r ∈ ranges, n < r.start) : ∀ r ∈ parts, n < r.start := h.le_start hvalid hn

theorem stop_lt (hn : ∀ r ∈ ranges, r.stop < n) : ∀ r ∈ parts, r.stop < n := by
  intro r hr
  have hrvalid := h.valid hvalid r hr
  rcases (h.holds r.stop).mp ⟨r, hr, hrvalid, Nat.le_refl _⟩ with ⟨s, hs, -, hrs⟩
  exact Nat.lt_of_le_of_lt hrs (hn s hs)

theorem pairwise (hpair : ranges.Pairwise RangeInclusive.Below) :
    parts.Pairwise RangeInclusive.Below := by
  induction h with
  | nil => exact .nil
  | keep hcut ih =>
    rcases pairwise_cons.mp hpair with ⟨hfirst, hpair⟩
    have hvalid' := fun y hy => hvalid y (mem_cons_of_mem _ hy)
    exact pairwise_cons.mpr ⟨hcut.lt_start hvalid' hfirst, ih hvalid' hpair⟩
  | @cut r ranges parts m hstart hstop hcut ih =>
    rcases pairwise_cons.mp hpair with ⟨hfirst, hpair⟩
    have hvalid' : ∀ y ∈ ⟨m + 1, r.stop⟩ :: ranges, y.Valid := by
      intro y hy
      rcases mem_cons.mp hy with rfl | hy
      · exact hstop
      · exact hvalid y (mem_cons_of_mem _ hy)
    refine pairwise_cons.mpr ⟨?_, ih hvalid' (pairwise_cons.mpr ⟨hfirst, hpair⟩)⟩
    refine hcut.lt_start hvalid' ?_
    intro y hy
    rcases mem_cons.mp hy with rfl | hy
    · exact Nat.lt_succ_self m
    · exact Nat.lt_trans hstop (hfirst y hy)

end

theorem blockCounts_eq : blockCounts parts = blockCounts ranges := by
  induction h with
  | nil => rfl
  | keep _ ih => rw [blockCounts_cons, blockCounts_cons, ih]
  | cut hstart hstop _ ih =>
    rw [blockCounts_cons, ih, blockCounts_cons, blockCounts_cons]
    simp only [blockCount]
    omega

end

theorem refl (ranges : List RangeInclusive) : Cut ranges ranges := by
  induction ranges with
  | nil => exact .nil
  | cons r ranges ih => exact .keep ih

/-- A part is not longer than the longest range. -/
theorem blockCount_le (h : Cut ranges parts) {len : Nat} (hle : ∀ r ∈ ranges, blockCount r ≤ len) :
    ∀ p ∈ parts, blockCount p ≤ len := by
  induction h with
  | nil => exact hle
  | keep _ ih =>
    intro p hp
    rcases mem_cons.mp hp with rfl | hp
    · exact hle p mem_cons_self
    · exact ih (fun r hr => hle r (mem_cons_of_mem _ hr)) p hp
  | @cut r ranges parts m hstart hstop _ ih =>
    have hr : r.stop - r.start + 1 ≤ len := hle r mem_cons_self
    intro p hp
    rcases mem_cons.mp hp with rfl | hp
    · show m - r.start + 1 ≤ len
      omega
    refine ih ?_ p hp
    intro q hq
    rcases mem_cons.mp hq with rfl | hq
    · show r.stop - (m + 1) + 1 ≤ len
      omega
    · exact hle q (mem_cons_of_mem r hq)

theorem keep_of (hrest : ∀ p, Cut parts p → Cut ranges p)
    (h : Cut (r :: parts) pieces) :
    Cut (r :: ranges) pieces := by
  generalize hl : r :: parts = l at h
  induction h generalizing r with
  | nil => cases hl
  | keep h =>
    cases hl
    exact .keep (hrest _ h)
  | cut hstart hstop _ ih =>
    cases hl
    exact .cut hstart hstop (ih rfl)

theorem cut_of {start m stop : Nat} (hstart : start ≤ m) (hstop : m < stop)
    (hrest : ∀ p, Cut parts p → Cut (⟨m + 1, stop⟩ :: ranges) p)
    (h : Cut (⟨start, m⟩ :: parts) pieces) : Cut (⟨start, stop⟩ :: ranges) pieces := by
  generalize hl : (⟨start, m⟩ : RangeInclusive) :: parts = l at h
  induction h generalizing start with
  | nil => cases hl
  | keep h =>
    cases hl
    exact .cut hstart hstop (hrest _ h)
  | cut hstart' hstop' _ ih =>
    cases hl
    exact .cut hstart' (Nat.lt_trans hstop' hstop) (ih hstop' rfl)

/-- Parts of parts are parts. -/
theorem trans (h : Cut ranges parts) (h' : Cut parts pieces) : Cut ranges pieces := by
  induction h generalizing pieces with
  | nil => exact h'
  | keep _ ih => exact keep_of (fun _ hp => ih hp) h'
  | cut hstart hstop _ ih => exact cut_of hstart hstop (fun _ hp => ih hp) h'

end Cut

/-! ## Limits for files -/

/-- The number of blocks of a range, in `u64`. -/
def rangeBlocks (r : RangeInclusive) : Nat := nextBlock (r.stop - r.start)

/-- The loop of `limit_ranges` from the current index on. Every iteration passes a range
or cuts off at least one block. -/
def limitLoop (maxLen : Nat) : Nat → List RangeInclusive → Option (List RangeInclusive)
  | _, [] => some []
  | 0, _ :: _ => none
  | fuel + 1, r :: ranges =>
      if r.start ≤ r.stop then
        if rangeBlocks r > maxLen then
          let newEnd := r.start + maxLen - 1
          (limitLoop maxLen fuel (⟨newEnd + 1, r.stop⟩ :: ranges)).map (⟨r.start, newEnd⟩ :: ·)
        else (limitLoop maxLen fuel ranges).map (r :: ·)
      else none

def limitRanges (ranges : List RangeInclusive) (maxLen : Nat) : Option (List RangeInclusive) :=
  if maxLen > 0 then limitLoop maxLen (blockCounts ranges) ranges else none

theorem rangeBlocks_eq (hlt : blockCount r < 2 ^ 64) :
    rangeBlocks r = blockCount r := Nat.mod_eq_of_lt hlt

theorem blockCount_lt (hu64 : r.stop < 2 ^ 64 - 1) : blockCount r < 2 ^ 64 := by
  unfold blockCount
  omega

/-- What is left of the first range without its first `len` blocks. -/
theorem split_head {len : Nat} (hpos : 0 < len) (hlong : len < blockCount r)
    (hvalid : ∀ y ∈ ranges, y.Valid) :
    (∀ y ∈ ⟨r.start + len - 1 + 1, r.stop⟩ :: ranges, RangeInclusive.Valid y) ∧
      blockCounts (⟨r.start + len - 1 + 1, r.stop⟩ :: ranges) + len =
        blockCount r + blockCounts ranges := by
  unfold blockCount at hlong
  constructor
  · intro y hy
    rcases mem_cons.mp hy with rfl | hy
    · show r.start + len - 1 + 1 ≤ r.stop
      omega
    · exact hvalid y hy
  · rw [blockCounts_cons]
    simp only [blockCount]
    omega

theorem limitLoop_cut {maxLen fuel : Nat} (hmax : 0 < maxLen) (hvalid : ∀ r ∈ ranges, r.Valid)
    (hlt : ∀ r ∈ ranges, blockCount r < 2 ^ 64) (hfuel : blockCounts ranges ≤ fuel) :
    ∃ parts, limitLoop maxLen fuel ranges = some parts ∧ Cut ranges parts ∧
      ∀ p ∈ parts, blockCount p ≤ maxLen := by
  induction fuel generalizing ranges with
  | zero =>
    rw [eq_nil_of_blockCounts hfuel]
    exact ⟨[], rfl, .nil, nofun⟩
  | succ fuel ih =>
    cases ranges with
    | nil => exact ⟨[], rfl, .nil, nofun⟩
    | cons r ranges =>
      have hr : r.start ≤ r.stop := hvalid r mem_cons_self
      have hlen := rangeBlocks_eq (hlt r mem_cons_self)
      have hvalid' := fun y hy => hvalid y (mem_cons_of_mem r hy)
      have hlt' := fun y hy => hlt y (mem_cons_of_mem r hy)
      have hpos := blockCount_pos r
      rw [blockCounts_cons] at hfuel
      by_cases hlong : rangeBlocks r > maxLen
      · have hsplit : maxLen < blockCount r := hlen ▸ hlong
        have hr64 := hlt r mem_cons_self
        rcases split_head hmax hsplit hvalid' with ⟨hvalid₁, hless⟩
        have hlt₁ : ∀ y ∈ ⟨r.start + maxLen - 1 + 1, r.stop⟩ :: ranges, blockCount y < 2 ^ 64 := by
          intro y hy
          rcases mem_cons.mp hy with rfl | hy
          · rw [blockCounts_cons] at hless
            omega
          · exact hlt' y hy
        rcases ih hvalid₁ hlt₁ (by omega) with ⟨parts, hparts, hcut, hsize⟩
        unfold blockCount at hsplit
        refine ⟨⟨r.start, r.start + maxLen - 1⟩ :: parts, ?_, .cut ?_ ?_ hcut, ?_⟩
        · simp only [limitLoop, if_pos hr, if_pos hlong, hparts, Option.map_some]
        · omega
        · omega
        · intro p hp
          rcases mem_cons.mp hp with rfl | hp
          · show r.start + maxLen - 1 - r.start + 1 ≤ maxLen
            omega
          · exact hsize p hp
      · rcases ih hvalid' hlt' (by omega) with ⟨parts, hparts, hcut, hsize⟩
        refine ⟨r :: parts, ?_, .keep hcut, ?_⟩
        · simp only [limitLoop, if_pos hr, if_neg hlong, hparts, Option.map_some]
        · intro p hp
          rcases mem_cons.mp hp with rfl | hp
          · exact hlen ▸ Nat.le_of_not_lt hlong
          · exact hsize p hp

/-- `limit_ranges` cuts ranges into parts of at most `maxLen` blocks. -/
theorem limitRanges_spec (hmax : 0 < maxLen) (hvalid : ∀ r ∈ ranges, r.Valid)
    (hlt : ∀ r ∈ ranges, blockCount r < 2 ^ 64) :
    ∃ parts, limitRanges ranges maxLen = some parts ∧ Cut ranges parts ∧
      ∀ p ∈ parts, blockCount p ≤ maxLen := by
  rw [limitRanges, if_pos hmax]
  exact limitLoop_cut hmax hvalid hlt (Nat.le_refl _)

theorem limitRanges_cut (hmax : 0 < maxLen) (hvalid : ∀ r ∈ ranges, r.Valid)
    (hu64 : ∀ r ∈ ranges, r.stop < 2 ^ 64 - 1) :
    ∃ parts, limitRanges ranges maxLen = some parts ∧ Cut ranges parts := by
  rcases limitRanges_spec hmax hvalid (fun r hr => blockCount_lt (hu64 r hr)) with
    ⟨parts, hparts, hcut, -⟩
  exact ⟨parts, hparts, hcut⟩

example : limitRanges [⟨1, 10⟩, ⟨15, 18⟩] 4 = some [⟨1, 4⟩, ⟨5, 8⟩, ⟨9, 10⟩, ⟨15, 18⟩] := by
  decide

/-! ## Partitions -/

def totalBlocks (ranges : List RangeInclusive) : Nat := (ranges.map rangeBlocks).sum % 2 ^ 64

/-- The loop of `split_and_partition`: the ranges left, the capacity left in the current
partition, the current partition and the full ones. -/
def partitionLoop (target : Nat) : Nat → List RangeInclusive → Nat → List RangeInclusive →
    List (List RangeInclusive) → Option (List (List RangeInclusive) × List RangeInclusive)
  | _, [], _, current, partitions => some (partitions, current)
  | 0, _ :: _, _, _, _ => none
  | fuel + 1, r :: ranges, capacity, current, partitions =>
      let len := rangeBlocks r
      if len > capacity then
        -- the partition is full
        let newEnd := r.start + capacity - 1
        partitionLoop target fuel (⟨newEnd + 1, r.stop⟩ :: ranges) target []
          (partitions ++ [current ++ [⟨r.start, newEnd⟩]])
      else if capacity - len = 0 then
        partitionLoop target fuel ranges target [] (partitions ++ [current ++ [r]])
      else partitionLoop target fuel ranges (capacity - len) (current ++ [r]) partitions

/-- At most `n` partitions of about equal size; `none` is a division by zero or a failed
assertion. -/
def splitAndPartition (ranges : List RangeInclusive) (n minPartitionBlocks : Nat) :
    Option (List (List RangeInclusive)) :=
  if ranges = [] then some []
  else if n = 0 then none
  else
    let target := max ((totalBlocks ranges + n - 1) / n) minPartitionBlocks
    match partitionLoop target (blockCounts ranges) ranges target [] [] with
    | none => none
    | some (partitions, current) =>
        if partitions.all fun p => decide (totalBlocks p ≥ minPartitionBlocks) then
          let partitions := if current = [] then partitions else partitions ++ [current]
          if partitions.length ≤ n then some partitions else none
        else none

variable {partitions : List (List RangeInclusive)}

theorem partitionLoop_cut {target fuel capacity : Nat} {ranges current : List RangeInclusive}
    (hvalid : ∀ r ∈ ranges, r.Valid) (hlt : blockCounts ranges < 2 ^ 64)
    (hfuel : blockCounts ranges ≤ fuel) (hcapacity : 0 < capacity)
    (hroom : blockCounts current + capacity = target)
    (hfull : ∀ p ∈ partitions, blockCounts p = target) :
    ∃ partitions' current' parts,
      partitionLoop target fuel ranges capacity current partitions = some (partitions', current') ∧
      Cut ranges parts ∧
      partitions'.flatten ++ current' = partitions.flatten ++ current ++ parts ∧
      (∀ p ∈ partitions', blockCounts p = target) ∧ blockCounts current' < target := by
  induction fuel generalizing ranges capacity current partitions with
  | zero =>
    rw [eq_nil_of_blockCounts hfuel]
    exact ⟨partitions, current, [], rfl, .nil, by simp, hfull, by omega⟩
  | succ fuel ih =>
    cases ranges with
    | nil => exact ⟨partitions, current, [], rfl, .nil, by simp, hfull, by omega⟩
    | cons r ranges =>
      have hvalid' := fun y hy => hvalid y (mem_cons_of_mem r hy)
      have hpos := blockCount_pos r
      rw [blockCounts_cons] at hfuel hlt
      have hlen : rangeBlocks r = blockCount r := rangeBlocks_eq (by omega)
      have hempty : blockCounts [] + target = target := Nat.zero_add target
      -- a partition that reaches the target is added to the full ones
      have hpush : ∀ last, blockCounts (current ++ [last]) = target →
          ∀ p ∈ partitions ++ [current ++ [last]], blockCounts p = target := by
        intro last hlast p hp
        rcases mem_append.mp hp with hp | hp
        · exact hfull p hp
        · rw [mem_singleton.mp hp]
          exact hlast
      unfold partitionLoop
      by_cases hlong : rangeBlocks r > capacity
      · rw [if_pos hlong]
        rw [hlen] at hlong
        rcases split_head hcapacity hlong hvalid' with ⟨hvalid₁, hless⟩
        unfold blockCount at hlong
        have hlast : blockCounts (current ++ [⟨r.start, r.start + capacity - 1⟩]) = target := by
          rw [blockCounts_append, blockCounts_cons, blockCounts_nil]
          simp only [blockCount]
          omega
        rcases ih hvalid₁ (by omega) (by omega) (by omega) hempty
            (hpush _ hlast) with ⟨partitions', current', parts, hloop, hcut, hflat, hrest⟩
        refine ⟨partitions', current', ⟨r.start, r.start + capacity - 1⟩ :: parts, hloop,
          .cut (by omega) (by omega) hcut, ?_, hrest⟩
        rw [hflat]
        simp
      · rw [if_neg hlong]
        rw [hlen] at hlong ⊢
        by_cases hzero : capacity - blockCount r = 0
        · rw [if_pos hzero]
          have hlast : blockCounts (current ++ [r]) = target := by
            rw [blockCounts_append, blockCounts_cons, blockCounts_nil]
            omega
          rcases ih hvalid' (by omega) (by omega) (by omega) hempty
              (hpush _ hlast) with ⟨partitions', current', parts, hloop, hcut, hflat, hrest⟩
          refine ⟨partitions', current', r :: parts, hloop, .keep hcut, ?_, hrest⟩
          rw [hflat]
          simp
        · rw [if_neg hzero]
          have hroom' : blockCounts (current ++ [r]) + (capacity - blockCount r) = target := by
            rw [blockCounts_append, blockCounts_cons, blockCounts_nil]
            omega
          rcases ih hvalid' (by omega) (by omega) (by omega) hroom' hfull with
            ⟨partitions', current', parts, hloop, hcut, hflat, hrest⟩
          refine ⟨partitions', current', r :: parts, hloop, .keep hcut, ?_, hrest⟩
          rw [hflat]
          simp

/-- Ranges without common blocks have at most as many blocks as the range they lie in. -/
theorem blockCounts_le {start stop : Nat} (hvalid : ∀ r ∈ ranges, r.Valid)
    (hpair : ranges.Pairwise RangeInclusive.Below)
    (hinside : ∀ r ∈ ranges, start ≤ r.start ∧ r.stop < stop) (hle : start ≤ stop) :
    start + blockCounts ranges ≤ stop := by
  induction ranges generalizing start with
  | nil => exact hle
  | cons r ranges ih =>
    rcases pairwise_cons.mp hpair with ⟨hfirst, hpair⟩
    have hr : r.start ≤ r.stop := hvalid r mem_cons_self
    have hrin := hinside r mem_cons_self
    have hrest : r.stop + 1 + blockCounts ranges ≤ stop := by
      apply ih (fun y hy => hvalid y (mem_cons_of_mem r hy)) hpair
      · intro y hy
        exact ⟨hfirst y hy, (hinside y (mem_cons_of_mem r hy)).2⟩
      · exact hrin.2
    rw [blockCounts_cons]
    unfold blockCount
    omega

theorem blockCount_le_of_mem (hr : r ∈ ranges) : blockCount r ≤ blockCounts ranges := by
  rcases append_of_mem hr with ⟨before, after, rfl⟩
  rw [blockCounts_append, blockCounts_cons]
  omega

theorem totalBlocks_eq (hlt : blockCounts ranges < 2 ^ 64) :
    totalBlocks ranges = blockCounts ranges := by
  have hmap : ranges.map rangeBlocks = ranges.map blockCount := map_congr_left fun r hr =>
      rangeBlocks_eq (Nat.lt_of_le_of_lt (blockCount_le_of_mem hr) hlt)
  rw [totalBlocks, hmap]
  exact Nat.mod_eq_of_lt hlt

/-- The blocks of full partitions. -/
theorem blockCounts_flatten {target : Nat} (hfull : ∀ p ∈ partitions, blockCounts p = target) :
    blockCounts partitions.flatten = partitions.length * target := by
  induction partitions with
  | nil => simp
  | cons p partitions ih =>
    rw [flatten_cons, blockCounts_append, hfull p mem_cons_self,
      ih fun q hq => hfull q (mem_cons_of_mem _ hq), length_cons, Nat.succ_mul, Nat.add_comm]

/-- The blocks of every partition but the last. -/
def targetPartitionBlocks (total n minPartitionBlocks : Nat) : Nat :=
  max ((total + n - 1) / n) minPartitionBlocks

/-- `n` targets are enough for all blocks. -/
theorem total_le_targets {total n minPartitionBlocks : Nat} (hn : 0 < n) :
    total ≤ targetPartitionBlocks total n minPartitionBlocks * n := by
  have hdiv := Nat.div_add_mod (total + n - 1) n
  have hmod := Nat.mod_lt (total + n - 1) hn
  rw [Nat.mul_comm] at hdiv
  have hceil : total ≤ (total + n - 1) / n * n := by omega
  exact hceil.trans (Nat.mul_le_mul_right n (Nat.le_max_left _ _))

/-- No assertion of `split_and_partition` fails if the number of blocks fits into `u64`: full
partitions of the target size and a last one of at most that size. -/
theorem splitAndPartition_spec {n minPartitionBlocks : Nat} (hvalid : ∀ r ∈ ranges, r.Valid)
    (hlt : blockCounts ranges < 2 ^ 64) (hn : 0 < n) (hmin : 0 < minPartitionBlocks) :
    ∃ partitions, splitAndPartition ranges n minPartitionBlocks = some partitions ∧
      partitions.length ≤ n ∧ Cut ranges partitions.flatten ∧
      (∀ p ∈ partitions.dropLast, blockCounts p =
        targetPartitionBlocks (blockCounts ranges) n minPartitionBlocks) ∧
      ∀ p ∈ partitions.getLast?, 0 < blockCounts p ∧
        blockCounts p ≤ targetPartitionBlocks (blockCounts ranges) n minPartitionBlocks := by
  unfold splitAndPartition
  by_cases hne : ranges = []
  · subst hne
    exact ⟨[], rfl, Nat.zero_le n, .nil, nofun, nofun⟩
  rw [if_neg hne, if_neg (Nat.pos_iff_ne_zero.mp hn), totalBlocks_eq hlt]
  have henough := @total_le_targets (blockCounts ranges) n minPartitionBlocks hn
  change ∃ partitions, (match partitionLoop
    (targetPartitionBlocks (blockCounts ranges) n minPartitionBlocks) _ _
    (targetPartitionBlocks (blockCounts ranges) n minPartitionBlocks) _ _ with
    | none => none
    | some (partitions, current) => _) = some partitions ∧ _
  have hmintarget : minPartitionBlocks ≤
      targetPartitionBlocks (blockCounts ranges) n minPartitionBlocks := Nat.le_max_right _ _
  generalize targetPartitionBlocks (blockCounts ranges) n minPartitionBlocks = target at *
  have hpos : 0 < target := Nat.lt_of_lt_of_le hmin hmintarget
  have hempty : blockCounts [] + target = target := Nat.zero_add target
  have hnone : ∀ p ∈ ([] : List (List RangeInclusive)), blockCounts p = target := nofun
  rcases partitionLoop_cut hvalid hlt (Nat.le_refl _) hpos hempty hnone with
    ⟨partitions, current, parts, hloop, hcut, hflat, hfull, hlast⟩
  rw [flatten_nil, nil_append, nil_append] at hflat
  have hcount : partitions.length * target + blockCounts current = blockCounts ranges := by
    rw [← blockCounts_flatten hfull, ← blockCounts_append, hflat, hcut.blockCounts_eq]
  have hassert : (partitions.all fun p => decide (totalBlocks p ≥ minPartitionBlocks)) = true := by
    rw [all_eq_true]
    intro p hp
    have hple : target ≤ partitions.length * target :=
      Nat.le_mul_of_pos_left target (length_pos_of_mem hp)
    rw [decide_eq_true_eq, totalBlocks_eq (by rw [hfull p hp]; omega), hfull p hp]
    exact hmintarget
  simp only [hloop, hassert, if_true]
  by_cases hcurrent : current = []
  · -- the last block filled a partition
    subst hcurrent
    rw [blockCounts_nil, Nat.add_zero] at hcount
    have hlen : partitions.length ≤ n := by
      apply Nat.le_of_mul_le_mul_right _ hpos
      rw [hcount, Nat.mul_comm]
      exact henough
    refine ⟨partitions, by rw [if_pos rfl, if_pos hlen], hlen, ?_, ?_, ?_⟩
    · rw [← append_nil partitions.flatten, hflat]
      exact hcut
    · exact fun p hp => hfull p ((dropLast_sublist _).subset hp)
    · intro p hp
      rw [hfull p (mem_of_getLast? hp)]
      exact ⟨hpos, Nat.le_refl _⟩
  · have hsome : 0 < blockCounts current := blockCounts_pos hcurrent
    have hlen : (partitions ++ [current]).length ≤ n := by
      rw [length_append, length_singleton]
      apply Nat.lt_of_mul_lt_mul_right (a := target)
      rw [Nat.mul_comm n]
      omega
    refine ⟨partitions ++ [current], by rw [if_neg hcurrent, if_pos hlen], hlen, ?_, ?_, ?_⟩
    · rw [flatten_append, flatten_singleton, hflat]
      exact hcut
    · rw [dropLast_concat]
      exact hfull
    · intro p hp
      rw [getLast?_concat] at hp
      cases hp
      exact ⟨hsome, Nat.le_of_lt hlast⟩

/-- Sorted ranges below the last block number have few enough blocks. -/
theorem splitAndPartition_cut {n minPartitionBlocks : Nat}
    (hvalid : ∀ r ∈ ranges, r.Valid) (hpair : ranges.Pairwise RangeInclusive.Below)
    (hu64 : ∀ r ∈ ranges, r.stop < 2 ^ 64 - 1) (hn : 0 < n) (hmin : 0 < minPartitionBlocks) :
    ∃ partitions, splitAndPartition ranges n minPartitionBlocks = some partitions ∧
      Cut ranges partitions.flatten := by
  have hlt : blockCounts ranges < 2 ^ 64 := by
    have hinside : ∀ r ∈ ranges, 0 ≤ r.start ∧ r.stop < 2 ^ 64 - 1 := fun r hr =>
      ⟨Nat.zero_le _, hu64 r hr⟩
    have hle := blockCounts_le hvalid hpair hinside (Nat.zero_le _)
    omega
  rcases splitAndPartition_spec hvalid hlt hn hmin with ⟨partitions, hsplit, -, hcut, -⟩
  exact ⟨partitions, hsplit, hcut⟩

/-- `split_and_partition` returns at most `n` partitions that hold the blocks of the ranges in
their order. All but the last have exactly the target size, and the last is not empty. -/
theorem splitAndPartition_balanced (ranges : List RangeInclusive) (n minPartitionBlocks : Nat)
    (hvalid : ∀ r ∈ ranges, r.Valid) (hpair : ranges.Pairwise RangeInclusive.Below)
    (hlt : blockCounts ranges < 2 ^ 64) (hn : 0 < n) (hmin : 0 < minPartitionBlocks) :
    ∃ partitions, splitAndPartition ranges n minPartitionBlocks = some partitions ∧
      partitions.length ≤ n ∧
      blockNumbers partitions.flatten = blockNumbers ranges ∧
      (∀ p ∈ partitions.flatten, p.Valid) ∧
      partitions.flatten.Pairwise RangeInclusive.Below ∧
      (∀ p ∈ partitions.dropLast,
        blockCounts p = max ((blockCounts ranges + n - 1) / n) minPartitionBlocks) ∧
      ∀ p ∈ partitions.getLast?, 1 ≤ blockCounts p ∧
        blockCounts p ≤ max ((blockCounts ranges + n - 1) / n) minPartitionBlocks := by
  rcases splitAndPartition_spec hvalid hlt hn hmin with
    ⟨partitions, hsplit, hlen, hcut, hfull, hlast⟩
  exact ⟨partitions, hsplit, hlen, hcut.blockNumbers_eq, hcut.valid hvalid,
    hcut.pairwise hvalid hpair, hfull, hlast⟩

/-- A range up to the last block number, in partitions of at least `2 ^ 62` blocks. -/
theorem splitAndPartition_balanced_full :
    ∃ partitions, splitAndPartition [⟨1, 2 ^ 64 - 1⟩] 3 (2 ^ 62) = some partitions ∧
      partitions.length ≤ 3 := by
  rcases splitAndPartition_balanced [⟨1, 2 ^ 64 - 1⟩] 3 (2 ^ 62) (by decide) (by simp) (by decide)
    (by decide) (by decide) with ⟨partitions, hsplit, hlen, -⟩
  exact ⟨partitions, hsplit, hlen⟩

example : splitAndPartition [⟨1, 5⟩, ⟨11, 20⟩] 5 10 = some [[⟨1, 5⟩, ⟨11, 15⟩], [⟨16, 20⟩]] := by
  decide

end CampNode

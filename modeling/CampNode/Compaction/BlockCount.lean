import CampNode.Compaction.Sizes
import Mathlib.Data.Finset.Card

/-!
# CampNode.Compaction.BlockCount — the number of blocks in a file

`SegmentSize::from` adds up the distinct counts of the row groups of a file. A block that two row
groups share is counted once: the greatest block number is kept, and if a row group begins with
it, one is subtracted.

Statistics are read as non-zero integers, so that a row group with block 0 is not counted at all.
`blocks_exact_iff` says that the number is right for the files without block 0, and for no other.
The bytes of a block number are read as an `i64`. It is only compared for equality, and stands here
as the number itself.
-/

namespace CampNode

open List Finset

/-! ## Metadata -/

structure ColumnStatistics where
  min : Option Nat
  max : Option Nat
  distinctCount : Option Nat

structure RowGroupMetaData where
  /-- The columns with their names. -/
  columns : List (String × Option ColumnStatistics)
  totalByteSize : Nat

/-- The metadata of a file. The generation and the time stamp are those that could be parsed. -/
structure ArrowReaderMetadata where
  numRows : Nat
  generation : Option Nat
  createdAt : Option Nat
  rowGroups : List RowGroupMetaData

def leBytesToNonzeroI64Opt (n : Nat) : Option Nat := if n = 0 then none else some n

def RowGroupMetaData.blockStatistics (rg : RowGroupMetaData) : Option ColumnStatistics :=
  (rg.columns.find? (·.1 = "_block_num")).bind (·.2)

/-- The blocks of a row group, and the greatest block number so far. -/
def getBlockCount (statistics : Option ColumnStatistics) (pmax : Nat) : Nat × Nat :=
  match statistics with
  | none => (0, pmax)
  | some statistics =>
      match statistics.max.bind leBytesToNonzeroI64Opt,
        statistics.min.bind leBytesToNonzeroI64Opt, statistics.distinctCount with
      | some max, some min, some blocks => (if min = pmax then blocks - 1 else blocks, max)
      | _, _, _ => (0, pmax)

/-- The sums over the row groups. -/
def addRowGroup (acc : Nat × Nat × Nat) (rg : RowGroupMetaData) : Nat × Nat × Nat :=
  let (blocks, pmax) := getBlockCount rg.blockStatistics acc.2.2
  (addU64 acc.1 rg.totalByteSize, addU64 acc.2.1 blocks, pmax)

def SegmentSize.ofMetadata (value : ArrowReaderMetadata) : SegmentSize :=
  let (bytes, blocks, _) := value.rowGroups.foldl addRowGroup (0, 0, 0)
  ⟨1, blocks, bytes, value.numRows, value.generation.getD 0, value.createdAt.getD 0⟩

/-! ## Exact statistics -/

/-- The statistics of a row group with these block numbers. -/
def exactStatistics (blocks : List Nat) : ColumnStatistics :=
  ⟨blocks.min?, blocks.max?, some blocks.toFinset.card⟩

variable {blocks : List Nat} {prev : Nat}

/-- A row group without rows or with block 0. -/
theorem getBlockCount_skipped (h : blocks = [] ∨ 0 ∈ blocks) :
    getBlockCount (some (exactStatistics blocks)) prev = (0, prev) := by
  rcases h with rfl | hzero
  · rfl
  · have hmin : blocks.min? = some 0 := min?_eq_some_iff.mpr ⟨hzero, fun _ _ => Nat.zero_le _⟩
    simp [getBlockCount, exactStatistics, hmin, leBytesToNonzeroI64Opt]

/-- The blocks of a row group that have not been counted. -/
theorem getBlockCount_exact (hle : ∀ b ∈ blocks, prev ≤ b) (hne : blocks ≠ []) (hzero : 0 ∉ blocks) :
    ∃ last ∈ blocks, (∀ b ∈ blocks, b ≤ last) ∧ getBlockCount (some (exactStatistics blocks)) prev =
        ((blocks.toFinset.erase prev).card, last) := by
  obtain ⟨first, hmin⟩ := Option.isSome_iff_exists.mp (isSome_min?_of_ne_nil hne)
  obtain ⟨last, hmax⟩ := Option.isSome_iff_exists.mp (isSome_max?_of_ne_nil hne)
  obtain ⟨hfirst, hfirst_le⟩ := min?_eq_some_iff.mp hmin
  obtain ⟨hlast, hlast_le⟩ := max?_eq_some_iff.mp hmax
  refine ⟨last, hlast, hlast_le, ?_⟩
  have hpos : ∀ b ∈ blocks, b ≠ 0 := fun b hb h => hzero (h ▸ hb)
  -- a block that was counted before is the first one
  have hmem : prev ∈ blocks.toFinset ↔ first = prev := by
    rw [mem_toFinset]
    constructor
    · exact fun h => Nat.le_antisymm (hfirst_le prev h) (hle first hfirst)
    · rintro rfl
      exact hfirst
  rw [card_erase_eq_ite, if_congr hmem rfl rfl]
  simp [getBlockCount, exactStatistics, hmin, hmax, leBytesToNonzeroI64Opt, hpos _ hfirst,
    hpos _ hlast]

/-! ## Files -/

/-- The blocks of the row groups that are counted. -/
def counted (groups : List (List Nat)) : Finset Nat :=
  (groups.filter (0 ∉ ·)).flatten.toFinset

theorem foldl_addRowGroup {rowGroups : List RowGroupMetaData} {groups : List (List Nat)}
    {bytes count : Nat}
    (hexact : rowGroups.map (·.blockStatistics) = groups.map (some ∘ exactStatistics))
    (hsorted : (prev :: groups.flatten).Pairwise (· ≤ ·))
    (hfits : count + ((counted groups).erase prev).card < 2 ^ 64) :
    (rowGroups.foldl addRowGroup (bytes, count, prev)).2.1 =
      count + ((counted groups).erase prev).card := by
  induction groups generalizing rowGroups bytes count prev with
  | nil =>
    rw [map_eq_nil_iff.mp hexact]
    rfl
  | cons blocks groups ih =>
    obtain ⟨rg, rest, rfl, hrg, hrest⟩ := map_eq_cons_iff.mp hexact
    obtain ⟨hle, hsorted⟩ := pairwise_cons.mp hsorted
    obtain ⟨-, hgroups, hcross⟩ := pairwise_append.mp hsorted
    rw [foldl_cons, addRowGroup, hrg, Function.comp_apply]
    by_cases hskip : blocks = [] ∨ 0 ∈ blocks
    · have hcounted : counted (blocks :: groups) = counted groups := by
        rcases hskip with rfl | hzero
        · simp [counted]
        · simp [counted, hzero]
      rw [hcounted] at hfits ⊢
      simp only [getBlockCount_skipped hskip]
      rw [@addU64_of_lt count 0 (by omega), Nat.add_zero]
      exact ih hrest (pairwise_cons.mpr ⟨fun b hb => hle b (by simp [hb]), hgroups⟩) hfits
    rw [not_or] at hskip
    obtain ⟨last, hlast, hlast_le, hcount⟩ := getBlockCount_exact
      (fun b hb => hle b (by simp [hb])) hskip.1 hskip.2
    have hcounted : counted (blocks :: groups) = blocks.toFinset ∪ counted groups := by
      simp [counted, hskip.2]
    have hlast_le' : ∀ b ∈ counted groups, last ≤ b := by
      intro b hb
      refine hcross last hlast b (mem_flatten.mpr ?_)
      obtain ⟨g, hg, hb⟩ := mem_flatten.mp (mem_toFinset.mp hb)
      exact ⟨g, (mem_filter.mp hg).1, hb⟩
    -- later blocks are new, apart from the last one of the row group
    have hsplit : ((counted (blocks :: groups)).erase prev).card =
        (blocks.toFinset.erase prev).card + ((counted groups).erase last).card := by
      rw [hcounted, ← card_union_of_disjoint]
      · congr 1
        ext b
        simp only [mem_erase, mem_union, mem_toFinset]
        grind
      · rw [Finset.disjoint_left]
        simp only [mem_erase, mem_toFinset]
        grind
    rw [hsplit] at hfits ⊢
    simp only [hcount]
    rw [@addU64_of_lt count _ (by omega), ← Nat.add_assoc]
    exact ih hrest (pairwise_cons.mpr ⟨hcross last hlast, hgroups⟩) (by omega)

/-- The number of blocks is that of the distinct block numbers in the file if and only if block 0 is
not in it. -/
theorem blocks_exact_iff {metadata : ArrowReaderMetadata} {groups : List (List Nat)}
    (hexact : metadata.rowGroups.map (·.blockStatistics) = groups.map (some ∘ exactStatistics))
    (hsorted : groups.flatten.Pairwise (· ≤ ·)) (hu64 : ∀ b ∈ groups.flatten, b < 2 ^ 64) :
    (SegmentSize.ofMetadata metadata).blocks = groups.flatten.toFinset.card ↔
      0 ∉ groups.flatten := by
  have hsub : counted groups ⊆ groups.flatten.toFinset.erase 0 := by
    intro b hb
    obtain ⟨g, hg, hb⟩ := mem_flatten.mp (mem_toFinset.mp hb)
    obtain ⟨hg, hzero⟩ := mem_filter.mp hg
    refine mem_erase.mpr ⟨?_, mem_toFinset.mpr (mem_flatten.mpr ⟨g, hg, hb⟩)⟩
    rintro rfl
    exact of_decide_eq_true hzero hb
  have hfits : (counted groups).card < 2 ^ 64 := by
    have hrange : groups.flatten.toFinset ⊆ range (2 ^ 64) := fun b hb =>
      Finset.mem_range.mpr (hu64 b (mem_toFinset.mp hb))
    have hle := card_le_card (hsub.trans (erase_subset_erase 0 hrange))
    have hlt := Finset.card_erase_lt_of_mem (Finset.mem_range.mpr (Nat.two_pow_pos 64))
    rw [card_range] at hlt
    exact hle.trans_lt hlt
  have hblocks : (SegmentSize.ofMetadata metadata).blocks = (counted groups).card := by
    have herase : (counted groups).erase 0 = counted groups :=
      erase_eq_of_notMem fun h => (mem_erase.mp (hsub h)).1 rfl
    have hfold := @foldl_addRowGroup 0 _ _ 0 0 hexact
      (pairwise_cons.mpr ⟨fun _ _ => Nat.zero_le _, hsorted⟩)
    rw [herase, Nat.zero_add] at hfold
    exact hfold hfits
  rw [hblocks]
  by_cases hzero : 0 ∈ groups.flatten
  · refine iff_of_false (Nat.ne_of_lt ?_) (not_not.mpr hzero)
    exact (card_le_card hsub).trans_lt
      (card_erase_lt_of_mem (mem_toFinset.mpr hzero))
  · refine iff_of_true ?_ hzero
    have hall : groups.filter (0 ∉ ·) = groups :=
      filter_eq_self.mpr fun g hg => decide_eq_true fun h =>
        hzero (mem_flatten.mpr ⟨g, hg, h⟩)
    rw [counted, hall]

/-- A file with these block numbers in its row groups. -/
def fileOfBlocks (groups : List (List Nat)) : ArrowReaderMetadata :=
  ⟨groups.flatten.length, none, none,
    groups.map fun blocks => ⟨[("_block_num", some (exactStatistics blocks))], 1⟩⟩

/-- Three blocks, of which one is in two row groups. -/
theorem blocks_exact_shared : (SegmentSize.ofMetadata (fileOfBlocks [[1, 2], [2, 3]])).blocks = 3 :=
  (@blocks_exact_iff (fileOfBlocks [[1, 2], [2, 3]]) [[1, 2], [2, 3]] rfl (by decide)
    (by decide)).mpr (by decide)

/-- Two blocks that are not counted. -/
theorem blocks_not_exact :
    (SegmentSize.ofMetadata (fileOfBlocks [[0, 1]])).blocks = 0 ∧ [0, 1].toFinset.card = 2 := by
  decide +kernel

end CampNode

import Mathlib.Algebra.GroupWithZero.Nat
import Mathlib.Data.List.Induction
import Mathlib.Tactic.Common

/-!
# CampNode.Compaction.Sizes — sizes of files and the limits of the compaction algorithm

`SegmentSize` and `Overflow` of `common/src/metadata/size.rs`, and the tests that
`dump/src/compaction/algorithm.rs` makes on sizes.

The fields of a size are `u64`s (the length a `usize`, the time stamp a `u128`), and their sums
wrap around. A limit of 0 switches a dimension off: its test is skipped, and a skipped test
is neutral in the disjunction of tests.
-/

namespace CampNode

/-- Wrapping addition of `u64`. -/
def addU64 (a b : Nat) : Nat := (a + b) % 2 ^ 64

theorem addU64_of_lt {a b : Nat} (h : a + b < 2 ^ 64) : addU64 a b = a + b := Nat.mod_eq_of_lt h

/-- The size of one or more files. -/
structure SegmentSize where
  length : Nat := 0
  blocks : Nat := 0
  bytes : Nat := 0
  rows : Nat := 0
  generation : Nat := 0
  createdAt : Nat := 0
deriving DecidableEq, Repr

namespace SegmentSize

/-- `SegmentSize::default()`. -/
def empty : SegmentSize := {}

variable (sizes : List SegmentSize) (self other : SegmentSize)

def add : SegmentSize where
  length := addU64 self.length other.length
  blocks := addU64 self.blocks other.blocks
  bytes := addU64 self.bytes other.bytes
  rows := addU64 self.rows other.rows
  generation := max self.generation other.generation
  createdAt := if self.createdAt = 0 then other.createdAt
    else if other.createdAt = 0 then self.createdAt
    else min self.createdAt other.createdAt

def addAssign : SegmentSize where
  length := addU64 self.length other.length
  blocks := addU64 self.blocks other.blocks
  bytes := addU64 self.bytes other.bytes
  rows := addU64 self.rows other.rows
  generation := max self.generation other.generation
  createdAt := match self.createdAt, other.createdAt with
    | 0, created => created
    | created, 0 => created
    | created, created' => min created created'

/-- Both additions of the source compute the same. -/
theorem addAssign_eq : self.addAssign other = self.add other := by
  unfold addAssign add
  congr 1
  split
  · rename_i h
    rw [if_pos h]
  · rename_i h h'
    rw [if_neg h', if_pos h]
  · rename_i h h'
    rw [if_neg h, if_neg h']

theorem add_comm (a b : SegmentSize) : a.add b = b.add a := by
  simp only [add, addU64, Nat.add_comm, Nat.max_comm, SegmentSize.mk.injEq, true_and]
  split
  · rename_i h
    split
    · rename_i h'
      rw [h, h']
    · rfl
  · split
    · rfl
    · exact Nat.min_comm _ _

/-- `FromIterator`: the sum of sizes. -/
def total : SegmentSize := sizes.foldl add empty

theorem total_concat (size : SegmentSize) : total (sizes ++ [size]) = (total sizes).add size := by
  unfold total
  rw [List.foldl_append]
  rfl

end SegmentSize

/-- The dimensions in which the size of a partition is limited. -/
inductive Dimension where
  | blocks
  | bytes
  | rows
deriving DecidableEq, Repr

namespace Dimension

def of : Dimension → SegmentSize → Nat
  | blocks => (·.blocks)
  | bytes => (·.bytes)
  | rows => (·.rows)

end Dimension

/-! ## Overflow -/

/-- A ratio of non-zero `u64`s. -/
structure Overflow where
  numerator : Nat
  denominator : Nat
  numerator_pos : 0 < numerator
  denominator_pos : 0 < denominator
deriving DecidableEq

/-- The limit times the ratio, or the limit itself if the product does not fit. -/
def Overflow.softLimit (overflow : Overflow) (value : Nat) : Nat :=
  if value * overflow.numerator < 2 ^ 64 then value * overflow.numerator / overflow.denominator
  else value

/-- The soft limit of a value is the exact one whenever that fits, and not above the soft limit of a
greater value, if and only if the product fits and neither the product of the greater value is too
large nor that value below the limit, or the product does not fit and the exact limit does not
either or is the value itself. -/
theorem softLimit_exact_iff (overflow : Overflow) {value greater : Nat} (hle : value ≤ greater) :
    ((value * overflow.numerator / overflow.denominator < 2 ^ 64 →
        overflow.softLimit value = value * overflow.numerator / overflow.denominator) ∧
      overflow.softLimit value ≤ overflow.softLimit greater) ↔
    if value * overflow.numerator < 2 ^ 64 then
      greater * overflow.numerator < 2 ^ 64 ∨
        value * overflow.numerator / overflow.denominator ≤ greater
    else
      2 ^ 64 ≤ value * overflow.numerator / overflow.denominator ∨
        value * overflow.numerator / overflow.denominator = value := by
  have hproduct : value * overflow.numerator ≤ greater * overflow.numerator :=
    Nat.mul_le_mul_right _ hle
  have hquotient := Nat.div_le_div_right (c := overflow.denominator) hproduct
  unfold Overflow.softLimit
  split_ifs with hvalue hgreater hgreater
  · exact iff_of_true ⟨fun _ => rfl, hquotient⟩ (.inl hgreater)
  · omega
  · omega
  · omega

/-- Three and five at 4/3. -/
theorem softLimit_exact_three :
    ∃ overflow : Overflow, overflow.numerator = 4 ∧ overflow.denominator = 3 ∧
      overflow.softLimit 3 = 4 ∧ overflow.softLimit 3 ≤ overflow.softLimit 5 := by
  refine ⟨⟨4, 3, by decide, by decide⟩, rfl, rfl, rfl, ?_⟩
  exact ((softLimit_exact_iff ⟨4, 3, _, _⟩ (by decide : 3 ≤ 5)).mpr (by decide)).2

/-- At 4/3 the limit of `2 ^ 62` fits and is not returned, and it is below the one of
`2 ^ 62 - 1`. -/
theorem softLimit_not_exact :
    ∃ overflow : Overflow, overflow.numerator = 4 ∧ overflow.denominator = 3 ∧
      2 ^ 62 * 4 / 3 < 2 ^ 64 ∧ overflow.softLimit (2 ^ 62) = 2 ^ 62 ∧
      overflow.softLimit (2 ^ 62) < overflow.softLimit (2 ^ 62 - 1) :=
  ⟨⟨4, 3, by decide, by decide⟩, rfl, rfl, by decide, by decide, by decide⟩

/-! ## Tests -/

inductive TestResult where
  | activated (result : Bool)
  | skipped
deriving DecidableEq, Repr

namespace TestResult

def or : TestResult → TestResult → TestResult
  | activated a, activated b => activated (a || b)
  | skipped, b => b
  | a, skipped => a

def not : TestResult → TestResult
  | activated a => activated !a
  | skipped => skipped

def deref : TestResult → Bool
  | activated a => a
  | skipped => false

@[simp] theorem skipped_or (b : TestResult) : skipped.or b = b := rfl

end TestResult

/-! ## Limits -/

structure SegmentSizeLimit where
  size : SegmentSize
  overflow : Overflow
deriving DecidableEq

namespace SegmentSizeLimit

variable (self : SegmentSizeLimit) (segment : SegmentSize)

def isUnbounded : Bool :=
  self.size.blocks == 0 && self.size.bytes == 0 && self.size.rows == 0 &&
    self.size.length == 0 && self.size.generation == 0

/-- The test of one dimension, which is skipped without a limit. -/
def reaches (overflow : Overflow) (limit value : Nat) : TestResult :=
  if limit = 0 then .skipped else .activated (overflow.softLimit limit ≤ value)

/-- The results for the size, the number of files and the generation. -/
def isExceeded : TestResult × TestResult × TestResult :=
  let blocksGe := reaches self.overflow self.size.blocks segment.blocks
  let bytesGe := reaches self.overflow self.size.bytes segment.bytes
  let rowsGe := reaches self.overflow self.size.rows segment.rows
  let generationGe := reaches self.overflow self.size.generation segment.generation
  let lengthGe := reaches self.overflow self.size.length segment.length
  ((blocksGe.or bytesGe).or rowsGe, lengthGe, generationGe)

def isLive : TestResult :=
  let (sizeExceeded, lengthExceeded, generationExceeded) := self.isExceeded segment
  ((sizeExceeded.or lengthExceeded).or generationExceeded).not

end SegmentSizeLimit

/-! ## The algorithm -/

/-- `Live < Hot < Cold`. -/
inductive FileState where
  | live
  | hot
  | cold
deriving DecidableEq, Repr

/-- The stricter state of two. -/
def FileState.max : FileState → FileState → FileState
  | .cold, _ => .cold
  | _, .cold => .cold
  | .hot, _ => .hot
  | _, .hot => .hot
  | .live, .live => .live

structure CompactionAlgorithm where
  /-- In nanoseconds. -/
  cooldownDuration : Nat
  targetPartitionSize : SegmentSizeLimit
  eagerCompactionLimit : SegmentSizeLimit
deriving DecidableEq

/-- `Cooldown::is_hot` at the time `now`, in microseconds. -/
def isHot (cooldown now createdAt : Nat) : TestResult :=
  if cooldown = 0 then .skipped
  else .activated (now < min (createdAt + cooldown / 1000) (2 ^ 128 - 1))

namespace CompactionAlgorithm

def fileState (self : CompactionAlgorithm) (now : Nat) (segment : SegmentSize) : FileState :=
  if (self.eagerCompactionLimit.isLive segment).deref then .live
  else
    match isHot self.cooldownDuration now segment.createdAt with
    | .skipped => .hot
    | .activated true => .hot
    | .activated false => .cold

/-- Whether a file of size `candidate` joins a group of size `group`. The clock is read for
each of the two states. -/
def predicate (self : CompactionAlgorithm) (now now' : Nat) (group candidate : SegmentSize) :
    Bool :=
  let state := (self.fileState now group).max (self.fileState now' candidate)
  let sizeExceeded := (self.targetPartitionSize.isExceeded (candidate.add group)).1
  if state = .live then
    -- The source returns the test as it is, not its negation.
    sizeExceeded.deref
  else if state = .hot then
    group.generation == candidate.generation && !sizeExceeded.deref
  else !sizeExceeded.deref

/-- The segment is live under the eager limit. -/
def isLive (self : CompactionAlgorithm) (segment : SegmentSize) : Bool :=
  (self.eagerCompactionLimit.isLive segment).deref

end CompactionAlgorithm

end CampNode

import CampNode.Incremental.Excess

/-!
# CampNode.Incremental.Law — microbatches add up

The law that makes incremental materialization correct: what a plan computes from
the blocks below `start`, together with what its incremental version computes for
`[start, stop]`, is what the plan computes from the blocks up to `stop`.

It holds for plans of linear operators and inner joins (`incremental_law`). The
incrementalizer also accepts semi joins, as projections of inner joins. For them the law
holds only where no row is doubled (`incremental_law_iff`): a row that finds partners in
two microbatches is emitted in both.
-/

namespace CampNode

variable {Row : Type}

namespace LogicalPlan

mutual

/-- The plan is built from table scans, values, projections, filters, unions and
inner joins. -/
def Supported : LogicalPlan Row → Prop
  | .tableScan _ => True
  | .values _ => True
  | .emptyRelation oneRow => oneRow = none
  | .projection _ input => Supported input
  | .filter _ input => Supported input
  | .union inputs => AllSupported inputs
  | .join spec left right => spec.joinType = .inner ∧ Supported left ∧ Supported right
  | .other _ _ _ _ => False

def AllSupported : List (LogicalPlan Row) → Prop
  | [] => True
  | input :: inputs => Supported input ∧ AllSupported inputs

end

mutual

theorem Supported.streamable (plan : LogicalPlan Row) (h : plan.Supported) : plan.Streamable := by
  match plan with
  | .tableScan _ => exact trivial
  | .values _ => exact trivial
  | .emptyRelation _ => exact trivial
  | .projection _ input => exact Supported.streamable input h
  | .filter _ input => exact Supported.streamable input h
  | .union inputs => exact AllSupported.streamable inputs h
  | .join _ left right =>
    exact ⟨Supported.streamable left h.2.1, Supported.streamable right h.2.2⟩
  | .other _ _ _ _ => exact absurd h id

theorem AllSupported.streamable (plans : List (LogicalPlan Row)) (h : AllSupported plans) :
    AllStreamable plans := by
  match plans with
  | [] => exact trivial
  | plan :: plans => exact ⟨Supported.streamable plan h.1, AllSupported.streamable plans h.2⟩

end

end LogicalPlan

section Law

variable {blockNum : Row → Option Nat} {start stop : Nat} {tables : Tables Row}

/-! ## Plans without doubled rows -/

namespace LogicalPlan

mutual

/-- Linear operators and inner joins double no rows. -/
theorem Supported.doubled_eq_zero (plan : LogicalPlan Row) (h : plan.Supported) :
    plan.doubled blockNum start stop tables = 0 := by
  match plan with
  | .tableScan _ => rfl
  | .values _ => rfl
  | .emptyRelation oneRow =>
    have hnone : oneRow = none := h
    subst hnone
    rfl
  | .projection _ input =>
    rw [doubled, Supported.doubled_eq_zero input h]
    rfl
  | .filter _ input =>
    rw [doubled, Supported.doubled_eq_zero input h]
    rfl
  | .union inputs => exact AllSupported.doubledAll_sum_eq_zero inputs h
  | .join spec left right =>
    rcases h with ⟨hinner, hleft, hright⟩
    rw [doubled, Supported.doubled_eq_zero left hleft, Supported.doubled_eq_zero right hright]
    simp [JoinStruct.doubled, hinner, JoinStruct.inner]
  | .other _ _ _ _ => exact absurd h id

theorem AllSupported.doubledAll_sum_eq_zero (plans : List (LogicalPlan Row))
    (h : AllSupported plans) : (doubledAll blockNum start stop tables plans).sum = 0 := by
  match plans with
  | [] => rfl
  | plan :: plans =>
    rw [doubledAll, List.sum_cons, Supported.doubled_eq_zero plan h.1,
      AllSupported.doubledAll_sum_eq_zero plans h.2, add_zero]

end

end LogicalPlan

/-! ## The law -/

/-- For every accepted plan of scans, values, projections, filters, unions and
inner joins, the rows on the blocks below `start` and the rows of the incremental
plan for `[start, stop]` are together the rows on the blocks up to `stop`. -/
theorem incremental_law (blockNum : Row → Option Nat) (start stop : Nat) (tables : Tables Row)
    (hle : start ≤ stop) (plan output : LogicalPlan Row) (hplan : plan.Supported)
    (h : incrementalizePlan blockNum start stop plan = .ok output) :
    plan.eval (tables.below blockNum start) + output.eval tables =
      plan.eval (tables.upTo blockNum stop) := by
  rw [LogicalPlan.eval_delta hle plan output (LogicalPlan.Supported.streamable plan hplan) h,
    LogicalPlan.Supported.doubled_eq_zero plan hplan, add_zero]

/-- A base table of the dataset. -/
def baseSource : TableSource := ⟨true, true, .base, false, "TableSnapshot"⟩

/-- Rows are pairs of a block number and a value. -/
def baseScan (table : String) : LogicalPlan (Nat × Nat) :=
  .tableScan ⟨table, baseSource, [], id, table⟩

/-- Blocks joined with their logs by block number, and a constant row. -/
def blocksWithLogs : LogicalPlan (Nat × Nat) :=
  .union [.projection (fun r => (r.1, r.2 + 1))
      (.join ⟨.inner, fun l r => l.1 == r.1, fun l r => (l.1, r.2), id, id, fun r _ => r⟩
        (baseScan "blocks") (.filter (fun r => decide (0 < r.2)) (baseScan "logs"))),
    .values [(0, 7)]]

/-- The plan is accepted: its join is not below another. -/
theorem blocksWithLogs_accepted :
    ∃ output, incrementalizePlan (fun r : Nat × Nat => some r.1) 5 9 blocksWithLogs =
      .ok output := by
  unfold incrementalizePlan blocksWithLogs baseScan
  exact ⟨_, rfl⟩

theorem blocksWithLogs_incremental :
    ∃ output, incrementalizePlan (fun r : Nat × Nat => some r.1) 5 9 blocksWithLogs = .ok output ∧
      blocksWithLogs.eval (Tables.below (fun r => some r.1) (fun _ => {(4, 1), (6, 2)}) 5) +
        output.eval (fun _ => {(4, 1), (6, 2)}) =
      blocksWithLogs.eval (Tables.upTo (fun r => some r.1) (fun _ => {(4, 1), (6, 2)}) 9) := by
  rcases blocksWithLogs_accepted with ⟨output, houtput⟩
  refine ⟨output, houtput, incremental_law _ 5 9 _ (by decide) _ _ ?_ houtput⟩
  simp [blocksWithLogs, baseScan, LogicalPlan.Supported, LogicalPlan.AllSupported]

/-! ## Semi joins -/

/-- For every accepted plan of linear operators, inner and semi joins, the law holds if and
only if no row is doubled. -/
theorem incremental_law_iff (blockNum : Row → Option Nat) (start stop : Nat)
    (tables : Tables Row) (hle : start ≤ stop) (plan output : LogicalPlan Row)
    (hplan : plan.Streamable) (h : incrementalizePlan blockNum start stop plan = .ok output) :
    plan.eval (tables.below blockNum start) + output.eval tables =
        plan.eval (tables.upTo blockNum stop) ↔
      plan.doubled blockNum start stop tables = 0 := by
  rw [LogicalPlan.eval_delta hle plan output hplan h]
  exact add_eq_left

/-- Blocks with a log of the same value. -/
def blocksWithSomeLog (joinType : JoinType) : LogicalPlan (Nat × Nat) :=
  .join ⟨joinType, fun l r => l.2 == r.2, fun l r => (l.1, r.2), id, id, fun r _ => r⟩
    (baseScan "blocks") (baseScan "logs")

/-- One block, and two logs of its value in blocks `first` and `second`. -/
def blockWithTwoLogs (first second : Nat) : Tables (Nat × Nat) := fun name =>
  if name = "blocks" then {(4, 1)} else {(first, 1), (second, 1)}

/-- The plan is accepted for every join type that the incrementalizer accepts. -/
theorem blocksWithSomeLog_accepted {joinType : JoinType} {kind : IncrementalOpKind}
    (h : joinType.incrementalOpKind = .ok kind) :
    ∃ output, incrementalizePlan (fun r : Nat × Nat => some r.1) 5 9
      (blocksWithSomeLog joinType) = .ok output := by
  unfold incrementalizePlan blocksWithSomeLog baseScan
  simp only [LogicalPlan.rewrite, h]
  exact ⟨_, rfl⟩

theorem blocksWithSomeLog_streamable (joinType : JoinType) :
    (blocksWithSomeLog joinType).Streamable := ⟨trivial, trivial⟩

/-- One log below the microbatch and one in it: the block is there already and is added
once more. -/
theorem semi_join_doubles_row : ∃ output, incrementalizePlan (fun r : Nat × Nat => some r.1) 5 9
        (blocksWithSomeLog .leftSemi) = .ok output ∧
      output.eval (blockWithTwoLogs 4 6) = {(4, 1)} ∧
      (blocksWithSomeLog .leftSemi).eval
          (Tables.below (fun r => some r.1) (blockWithTwoLogs 4 6) 5) +
        output.eval (blockWithTwoLogs 4 6) ≠
      (blocksWithSomeLog .leftSemi).eval
        (Tables.upTo (fun r => some r.1) (blockWithTwoLogs 4 6) 9) := by
  refine ⟨_, rfl, ?_, ?_⟩
  · decide
  · decide

/-- Both logs in the microbatch: the block is added once. -/
theorem incremental_law_iff_same_batch :
    ∃ output, incrementalizePlan (fun r : Nat × Nat => some r.1) 5 9
        (blocksWithSomeLog .leftSemi) = .ok output ∧
      (blocksWithSomeLog .leftSemi).eval
          (Tables.below (fun r => some r.1) (blockWithTwoLogs 6 7) 5) +
        output.eval (blockWithTwoLogs 6 7) =
      (blocksWithSomeLog .leftSemi).eval
        (Tables.upTo (fun r => some r.1) (blockWithTwoLogs 6 7) 9) := by
  rcases blocksWithSomeLog_accepted (rfl : JoinType.leftSemi.incrementalOpKind = _) with
    ⟨output, houtput⟩
  refine ⟨output, houtput, ?_⟩
  refine (incremental_law_iff _ 5 9 _ (by decide) _ output
    (blocksWithSomeLog_streamable _) houtput).mpr ?_
  decide

/-! ## Runs of microbatches -/

/-- A microbatch and the snapshots that it is executed against. -/
structure ExecutedMicrobatch (Row : Type) where
  start : Nat
  stop : Nat
  tables : Tables Row

variable (blockNum tables) in
/-- The microbatches follow one another from block `first` to the one before `next`. The tables may
change between them, but up to its end each finds the given ones. -/
def Consecutive : Nat → List (ExecutedMicrobatch Row) → Nat → Prop
  | first, [], next => first = next
  | first, m :: rest, next => m.start = first ∧ m.start ≤ m.stop ∧
      m.tables.upTo blockNum m.stop = tables.upTo blockNum m.stop ∧
      Consecutive (m.stop + 1) rest next

variable {plan : LogicalPlan Row} {ms : List (ExecutedMicrobatch Row)} {first next : Nat}
  {rows : Multiset Row}

variable (blockNum plan) in
/-- The rows that the loop of `StreamingQuery::execute` sends. -/
def executeMicrobatches : List (ExecutedMicrobatch Row) → Except IncrementalizeError (Multiset Row)
  | [] => .ok 0
  | m :: rest => do
      let output ← incrementalizePlan blockNum m.start m.stop plan
      let rows ← executeMicrobatches rest
      .ok (output.eval m.tables + rows)

theorem Tables.upTo_eq_below : tables.upTo blockNum stop = tables.below blockNum (stop + 1) := by
  funext name
  simp only [upTo, below, Nat.lt_add_one_iff]

theorem Tables.below_upTo (hle : start ≤ stop) :
    (tables.upTo blockNum stop).below blockNum start = tables.below blockNum start := by
  funext name
  rw [below, upTo, Multiset.filter_filter]
  refine Multiset.filter_congr fun r _ => and_iff_left_of_imp ?_
  cases blockNum r with
  | none => exact id
  | some b =>
    simp only [Option.any_some, decide_eq_true_eq]
    omega

variable (blockNum plan ms) in
def doubledRows : Multiset Row :=
  (ms.map fun m => plan.doubled blockNum m.start m.stop m.tables).sum

/-- Over a whole run the rows that are sent are those of the plan and the doubled ones, and a
supported plan doubles none. -/
theorem microbatches_add_up (hplan : plan.Streamable)
    (hms : Consecutive blockNum tables first ms next)
    (h : executeMicrobatches blockNum plan ms = .ok rows) :
    plan.eval (tables.below blockNum first) + rows =
        plan.eval (tables.below blockNum next) + doubledRows blockNum plan ms ∧
      (plan.Supported → doubledRows blockNum plan ms = 0) := by
  constructor
  · induction ms generalizing first rows with
    | nil =>
      cases h
      cases hms
      rfl
    | cons m ms ih =>
      rcases hms with ⟨rfl, hle, hagree, hms⟩
      rcases except_bind_ok h with ⟨output, houtput, h⟩
      rcases except_bind_ok h with ⟨rest, hrest, h⟩
      cases h
      have hdelta := @LogicalPlan.eval_delta Row blockNum m.start m.stop m.tables hle plan output
        hplan houtput
      rw [← Tables.below_upTo hle, hagree, Tables.below_upTo hle, Tables.upTo_eq_below] at hdelta
      rw [← add_assoc, hdelta, add_right_comm, ih hms hrest, doubledRows, doubledRows,
        List.map_cons, List.sum_cons, add_right_comm, add_assoc]
  · intro hsupported
    simp [doubledRows, LogicalPlan.Supported.doubled_eq_zero plan hsupported]

/-- Two microbatches. Block 6 is written between them. -/
def twoMicrobatches : List (ExecutedMicrobatch (Nat × Nat)) :=
  [⟨0, 4, fun _ => {(4, 1)}⟩, ⟨5, 9, fun _ => {(4, 1), (6, 2)}⟩]

theorem microbatches_add_up_two : ∃ rows,
    executeMicrobatches (fun r => some r.1) blocksWithLogs twoMicrobatches = .ok rows ∧
    blocksWithLogs.eval (Tables.below (fun r => some r.1) (fun _ => {(4, 1), (6, 2)}) 0) + rows =
      blocksWithLogs.eval (Tables.below (fun r => some r.1) (fun _ => {(4, 1), (6, 2)}) 10) := by
  have hplan : blocksWithLogs.Supported := by
    simp [blocksWithLogs, baseScan, LogicalPlan.Supported, LogicalPlan.AllSupported]
  have hms : Consecutive (fun r => some r.1) (fun _ => {(4, 1), (6, 2)}) 0 twoMicrobatches 10 :=
    ⟨rfl, by decide, rfl, rfl, by decide, rfl, rfl⟩
  have h := microbatches_add_up (LogicalPlan.Supported.streamable _ hplan) hms rfl
  exact ⟨_, rfl, h.1.trans (by rw [h.2 hplan, add_zero])⟩

end Law

end CampNode

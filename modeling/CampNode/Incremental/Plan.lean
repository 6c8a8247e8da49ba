import Mathlib.Data.Multiset.Bind
import Mathlib.Data.Multiset.Filter

/-!
# CampNode.Incremental.Plan — logical plans and their incremental version

The part of DataFusion's logical plans that `common/src/incrementalizer.rs` looks
at, with rows of an arbitrary type and row functions in place of expressions, and
the rewriter `Incrementalizer`: a pushdown of the scanned range with the update
rule for inner joins,

  `Δ(L ⋈ R) = (ΔL ⋈ R[t-1]) ∪ (L[t-1] ⋈ ΔR) ∪ (ΔL ⋈ ΔR)`.

A plan denotes the multiset of its rows. The operators that the incrementalizer
rejects, and the linear ones that have no row function here (`Explain` and the
like), are `other` nodes with an arbitrary meaning. A limit pushed into a scan
(`TableScan::fetch`) is not modelled: it comes from a `Limit` node, and those are
rejected.
-/

namespace CampNode

/-! ## Plans -/

/-- `datafusion::datasource::TableType`. -/
inductive TableType where
  | base
  | view
  | temporary
deriving DecidableEq, Repr

/-- What the incrementalizer asks of the source of a table scan. -/
structure TableSource where
  isDefaultTableSource : Bool
  isTableSnapshot : Bool
  tableType : TableType
  hasLogicalPlan : Bool
  /-- The `Debug` text of the table provider. -/
  providerDebug : String
deriving DecidableEq, Repr

structure TableScan (Row : Type) where
  table : String
  source : TableSource
  filters : List (Row → Bool)
  projection : Row → Row
  /-- The `Debug` text of the scan. -/
  debug : String

/-- `datafusion::common::JoinType`. -/
inductive JoinType where
  | inner
  | left
  | right
  | full
  | leftSemi
  | rightSemi
  | leftAnti
  | rightAnti
  | leftMark
  | rightMark
deriving DecidableEq, Repr

/-- A join without its inputs: the `on` and `filter` conditions as one relation,
and how rows of the output are made. -/
structure JoinStruct (Row : Type) where
  joinType : JoinType
  condition : Row → Row → Bool
  combine : Row → Row → Row
  /-- A left row without a match, padded with nulls. -/
  padLeft : Row → Row
  /-- A right row without a match, padded with nulls. -/
  padRight : Row → Row
  /-- A row with the column that marks whether it has a match. -/
  mark : Row → Bool → Row

/-- The operators without a row function here. -/
inductive OtherOp where
  | dml
  | ddl
  | statement
  | copy
  | extension
  | unnest
  | repartition
  | subquery
  | subqueryAlias
  | describeTable
  | explain
  | analyze
  | limit
  | aggregate
  | distinct
  | sort
  | window
  | recursiveQuery
deriving DecidableEq, Repr

inductive LogicalPlan (Row : Type) where
  | tableScan (scan : TableScan Row)
  | values (rows : List Row)
  /-- One row if `produce_one_row` is set, and none otherwise. -/
  | emptyRelation (oneRow : Option Row)
  | projection (expr : Row → Row) (input : LogicalPlan Row)
  | filter (predicate : Row → Bool) (input : LogicalPlan Row)
  | union (inputs : List (LogicalPlan Row))
  | join (spec : JoinStruct Row) (left right : LogicalPlan Row)
  | other (op : OtherOp) (display : String) (meaning : List (Multiset Row) → Multiset Row)
      (inputs : List (LogicalPlan Row))

variable {Row : Type}

/-! ## Rows of a plan -/

/-- The contents of the base tables. -/
abbrev Tables (Row : Type) := String → Multiset Row

/-- The rows of a table scan: filters apply to the base rows. -/
def TableScan.eval (scan : TableScan Row) (rows : Multiset Row) : Multiset Row :=
  (rows.filter fun r => scan.filters.all (· r)).map scan.projection

namespace JoinStruct

variable (spec : JoinStruct Row)
variable (b : Bool) (left right : Multiset Row)

/-- The pairs of matching rows, combined. -/
def inner : Multiset Row :=
  ((left ×ˢ right).filter fun p => spec.condition p.1 p.2).map fun p => spec.combine p.1 p.2

/-- A left row has a match among the right ones. -/
def leftMatches (l : Row) : Bool :=
  decide (0 < right.countP fun r => spec.condition l r)

/-- A right row has a match among the left ones. -/
def rightMatches (r : Row) : Bool :=
  decide (0 < left.countP fun l => spec.condition l r)

/-- The left rows whose having a match is `b`. -/
def leftWhere : Multiset Row :=
  left.filter fun l => spec.leftMatches right l = b

/-- The right rows whose having a match is `b`. -/
def rightWhere : Multiset Row :=
  right.filter fun r => spec.rightMatches left r = b

def eval : Multiset Row :=
  match spec.joinType with
  | .inner => spec.inner left right
  | .left => spec.inner left right + (spec.leftWhere false left right).map spec.padLeft
  | .right => spec.inner left right + (spec.rightWhere false left right).map spec.padRight
  | .full => spec.inner left right + (spec.leftWhere false left right).map spec.padLeft +
      (spec.rightWhere false left right).map spec.padRight
  | .leftSemi => spec.leftWhere true left right
  | .rightSemi => spec.rightWhere true left right
  | .leftAnti => spec.leftWhere false left right
  | .rightAnti => spec.rightWhere false left right
  | .leftMark => left.map fun l => spec.mark l (spec.leftMatches right l)
  | .rightMark => right.map fun r => spec.mark r (spec.rightMatches left r)

end JoinStruct

namespace LogicalPlan

mutual

/-- The multiset of rows of a plan. -/
def eval (tables : Tables Row) : LogicalPlan Row → Multiset Row
  | .tableScan scan => scan.eval (tables scan.table)
  | .values rows => rows
  | .emptyRelation oneRow => oneRow.toList
  | .projection expr input => (eval tables input).map expr
  | .filter predicate input => (eval tables input).filter fun r => predicate r
  | .union inputs => (evalAll tables inputs).sum
  | .join spec left right => spec.eval (eval tables left) (eval tables right)
  | .other _ _ meaning inputs => meaning (evalAll tables inputs)

def evalAll (tables : Tables Row) : List (LogicalPlan Row) → List (Multiset Row)
  | [] => []
  | input :: inputs => eval tables input :: evalAll tables inputs

end

end LogicalPlan

/-! ## Kinds of operators -/

inductive IncrementalOpKind where
  | linear
  | innerJoin
  | table
deriving DecidableEq, Repr

/-- `plan_visitors::NonIncrementalOp`. -/
inductive NonIncrementalOp where
  | limit
  | aggregate
  | distinct
  | sort
  | window
  | recursiveQuery
  | join (joinType : JoinType)
deriving DecidableEq, Repr

inductive NonIncrementalError where
  /-- The plan node is invalid for any kind of query. -/
  | invalid (node : String)
  /-- The plan node cannot be materialized incrementally. -/
  | nonIncremental (op : NonIncrementalOp)
deriving DecidableEq, Repr

def JoinType.incrementalOpKind (joinType : JoinType) :
    Except NonIncrementalError IncrementalOpKind :=
  match joinType with
  | .inner => .ok .innerJoin
  -- semi-joins are treated as projections of inner joins
  | .leftSemi => .ok .innerJoin
  | .rightSemi => .ok .innerJoin
  | .left | .right | .full | .leftAnti | .rightAnti | .leftMark | .rightMark =>
      .error (.nonIncremental (.join joinType))

def OtherOp.incrementalOpKind (display : String) :
    OtherOp → Except NonIncrementalError IncrementalOpKind
  | .dml | .ddl | .statement | .copy | .extension => .error (.invalid display)
  | .unnest | .repartition | .subquery | .subqueryAlias | .describeTable | .explain |
    .analyze => .ok .linear
  | .limit => .error (.nonIncremental .limit)
  | .aggregate => .error (.nonIncremental .aggregate)
  | .distinct => .error (.nonIncremental .distinct)
  | .sort => .error (.nonIncremental .sort)
  | .window => .error (.nonIncremental .window)
  | .recursiveQuery => .error (.nonIncremental .recursiveQuery)

def incrementalOpKind : LogicalPlan Row → Except NonIncrementalError IncrementalOpKind
  | .tableScan _ | .values _ | .emptyRelation _ => .ok .table
  | .projection _ _ | .filter _ _ | .union _ => .ok .linear
  | .join spec _ _ => spec.joinType.incrementalOpKind
  | .other op display _ _ => op.incrementalOpKind display

/-! ## The incrementalizer -/

/-- The range to scan, relative to the current microbatch. -/
inductive RelationRange where
  /-- The range `[start, end]`. -/
  | delta
  /-- The range below `start`. -/
  | history
deriving DecidableEq, Repr

inductive IncrementalizeError where
  | nonIncremental (e : NonIncrementalError)
  | stackedJoins
  | notDefaultTableSource
  | unsupportedTableProvider (debug : String)
  | nonBaseTable (debug : String)
deriving DecidableEq, Repr

/-- The texts of the errors that the incrementalizer makes itself. -/
def IncrementalizeError.message : IncrementalizeError → Option String
  | .nonIncremental _ => none
  | .stackedJoins => some "stacked joins not supported"
  | .notDefaultTableSource => some "TableSource was not DefaultTableSource"
  | .unsupportedTableProvider debug =>
      some ("Unsupported table provider in incremental scan: " ++ debug)
  | .nonBaseTable debug => some ("non-base table found: " ++ debug)

section Incrementalizer

-- The value of `_block_num` in a base row, and the microbatch `[start, stop]`.
variable (blockNum : Row → Option Nat) (start stop : Nat)

/-- The condition on `_block_num`; a row where it is null is not selected. -/
def rangePredicate : RelationRange → Row → Bool
  | .delta, r => (blockNum r).any fun b => decide (start ≤ b) && decide (b ≤ stop)
  | .history, r => (blockNum r).any fun b => decide (b < start)

def constrainByRange (range : RelationRange) (scan : TableScan Row) :
    Except IncrementalizeError (TableScan Row) :=
  if scan.source.tableType ≠ .base ∨ scan.source.hasLogicalPlan = true then
    .error (.nonBaseTable scan.debug)
  else
    .ok { scan with filters := scan.filters ++ [rangePredicate blockNum start stop range] }

/-- The table scan case of `f_down`, with `validate_table_provider`. -/
def rewriteScan (range : RelationRange) (scan : TableScan Row) :
    Except IncrementalizeError (TableScan Row) :=
  if scan.source.isDefaultTableSource = false then .error .notDefaultTableSource
  else if scan.source.isTableSnapshot = false then
    .error (.unsupportedTableProvider scan.source.providerDebug)
  else constrainByRange blockNum start stop range scan

namespace LogicalPlan

mutual

/-- The traversal of the rewriter: `f_down` on a node, then on its inputs. The join
case rewrites the inputs itself and does not descend into the union it builds. -/
def rewrite (range : RelationRange) : LogicalPlan Row → Except IncrementalizeError (LogicalPlan Row)
  | .tableScan scan => (rewriteScan blockNum start stop range scan).map .tableScan
  | .values rows =>
      -- a static value has always existed: it has only history and no delta
      match range with
      | .history => .ok (.values rows)
      | .delta => .ok (.emptyRelation none)
  | .emptyRelation oneRow => .ok (.emptyRelation oneRow)
  | .projection expr input => (rewrite range input).map (.projection expr)
  | .filter predicate input => (rewrite range input).map (.filter predicate)
  | .union inputs => (rewriteAll range inputs).map .union
  | .join spec left right =>
      match spec.joinType.incrementalOpKind with
      | .error e => .error (.nonIncremental e)
      | .ok _ =>
          match range with
          | .history => .error .stackedJoins
          | .delta => do
              let deltaLeft ← rewrite .delta left
              let historyRight ← rewrite .history right
              let historyLeft ← rewrite .history left
              let deltaRight ← rewrite .delta right
              return .union [.join spec deltaLeft historyRight,
                .join spec historyLeft deltaRight, .join spec deltaLeft deltaRight]
  | .other op display meaning inputs =>
      match op.incrementalOpKind display with
      | .error e => .error (.nonIncremental e)
      | .ok _ => (rewriteAll range inputs).map (.other op display meaning)

def rewriteAll (range : RelationRange) :
    List (LogicalPlan Row) → Except IncrementalizeError (List (LogicalPlan Row))
  | [] => .ok []
  | input :: inputs => do
      let input' ← rewrite range input
      let inputs' ← rewriteAll range inputs
      return input' :: inputs'

end

end LogicalPlan

/-- The incremental version of `plan` for the microbatch `[start, stop]`. -/
def incrementalizePlan (plan : LogicalPlan Row) : Except IncrementalizeError (LogicalPlan Row) :=
  plan.rewrite blockNum start stop .delta

end Incrementalizer

end CampNode

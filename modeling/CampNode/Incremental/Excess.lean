import CampNode.Incremental.Plan

/-!
# CampNode.Incremental.Excess — what a microbatch adds, and what it adds twice

The incremental version of a plan should compute what the plan gains when the blocks
`[start, stop]` are added to the blocks below `start`. This module says exactly what it
computes: the gain and, for some plans, rows that are there already (`doubled`),

  `plan(< start) + incremental plan = plan(≤ stop) + doubled plan`.

Rows are doubled in two ways. A row of a semi join with a partner below `start` and
another one in the microbatch is emitted in both of its terms. And a relation with one row
(`EmptyRelation` with `produce_one_row`) is not emptied in delta mode, as `Values` is.

The induction over plans needs two statements at once. In history mode the rewritten plan
computes the old plan on the old rows (`eval_history`); in delta mode it computes what is
added (`eval_delta`). Linear operators are additive, an inner join is bilinear, a semi join
is additive on one side, and because a join is not rewritten in history mode the two sides
of a join need no more than these two statements.
-/

namespace CampNode

open Multiset TableScan

variable {Row : Type}

/-! ## Tables by block number -/

variable (blockNum : Row → Option Nat) (tables : Tables Row)

/-- The base rows with a block number below `start`. -/
def Tables.below (start : Nat) : Tables Row :=
  fun name => (tables name).filter fun r => (blockNum r).any fun b => decide (b < start)

/-- The base rows with a block number up to `stop`. -/
def Tables.upTo (stop : Nat) : Tables Row :=
  fun name => (tables name).filter fun r => (blockNum r).any fun b => decide (b ≤ stop)

/-! ## Plans in scope -/

/-- The operator works row by row. -/
def RowWise (meaning : List (Multiset Row) → Multiset Row) : Prop :=
  ∃ f : Row → Multiset Row, ∀ inputs, meaning inputs = inputs.sum.bind f

namespace LogicalPlan

mutual

/-- The plan is built from table scans, values, empty relations, projections, filters,
unions, inner and semi joins, and other operators that work row by row. -/
def Streamable : LogicalPlan Row → Prop
  | .tableScan _ => True
  | .values _ => True
  | .emptyRelation _ => True
  | .projection _ input => Streamable input
  | .filter _ input => Streamable input
  | .union inputs => AllStreamable inputs
  | .join _ left right => Streamable left ∧ Streamable right
  | .other _ _ meaning inputs => RowWise meaning ∧ AllStreamable inputs

def AllStreamable : List (LogicalPlan Row) → Prop
  | [] => True
  | input :: inputs => Streamable input ∧ AllStreamable inputs

end

end LogicalPlan

/-! ## Operators on multisets -/

theorem except_map_ok {ε α β : Type} {x : Except ε α} {f : α → β} {b : β}
    (h : x.map f = .ok b) : ∃ a, x = .ok a ∧ f a = b := by
  cases x with
  | error e => cases h
  | ok a => exact ⟨a, rfl, Except.ok.inj h⟩

theorem except_bind_ok {ε α β : Type} {x : Except ε α} {f : α → Except ε β} {b : β}
    (h : (x >>= f) = .ok b) : ∃ a, x = .ok a ∧ f a = .ok b := by
  cases x with
  | error e => cases h
  | ok a => exact ⟨a, rfl, h⟩

/-- What is known about a side of a join: its rows below `start`, the rows the microbatch
adds, its rows up to `stop`, and the rows that are added twice. -/
structure Side (Row : Type) where
  below : Multiset Row
  added : Multiset Row
  upTo : Multiset Row
  doubled : Multiset Row

structure Side.Ok (s : Side Row) : Prop where
  balance : s.below + s.added = s.upTo + s.doubled
  subset : s.doubled ⊆ s.upTo

namespace JoinStruct

variable (spec : JoinStruct Row)

/-- An inner join is additive on the left. -/
theorem inner_add_left (l l' r : Multiset Row) :
    spec.inner (l + l') r = spec.inner l r + spec.inner l' r := by
  unfold JoinStruct.inner
  rw [add_product, filter_add, map_add]

variable (l r r' : Multiset Row)

/-- An inner join is additive on the right. -/
theorem inner_add_right : spec.inner l (r + r') = spec.inner l r + spec.inner l r' := by
  unfold JoinStruct.inner
  rw [product_add, filter_add, map_add]

/-- The update rule of inner joins. -/
theorem inner_add_add (l dl r dr : Multiset Row) : spec.inner (l + dl) (r + dr) =
      spec.inner l r + (spec.inner dl r + (spec.inner l dr + spec.inner dl dr)) := by
  rw [spec.inner_add_left, spec.inner_add_right, spec.inner_add_right]
  ac_rfl

/-- The join with its sides exchanged. -/
def swap : JoinStruct Row := { spec with condition := fun l r => spec.condition r l }

theorem rightWhere_eq_swap (b : Bool) (left right : Multiset Row) :
    spec.rightWhere b left right = spec.swap.leftWhere b right left := rfl

theorem leftMatches_iff {right : Multiset Row} {l : Row} :
    spec.leftMatches right l = true ↔ ∃ r ∈ right, spec.condition l r = true := by
  rw [leftMatches, decide_eq_true_eq, countP_pos]

theorem leftWhere_add (b : Bool) (l l' r : Multiset Row) :
    spec.leftWhere b (l + l') r = spec.leftWhere b l r + spec.leftWhere b l' r :=
  filter_add _ l l'

/-- The rows with a partner among `r` and one among `r'`. -/
def matchTwice : Multiset Row :=
  l.filter fun x => spec.leftMatches r x = true ∧ spec.leftMatches r' x = true

/-- A semi join is not additive on the other side: rows with partners in both parts are
counted twice. -/
theorem leftWhere_add_leftWhere : spec.leftWhere true l r + spec.leftWhere true l r' =
      spec.leftWhere true l (r + r') + spec.matchTwice l r r' := by
  unfold leftWhere matchTwice
  rw [filter_add_filter]
  congr 1
  apply filter_congr
  intro x _
  simp only [leftMatches_iff, mem_add, or_and_right, exists_or]

/-- Partners that are there already do not matter. -/
theorem leftWhere_add_subset {l r d : Multiset Row} (hd : d ⊆ r) (b : Bool) :
    spec.leftWhere b l (r + d) = spec.leftWhere b l r := by
  apply filter_congr
  intro x _
  have hmatches : spec.leftMatches (r + d) x = spec.leftMatches r x := by
    rw [Bool.eq_iff_iff, leftMatches_iff, leftMatches_iff]
    constructor
    · rintro ⟨y, hy, hxy⟩
      rcases mem_add.mp hy with hy | hy
      · exact ⟨y, hy, hxy⟩
      · exact ⟨y, hd hy, hxy⟩
    · rintro ⟨y, hy, hxy⟩
      exact ⟨y, mem_add.mpr (.inl hy), hxy⟩
  rw [hmatches]

/-- The doubled rows of a left semi join: the rows of the left side with partners on the
right both below `start` and in the microbatch, and the doubled rows of the left side that
have a partner. -/
def semiDoubled (left right : Side Row) : Multiset Row :=
  spec.leftWhere true left.doubled right.upTo +
    spec.matchTwice (left.below + left.added) right.below right.added

def doubled (left right : Side Row) : Multiset Row :=
  match spec.joinType with
  | .inner => spec.inner left.doubled right.upTo + (spec.inner left.upTo right.doubled +
      spec.inner left.doubled right.doubled)
  | .leftSemi => spec.semiDoubled left right
  | .rightSemi => spec.swap.semiDoubled right left
  | _ => 0

/-- The three terms of the update rule, for a left semi join. -/
theorem semi_terms {left right : Side Row} (hl : left.Ok) (hr : right.Ok) :
    spec.leftWhere true left.below right.below +
      (spec.leftWhere true left.added right.below + (spec.leftWhere true left.below right.added +
        spec.leftWhere true left.added right.added)) =
      spec.leftWhere true left.upTo right.upTo + spec.semiDoubled left right := by
  calc
    _ = spec.leftWhere true (left.below + left.added) right.below +
          spec.leftWhere true (left.below + left.added) right.added := by
        rw [spec.leftWhere_add, spec.leftWhere_add]
        ac_rfl
    _ = spec.leftWhere true (left.upTo + left.doubled) (right.upTo + right.doubled) +
          spec.matchTwice (left.below + left.added) right.below right.added := by
        rw [spec.leftWhere_add_leftWhere, hl.balance, hr.balance]
    _ = spec.leftWhere true left.upTo right.upTo + spec.semiDoubled left right := by
        rw [spec.leftWhere_add_subset hr.subset, spec.leftWhere_add, semiDoubled, add_assoc]

/-- The three terms of the update rule, for the joins that the incrementalizer accepts. -/
theorem eval_terms {left right : Side Row} (hl : left.Ok) (hr : right.Ok)
    {kind : IncrementalOpKind} (hkind : spec.joinType.incrementalOpKind = .ok kind) :
    spec.eval left.below right.below +
      (spec.eval left.added right.below + (spec.eval left.below right.added +
        spec.eval left.added right.added)) =
      spec.eval left.upTo right.upTo + spec.doubled left right := by
  unfold eval doubled
  cases hjoin : spec.joinType with
  | inner =>
    rw [← spec.inner_add_add, hl.balance, hr.balance, spec.inner_add_add]
  | leftSemi => exact spec.semi_terms hl hr
  | rightSemi =>
    simp only [rightWhere_eq_swap]
    rw [← spec.swap.semi_terms hr hl]
    ac_rfl
  | left | right | full | leftAnti | rightAnti | leftMark | rightMark =>
    rw [hjoin] at hkind
    cases hkind

end JoinStruct

section Excess

variable (blockNum : Row → Option Nat) (start stop : Nat) (tables : Tables Row)

/-! ## Added and doubled rows -/

namespace LogicalPlan

mutual

/-- The rows that the microbatch adds to a plan without joins, according to delta mode. -/
def added : LogicalPlan Row → Multiset Row
  | .tableScan scan => scan.eval ((tables scan.table).filter fun r =>
      rangePredicate blockNum start stop .delta r = true)
  | .values _ => 0
  | .emptyRelation oneRow => oneRow.toList
  | .projection expr input => (added input).map expr
  | .filter predicate input => (added input).filter fun r => predicate r
  | .union inputs => (addedAll inputs).sum
  | .join _ _ _ => 0
  | .other _ _ meaning inputs => meaning (addedAll inputs)

def addedAll : List (LogicalPlan Row) → List (Multiset Row)
  | [] => []
  | input :: inputs => added input :: addedAll inputs

end

mutual

/-- The rows that are added although they are there already: those of relations with one
row and those of semi joins with partners on both sides of `start`, carried through the
operators above. -/
def doubled : LogicalPlan Row → Multiset Row
  | .tableScan _ => 0
  | .values _ => 0
  | .emptyRelation oneRow => oneRow.toList
  | .projection expr input => (doubled input).map expr
  | .filter predicate input => (doubled input).filter fun r => predicate r
  | .union inputs => (doubledAll inputs).sum
  | .join spec left right => spec.doubled
      ⟨left.eval (tables.below blockNum start), left.added blockNum start stop tables,
        left.eval (tables.upTo blockNum stop), doubled left⟩
      ⟨right.eval (tables.below blockNum start), right.added blockNum start stop tables,
        right.eval (tables.upTo blockNum stop), doubled right⟩
  | .other _ _ meaning inputs => meaning (doubledAll inputs)

def doubledAll : List (LogicalPlan Row) → List (Multiset Row)
  | [] => []
  | input :: inputs => doubled input :: doubledAll inputs

end

end LogicalPlan

variable {blockNum start stop tables}

/-! ## Table scans -/

theorem rewriteScan_ok {range : RelationRange} {scan scan' : TableScan Row}
    (h : rewriteScan blockNum start stop range scan = .ok scan') :
    scan' = { scan with
      filters := scan.filters ++ [rangePredicate blockNum start stop range] } := by
  unfold rewriteScan at h
  split at h
  · cases h
  split at h
  · cases h
  · unfold constrainByRange at h
    split at h
    · cases h
    · exact (Except.ok.inj h).symm

/-- A filter pushed into a scan selects from the base rows. -/
theorem TableScan.eval_filter (scan : TableScan Row) (p : Row → Bool) (rows : Multiset Row) :
    eval { scan with filters := scan.filters ++ [p] } rows =
      scan.eval (rows.filter fun r => p r = true) := by
  unfold eval
  rw [filter_filter]
  congr 1
  refine filter_congr fun r _ => ?_
  simp

theorem TableScan.eval_add (scan : TableScan Row) (rows rows' : Multiset Row) :
    scan.eval (rows + rows') = scan.eval rows + scan.eval rows' := by
  unfold eval
  rw [filter_add, map_add]

/-- The rows up to `stop` are those below `start` and those of the microbatch. -/
theorem below_add_delta (hle : start ≤ stop) (name : String) : tables.below blockNum start name +
      (tables name).filter (fun r => rangePredicate blockNum start stop .delta r = true) =
      tables.upTo blockNum stop name := by
  unfold Tables.below Tables.upTo
  rw [filter_add_filter]
  have hnone : (tables name).filter (fun r => (blockNum r).any (fun b => decide (b < start)) = true ∧
      rangePredicate blockNum start stop .delta r = true) = 0 := by
    rw [filter_eq_nil]
    intro r _
    cases hb : blockNum r with
    | none => simp [rangePredicate, hb]
    | some b =>
      simp only [rangePredicate, hb, Option.any_some, Bool.and_eq_true, decide_eq_true_eq]
      omega
  rw [hnone, add_zero]
  refine filter_congr fun r _ => ?_
  cases hb : blockNum r with
  | none => simp [rangePredicate, hb]
  | some b =>
    simp only [rangePredicate, hb, Option.any_some, Bool.and_eq_true, decide_eq_true_eq]
    omega

/-! ## What an accepted plan is rewritten to -/

namespace LogicalPlan

theorem rewriteAll_cons_ok {range : RelationRange} {input : LogicalPlan Row}
    {inputs outputs : List (LogicalPlan Row)}
    (h : rewriteAll blockNum start stop range (input :: inputs) = .ok outputs) :
    ∃ output outputs', rewrite blockNum start stop range input = .ok output ∧
      rewriteAll blockNum start stop range inputs = .ok outputs' ∧
      outputs = output :: outputs' := by
  rcases except_bind_ok h with ⟨output, houtput, h⟩
  rcases except_bind_ok h with ⟨outputs', houtputs', h⟩
  exact ⟨output, outputs', houtput, houtputs', (Except.ok.inj h).symm⟩

theorem rewrite_other_ok {range : RelationRange} {op : OtherOp} {display : String}
    {meaning : List (Multiset Row) → Multiset Row} {inputs : List (LogicalPlan Row)}
    {output : LogicalPlan Row}
    (h : rewrite blockNum start stop range (.other op display meaning inputs) = .ok output) :
    ∃ outputs, rewriteAll blockNum start stop range inputs = .ok outputs ∧
      output = .other op display meaning outputs := by
  rw [rewrite] at h
  cases hkind : op.incrementalOpKind display with
  | error e =>
    rw [hkind] at h
    cases h
  | ok kind =>
    rw [hkind] at h
    rcases except_map_ok h with ⟨outputs, houtputs, rfl⟩
    exact ⟨outputs, houtputs, rfl⟩

variable {left right output : LogicalPlan Row}

/-- Joins are rejected in history mode. -/
theorem rewrite_join_history {spec : JoinStruct Row} :
    rewrite blockNum start stop .history (.join spec left right) ≠ .ok output := by
  rw [rewrite]
  cases spec.joinType.incrementalOpKind with
  | error e => nofun
  | ok kind => nofun

/-- In delta mode a join becomes the union of the three terms of the update rule. -/
theorem rewrite_join_delta {spec : JoinStruct Row}
    (h : rewrite blockNum start stop .delta (.join spec left right) = .ok output) :
    ∃ kind deltaLeft historyRight historyLeft deltaRight,
      spec.joinType.incrementalOpKind = .ok kind ∧
      rewrite blockNum start stop .delta left = .ok deltaLeft ∧
      rewrite blockNum start stop .history right = .ok historyRight ∧
      rewrite blockNum start stop .history left = .ok historyLeft ∧
      rewrite blockNum start stop .delta right = .ok deltaRight ∧
      output = .union [.join spec deltaLeft historyRight, .join spec historyLeft deltaRight,
        .join spec deltaLeft deltaRight] := by
  rw [rewrite] at h
  cases hkind : spec.joinType.incrementalOpKind with
  | error e =>
    rw [hkind] at h
    cases h
  | ok kind =>
    rw [hkind] at h
    rcases except_bind_ok h with ⟨deltaLeft, hdl, h⟩
    rcases except_bind_ok h with ⟨historyRight, hhr, h⟩
    rcases except_bind_ok h with ⟨historyLeft, hhl, h⟩
    rcases except_bind_ok h with ⟨deltaRight, hdr, h⟩
    exact ⟨kind, deltaLeft, historyRight, historyLeft, deltaRight, rfl, hdl, hhr, hhl, hdr,
      (Except.ok.inj h).symm⟩

/-! ## History -/

mutual

/-- In history mode the rewritten plan computes the plan on the rows below `start`. -/
theorem eval_history (plan output : LogicalPlan Row)
    (h : rewrite blockNum start stop .history plan = .ok output) :
    output.eval tables = plan.eval (tables.below blockNum start) := by
  match plan with
  | .tableScan scan =>
    rcases except_map_ok h with ⟨scan', hscan, rfl⟩
    rw [rewriteScan_ok hscan]
    exact scan.eval_filter _ _
  | .values rows =>
    cases h
    rfl
  | .emptyRelation oneRow =>
    cases h
    rfl
  | .projection expr input =>
    rcases except_map_ok h with ⟨input', hinput, rfl⟩
    rw [eval, eval, eval_history input input' hinput]
  | .filter predicate input =>
    rcases except_map_ok h with ⟨input', hinput, rfl⟩
    rw [eval, eval, eval_history input input' hinput]
  | .union inputs =>
    rcases except_map_ok h with ⟨inputs', hinputs, rfl⟩
    rw [eval, eval, evalAll_history inputs inputs' hinputs]
  | .join spec left right =>
    exact absurd h rewrite_join_history
  | .other op display meaning inputs =>
    rcases rewrite_other_ok h with ⟨inputs', hinputs, rfl⟩
    rw [eval, eval, evalAll_history inputs inputs' hinputs]

theorem evalAll_history (plans outputs : List (LogicalPlan Row))
    (h : rewriteAll blockNum start stop .history plans = .ok outputs) :
    evalAll tables outputs = evalAll (tables.below blockNum start) plans := by
  match plans with
  | [] =>
    cases h
    rfl
  | plan :: plans =>
    rcases rewriteAll_cons_ok h with ⟨output, outputs', houtput, houtputs', rfl⟩
    rw [evalAll, evalAll, eval_history plan output houtput,
      evalAll_history plans outputs' houtputs']

end

/-! ## The sides of a join -/

mutual

/-- A plan that is accepted in history mode has no joins, and in delta mode it computes its
added rows. -/
theorem eval_added (plan output output' : LogicalPlan Row)
    (hh : rewrite blockNum start stop .history plan = .ok output')
    (h : rewrite blockNum start stop .delta plan = .ok output) :
    output.eval tables = plan.added blockNum start stop tables := by
  match plan with
  | .tableScan scan =>
    rcases except_map_ok h with ⟨scan', hscan, rfl⟩
    rw [rewriteScan_ok hscan]
    exact scan.eval_filter _ _
  | .values rows =>
    cases h
    rfl
  | .emptyRelation oneRow =>
    cases h
    rfl
  | .projection expr input =>
    rcases except_map_ok h with ⟨input', hinput, rfl⟩
    rcases except_map_ok hh with ⟨input'', hinput'', -⟩
    rw [eval, added, eval_added input input' input'' hinput'' hinput]
  | .filter predicate input =>
    rcases except_map_ok h with ⟨input', hinput, rfl⟩
    rcases except_map_ok hh with ⟨input'', hinput'', -⟩
    rw [eval, added, eval_added input input' input'' hinput'' hinput]
  | .union inputs =>
    rcases except_map_ok h with ⟨inputs', hinputs, rfl⟩
    rcases except_map_ok hh with ⟨inputs'', hinputs'', -⟩
    rw [eval, added, evalAll_added inputs inputs' inputs'' hinputs'' hinputs]
  | .join spec left right =>
    exact absurd hh rewrite_join_history
  | .other op display meaning inputs =>
    rcases rewrite_other_ok h with ⟨inputs', hinputs, rfl⟩
    rcases rewrite_other_ok hh with ⟨inputs'', hinputs'', -⟩
    rw [eval, added, evalAll_added inputs inputs' inputs'' hinputs'' hinputs]

theorem evalAll_added (plans outputs outputs' : List (LogicalPlan Row))
    (hh : rewriteAll blockNum start stop .history plans = .ok outputs')
    (h : rewriteAll blockNum start stop .delta plans = .ok outputs) :
    evalAll tables outputs = addedAll blockNum start stop tables plans := by
  match plans with
  | [] =>
    cases h
    rfl
  | plan :: plans =>
    rcases rewriteAll_cons_ok h with ⟨output, outputs₁, houtput, houtputs₁, rfl⟩
    rcases rewriteAll_cons_ok hh with ⟨output', outputs₁', houtput', houtputs₁', -⟩
    rw [evalAll, addedAll, eval_added plan output output' houtput' houtput,
      evalAll_added plans outputs₁ outputs₁' houtputs₁' houtputs₁]

end

mutual

/-- Without joins, the rows that are added twice are rows of the plan. -/
theorem doubled_subset (plan output : LogicalPlan Row) (hplan : plan.Streamable)
    (hh : rewrite blockNum start stop .history plan = .ok output) :
    plan.doubled blockNum start stop tables ⊆ plan.eval (tables.upTo blockNum stop) := by
  match plan with
  | .tableScan _ => exact zero_subset _
  | .values _ => exact zero_subset _
  | .emptyRelation _ => exact Multiset.Subset.refl _
  | .projection expr input =>
    rcases except_map_ok hh with ⟨input', hinput, -⟩
    exact map_subset_map (doubled_subset input input' hplan hinput)
  | .filter predicate input =>
    rcases except_map_ok hh with ⟨input', hinput, -⟩
    intro r hr
    rw [doubled, mem_filter] at hr
    rw [eval, mem_filter]
    exact ⟨doubled_subset input input' hplan hinput hr.1, hr.2⟩
  | .union inputs =>
    rcases except_map_ok hh with ⟨inputs', hinputs, -⟩
    exact doubledAll_subset inputs inputs' hplan hinputs
  | .join spec left right =>
    exact absurd hh rewrite_join_history
  | .other op display meaning inputs =>
    rcases rewrite_other_ok hh with ⟨inputs', hinputs, -⟩
    rcases hplan with ⟨⟨f, hf⟩, hall⟩
    intro r hr
    rw [doubled, hf, mem_bind] at hr
    rw [eval, hf, mem_bind]
    rcases hr with ⟨a, ha, hr⟩
    exact ⟨a, doubledAll_subset inputs inputs' hall hinputs ha, hr⟩

theorem doubledAll_subset (plans outputs : List (LogicalPlan Row)) (hplans : AllStreamable plans)
    (hh : rewriteAll blockNum start stop .history plans = .ok outputs) :
    (doubledAll blockNum start stop tables plans).sum ⊆
      (evalAll (tables.upTo blockNum stop) plans).sum := by
  match plans with
  | [] => exact Multiset.Subset.refl _
  | plan :: plans =>
    rcases rewriteAll_cons_ok hh with ⟨output, outputs', houtput, houtputs', -⟩
    intro r hr
    rcases mem_add.mp hr with hr | hr
    · exact mem_add.mpr (.inl (doubled_subset plan output hplans.1 houtput hr))
    · exact mem_add.mpr (.inr (doubledAll_subset plans outputs' hplans.2 houtputs' hr))

end

/-! ## Delta -/

mutual

/-- In delta mode the rewritten plan computes what the microbatch adds, and the doubled
rows once more. -/
theorem eval_delta (hle : start ≤ stop) (plan output : LogicalPlan Row)
    (hplan : plan.Streamable) (h : rewrite blockNum start stop .delta plan = .ok output) :
    plan.eval (tables.below blockNum start) + output.eval tables =
      plan.eval (tables.upTo blockNum stop) + plan.doubled blockNum start stop tables := by
  match plan with
  | .tableScan scan =>
    rcases except_map_ok h with ⟨scan', hscan, rfl⟩
    rw [rewriteScan_ok hscan, eval, eval, eval, doubled, eval_filter,
      ← eval_add, below_add_delta hle, add_zero]
  | .values rows =>
    cases h
    rfl
  | .emptyRelation oneRow =>
    cases h
    rfl
  | .projection expr input =>
    rcases except_map_ok h with ⟨input', hinput, rfl⟩
    rw [eval, eval, eval, doubled, ← map_add, ← map_add, eval_delta hle input input' hplan hinput]
  | .filter predicate input =>
    rcases except_map_ok h with ⟨input', hinput, rfl⟩
    rw [eval, eval, eval, doubled, ← filter_add, ← filter_add,
      eval_delta hle input input' hplan hinput]
  | .union inputs =>
    rcases except_map_ok h with ⟨inputs', hinputs, rfl⟩
    exact evalAll_delta hle inputs inputs' hplan hinputs
  | .join spec left right =>
    rcases rewrite_join_delta h with
      ⟨kind, deltaLeft, historyRight, historyLeft, deltaRight, hkind, hdl, hhr, hhl, hdr, rfl⟩
    rcases hplan with ⟨hleft, hright⟩
    -- both sides of the join by induction, in both modes
    have hl := eval_delta hle left deltaLeft hleft hdl
    have hr := eval_delta hle right deltaRight hright hdr
    rw [eval_added left deltaLeft historyLeft hhl hdl] at hl
    rw [eval_added right deltaRight historyRight hhr hdr] at hr
    simp only [eval, evalAll, List.sum_cons, List.sum_nil, add_zero, doubled,
      eval_history left historyLeft hhl, eval_history right historyRight hhr,
      eval_added left deltaLeft historyLeft hhl hdl,
      eval_added right deltaRight historyRight hhr hdr]
    have hlok : Side.Ok ⟨left.eval (tables.below blockNum start),
        left.added blockNum start stop tables, left.eval (tables.upTo blockNum stop),
        left.doubled blockNum start stop tables⟩ :=
      ⟨hl, doubled_subset left historyLeft hleft hhl⟩
    have hrok : Side.Ok ⟨right.eval (tables.below blockNum start),
        right.added blockNum start stop tables, right.eval (tables.upTo blockNum stop),
        right.doubled blockNum start stop tables⟩ :=
      ⟨hr, doubled_subset right historyRight hright hhr⟩
    have hterms := spec.eval_terms hlok hrok hkind
    exact hterms
  | .other op display meaning inputs =>
    rcases rewrite_other_ok h with ⟨inputs', hinputs, rfl⟩
    rcases hplan with ⟨⟨f, hf⟩, hall⟩
    rw [eval, eval, eval, doubled, hf, hf, hf, hf, ← add_bind, ← add_bind,
      evalAll_delta hle inputs inputs' hall hinputs]

theorem evalAll_delta (hle : start ≤ stop) (plans outputs : List (LogicalPlan Row))
    (hplans : AllStreamable plans)
    (h : rewriteAll blockNum start stop .delta plans = .ok outputs) :
    (evalAll (tables.below blockNum start) plans).sum + (evalAll tables outputs).sum =
      (evalAll (tables.upTo blockNum stop) plans).sum +
        (doubledAll blockNum start stop tables plans).sum := by
  match plans with
  | [] =>
    cases h
    rfl
  | plan :: plans =>
    rcases rewriteAll_cons_ok h with ⟨output, outputs', houtput, houtputs', rfl⟩
    have hfirst := eval_delta hle plan output hplans.1 houtput
    have hrest := evalAll_delta hle plans outputs' hplans.2 houtputs'
    rw [evalAll, evalAll, evalAll, doubledAll, List.sum_cons, List.sum_cons, List.sum_cons,
      List.sum_cons]
    rw [add_add_add_comm, hfirst, hrest, add_add_add_comm]

end

end LogicalPlan

end Excess

end CampNode

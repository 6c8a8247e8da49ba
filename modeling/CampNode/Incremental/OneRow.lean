import CampNode.Incremental.Law

/-!
# CampNode.Incremental.OneRow — selects without a table

A `SELECT` without a `FROM` is a projection of an `EmptyRelation` that produces one row. The row
is a constant, like those of `Values`, but the incrementalizer leaves the relation as it is in delta
mode. So the row is there below `start` and is added again in every microbatch, also through unions
and joins (`one_row_added_again`).

`one_row_law_iff` says for which plans and tables this does not matter: those where the relations
with one row contribute nothing to the result.
-/

namespace CampNode

open Multiset

variable {Row : Type}

namespace LogicalPlan

mutual

/-- The plan is built from table scans, values, empty relations, with or without a row,
projections, filters, unions and inner joins. -/
def InnerOnly : LogicalPlan Row → Prop
  | .tableScan _ => True
  | .values _ => True
  | .emptyRelation _ => True
  | .projection _ input => InnerOnly input
  | .filter _ input => InnerOnly input
  | .union inputs => AllInnerOnly inputs
  | .join spec left right => spec.joinType = .inner ∧ InnerOnly left ∧ InnerOnly right
  | .other _ _ _ _ => False

def AllInnerOnly : List (LogicalPlan Row) → Prop
  | [] => True
  | input :: inputs => InnerOnly input ∧ AllInnerOnly inputs

end

mutual

/-- The plan with all its relations of one row emptied. -/
def withoutOneRow : LogicalPlan Row → LogicalPlan Row
  | .emptyRelation _ => .emptyRelation none
  | .projection expr input => .projection expr (withoutOneRow input)
  | .filter predicate input => .filter predicate (withoutOneRow input)
  | .union inputs => .union (withoutOneRowAll inputs)
  | .join spec left right => .join spec (withoutOneRow left) (withoutOneRow right)
  | .other op display meaning inputs => .other op display meaning (withoutOneRowAll inputs)
  | .tableScan scan => .tableScan scan
  | .values rows => .values rows

def withoutOneRowAll : List (LogicalPlan Row) → List (LogicalPlan Row)
  | [] => []
  | input :: inputs => withoutOneRow input :: withoutOneRowAll inputs

end

mutual

theorem InnerOnly.streamable (plan : LogicalPlan Row) (h : plan.InnerOnly) : plan.Streamable := by
  match plan with
  | .tableScan _ => exact trivial
  | .values _ => exact trivial
  | .emptyRelation _ => exact trivial
  | .projection _ input => exact InnerOnly.streamable input h
  | .filter _ input => exact InnerOnly.streamable input h
  | .union inputs => exact AllInnerOnly.streamable inputs h
  | .join _ left right => exact ⟨InnerOnly.streamable left h.2.1, InnerOnly.streamable right h.2.2⟩
  | .other _ _ _ _ => exact absurd h id

theorem AllInnerOnly.streamable (plans : List (LogicalPlan Row)) (h : AllInnerOnly plans) :
    AllStreamable plans := by
  match plans with
  | [] => exact trivial
  | plan :: plans => exact ⟨InnerOnly.streamable plan h.1, AllInnerOnly.streamable plans h.2⟩

end

end LogicalPlan

/-! ## What the relations with one row contribute -/

/-- The multisets have the same members, perhaps not as often. -/
def SameRows (c d : Multiset Row) : Prop := ∀ r, r ∈ c ↔ r ∈ d

namespace SameRows

variable {c d c' d' : Multiset Row}

theorem add (h : SameRows c d) (h' : SameRows c' d') : SameRows (c + c') (d + d') := by
  intro r
  rw [mem_add, mem_add, h r, h' r]

theorem map (h : SameRows c d) (f : Row → Row) : SameRows (c.map f) (d.map f) := by
  intro r
  simp only [mem_map, h _]

theorem filter (h : SameRows c d) (p : Row → Bool) :
    SameRows (c.filter fun r => p r) (d.filter fun r => p r) := by
  intro r
  simp only [mem_filter, h _]

theorem eq_zero_iff (h : SameRows c d) : c = 0 ↔ d = 0 := by
  rw [eq_zero_iff_forall_notMem, eq_zero_iff_forall_notMem]
  simp only [h _]

end SameRows

theorem JoinStruct.mem_inner {spec : JoinStruct Row} {left right : Multiset Row} {r : Row} :
    r ∈ spec.inner left right ↔
      ∃ l ∈ left, ∃ l' ∈ right, spec.condition l l' = true ∧ spec.combine l l' = r := by
  unfold JoinStruct.inner
  simp only [mem_map, mem_filter, mem_product, Prod.exists]
  constructor
  · rintro ⟨l, l', ⟨⟨hl, hl'⟩, hcond⟩, rfl⟩
    exact ⟨l, hl, l', hl', hcond, rfl⟩
  · rintro ⟨l, hl, l', hl', hcond, rfl⟩
    exact ⟨l, l', ⟨⟨hl, hl'⟩, hcond⟩, rfl⟩

variable (spec : JoinStruct Row)

theorem JoinStruct.eval_inner (h : spec.joinType = .inner) (left right : Multiset Row) :
    spec.eval left right = spec.inner left right := by
  unfold JoinStruct.eval
  rw [h]

theorem JoinStruct.doubled_inner (h : spec.joinType = .inner) (left right : Side Row) :
    spec.doubled left right =
      spec.inner left.doubled right.upTo + (spec.inner left.upTo right.doubled +
        spec.inner left.doubled right.doubled) := by
  unfold JoinStruct.doubled
  rw [h]

/-- What the extra rows `c` and `c'` of the sides add to an inner join is, up to multiplicities,
what the update rule doubles. -/
theorem JoinStruct.inner_extra {w c d w' c' d' : Multiset Row} (h : SameRows c d)
    (h' : SameRows c' d') :
    SameRows (spec.inner c w' + (spec.inner w c' + spec.inner c c'))
      (spec.inner d (w' + c') + (spec.inner (w + c) d' + spec.inner d d')) := by
  intro r
  simp only [mem_add, JoinStruct.mem_inner, h _, h' _]
  constructor
  · rintro (⟨l, hl, l', hl', hr⟩ | ⟨l, hl, l', hl', hr⟩ | ⟨l, hl, l', hl', hr⟩)
    · exact .inl ⟨l, hl, l', .inl hl', hr⟩
    · exact .inr (.inl ⟨l, .inl hl, l', hl', hr⟩)
    · exact .inr (.inr ⟨l, hl, l', hl', hr⟩)
  · rintro (⟨l, hl, l', hl' | hl', hr⟩ | ⟨l, hl | hl, l', hl', hr⟩ | ⟨l, hl, l', hl', hr⟩)
    · exact .inl ⟨l, hl, l', hl', hr⟩
    · exact .inr (.inr ⟨l, hl, l', hl', hr⟩)
    · exact .inr (.inl ⟨l, hl, l', hl', hr⟩)
    · exact .inr (.inr ⟨l, hl, l', hl', hr⟩)
    · exact .inr (.inr ⟨l, hl, l', hl', hr⟩)

section OneRow

variable {blockNum : Row → Option Nat} {start stop : Nat} {tables : Tables Row}

namespace LogicalPlan

mutual

/-- The rows of a plan are those it has without the relations of one row, and some more, which are
the doubled rows up to multiplicities. -/
theorem eval_withoutOneRow (plan : LogicalPlan Row) (h : plan.InnerOnly) :
    ∃ c, plan.eval (tables.upTo blockNum stop) =
        plan.withoutOneRow.eval (tables.upTo blockNum stop) + c ∧
      SameRows c (plan.doubled blockNum start stop tables) := by
  match plan with
  | .tableScan scan => exact ⟨0, (add_zero _).symm, fun _ => Iff.rfl⟩
  | .values rows => exact ⟨0, (add_zero _).symm, fun _ => Iff.rfl⟩
  | .emptyRelation oneRow => exact ⟨oneRow.toList, (zero_add _).symm, fun _ => Iff.rfl⟩
  | .projection expr input =>
    rcases eval_withoutOneRow input h with ⟨c, hc, hsame⟩
    refine ⟨c.map expr, ?_, ?_⟩
    · rw [eval, hc, map_add]
      rfl
    · exact hsame.map expr
  | .filter predicate input =>
    rcases eval_withoutOneRow input h with ⟨c, hc, hsame⟩
    refine ⟨c.filter fun r => predicate r, ?_, ?_⟩
    · rw [eval, hc, filter_add]
      rfl
    · exact hsame.filter predicate
  | .union inputs =>
    rcases evalAll_withoutOneRow inputs h with ⟨c, hc, hsame⟩
    exact ⟨c, hc, hsame⟩
  | .join spec left right =>
    rcases h with ⟨hinner, hleft, hright⟩
    rcases eval_withoutOneRow left hleft with ⟨c, hc, hsame⟩
    rcases eval_withoutOneRow right hright with ⟨c', hc', hsame'⟩
    let w := left.withoutOneRow.eval (tables.upTo blockNum stop)
    let w' := right.withoutOneRow.eval (tables.upTo blockNum stop)
    refine ⟨spec.inner c w' + (spec.inner w c' + spec.inner c c'), ?_, ?_⟩
    · rw [eval, withoutOneRow, eval, spec.eval_inner hinner, spec.eval_inner hinner, hc, hc',
        spec.inner_add_add]
    · rw [doubled, spec.doubled_inner hinner]
      simp only [hc, hc']
      exact spec.inner_extra hsame hsame'
  | .other _ _ _ _ => exact absurd h id

theorem evalAll_withoutOneRow (plans : List (LogicalPlan Row)) (h : AllInnerOnly plans) :
    ∃ c, (evalAll (tables.upTo blockNum stop) plans).sum =
        (evalAll (tables.upTo blockNum stop) (withoutOneRowAll plans)).sum + c ∧
      SameRows c (doubledAll blockNum start stop tables plans).sum := by
  match plans with
  | [] => exact ⟨0, rfl, fun _ => Iff.rfl⟩
  | plan :: plans =>
    rcases eval_withoutOneRow plan h.1 with ⟨c, hc, hsame⟩
    rcases evalAll_withoutOneRow plans h.2 with ⟨c', hc', hsame'⟩
    refine ⟨c + c', ?_, ?_⟩
    · rw [evalAll, withoutOneRowAll, evalAll, List.sum_cons, List.sum_cons, hc, hc']
      ac_rfl
    · exact hsame.add hsame'

end

end LogicalPlan

/-! ## The law -/

/-- For every accepted plan of scans, values, empty relations, projections, filters, unions and
inner joins, the law holds if and only if the relations with one row contribute nothing to the rows
of the plan on the blocks up to `stop`. -/
theorem one_row_law_iff (blockNum : Row → Option Nat) (start stop : Nat) (tables : Tables Row)
    (hle : start ≤ stop) (plan output : LogicalPlan Row) (hplan : plan.InnerOnly)
    (h : incrementalizePlan blockNum start stop plan = .ok output) :
    plan.eval (tables.below blockNum start) + output.eval tables =
        plan.eval (tables.upTo blockNum stop) ↔
      plan.eval (tables.upTo blockNum stop) =
        plan.withoutOneRow.eval (tables.upTo blockNum stop) := by
  rcases @LogicalPlan.eval_withoutOneRow Row blockNum start stop tables plan hplan with
    ⟨c, hc, hsame⟩
  rw [LogicalPlan.eval_delta hle plan output (LogicalPlan.InnerOnly.streamable plan hplan) h, hc]
  calc
    _ ↔ plan.doubled blockNum start stop tables = 0 := add_eq_left
    _ ↔ c = 0 := hsame.eq_zero_iff.symm
    _ ↔ _ := add_eq_left.symm

/-- `SELECT 0, 7`, the row of the select without a table, beside the blocks. -/
def blocksAndOne : LogicalPlan (Nat × Nat) :=
  .union [baseScan "blocks", .emptyRelation (some (0, 7))]

/-- The blocks joined with the row `(0, value)` of a select without a table, by value. -/
def blocksJoinOne (value : Nat) : LogicalPlan (Nat × Nat) :=
  .join ⟨.inner, fun l r => l.2 == r.2, fun l r => (l.1, r.2), id, id, fun r _ => r⟩
    (baseScan "blocks") (.emptyRelation (some (0, value)))

/-- The blocks beside such a join. -/
def blocksAndJoin (value : Nat) : LogicalPlan (Nat × Nat) :=
  .union [baseScan "blocks", blocksJoinOne value]

/-- The row of a value that no block has is joined with nothing. -/
theorem one_row_law_iff_no_match :
    ∃ output, incrementalizePlan (fun r : Nat × Nat => some r.1) 5 9 (blocksAndJoin 7) =
        .ok output ∧
      output.eval (fun _ => {(4, 1), (6, 2)}) = {(6, 2)} ∧
      (blocksAndJoin 7).eval (Tables.below (fun r => some r.1) (fun _ => {(4, 1), (6, 2)}) 5) +
        output.eval (fun _ => {(4, 1), (6, 2)}) =
      (blocksAndJoin 7).eval (Tables.upTo (fun r => some r.1) (fun _ => {(4, 1), (6, 2)}) 9) := by
  have haccepted : ∃ output, incrementalizePlan (fun r : Nat × Nat => some r.1) 5 9
      (blocksAndJoin 7) = .ok output ∧ output.eval (fun _ => {(4, 1), (6, 2)}) = {(6, 2)} :=
    ⟨_, rfl, by decide⟩
  rcases haccepted with ⟨output, houtput, hrows⟩
  refine ⟨output, houtput, hrows, ?_⟩
  have hplan : (blocksAndJoin 7).InnerOnly := ⟨trivial, ⟨rfl, trivial, trivial⟩, trivial⟩
  refine (one_row_law_iff _ 5 9 _ (by decide) _ output hplan houtput).mpr ?_
  decide

/-- Under a union the row is added although it is there already, and joined with a block of the
microbatch it is added twice. -/
theorem one_row_added_again :
    (∃ output, incrementalizePlan (fun r : Nat × Nat => some r.1) 5 9 blocksAndOne = .ok output ∧
      blocksAndOne.eval (Tables.below (fun r => some r.1) (fun _ => {(6, 1)}) 5) +
        output.eval (fun _ => {(6, 1)}) = {(0, 7), (6, 1), (0, 7)} ∧
      blocksAndOne.eval (Tables.upTo (fun r => some r.1) (fun _ => {(6, 1)}) 9) =
        {(6, 1), (0, 7)}) ∧
    ∃ output, incrementalizePlan (fun r : Nat × Nat => some r.1) 5 9 (blocksJoinOne 1) =
        .ok output ∧
      (blocksJoinOne 1).eval (Tables.below (fun r => some r.1) (fun _ => {(6, 1)}) 5) +
        output.eval (fun _ => {(6, 1)}) = {(6, 1), (6, 1)} ∧
      (blocksJoinOne 1).eval (Tables.upTo (fun r => some r.1) (fun _ => {(6, 1)}) 9) =
        {(6, 1)} := by
  refine ⟨⟨_, rfl, ?_, ?_⟩, ⟨_, rfl, ?_, ?_⟩⟩
  · decide
  · decide
  · decide
  · decide

end OneRow

end CampNode

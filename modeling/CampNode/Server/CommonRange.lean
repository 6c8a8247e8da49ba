import CampNode.Segments.Basic
import Mathlib.Data.Multiset.Filter
import Mathlib.Data.Multiset.Range
import Mathlib.Algebra.BigOperators.Group.Multiset.Basic

/-!
# CampNode.Server.CommonRange — the block range of a query that is executed once

A query that is not streamed is executed on the snapshots of its tables. The result is sent
with a block range, which `common_range` folds from the synced ranges of the tables that a
visitor finds in the plan: from the least start to the least end. The scans are not
restricted to that range.

* `networks_fail_assertion`, `union_reads_beyond_range`, `subquery_reads_beyond_range` — the fold
  asserts that there is one network only; the result has rows of blocks above the least end;
  and the visitor does not look at the subqueries of expressions.
* `result_within_range_iff` — the plans on some tables are all right exactly if the tables that
  the visitor finds have one network, and no table that is read has rows outside their range.
-/

namespace CampNode

open List

/-! ## Synced ranges -/

section MinMax

variable {α : Type} (key : α → Nat)

/-- `Iterator::min_by_key`: the first one of several. -/
def minByKey : List α → Option α
  | [] => none
  | a :: rest =>
      match minByKey rest with
      | none => some a
      | some m => if key a ≤ key m then some a else some m

/-- `Iterator::max_by_key`: the last one of several. -/
def maxByKey : List α → Option α
  | [] => none
  | a :: rest =>
      match maxByKey rest with
      | none => some a
      | some m => if key a ≤ key m then some m else some a

end MinMax

/-- The canonical segments of a table when the query starts. -/
abbrev TableSnapshot := List Segment

/-- `TableSnapshot::synced_range`. -/
def TableSnapshot.syncedRange (segments : TableSnapshot) : Option BlockRange :=
  match minByKey (·.range.start) segments, maxByKey (·.range.stop) segments with
  | some start, some stop =>
      some ⟨⟨start.range.start, stop.range.stop⟩, start.range.network, stop.range.hash,
        start.range.prevHash⟩
  | _, _ => none

/-! ## The common range -/

/-- The step of `common_range` for another table of the same network. -/
def narrow (r tableRange : BlockRange) : BlockRange :=
  let r := if tableRange.start < r.start
    then { r with numbers := ⟨tableRange.start, r.stop⟩, prevHash := tableRange.prevHash } else r
  if tableRange.stop < r.stop
    then { r with numbers := ⟨r.start, tableRange.stop⟩, hash := tableRange.hash } else r

variable (r t : BlockRange)

theorem narrow_start : (narrow r t).start = min r.start t.start := by
  unfold narrow
  simp only
  split <;> split <;> simp only [BlockRange.start] at * <;> omega

theorem narrow_stop : (narrow r t).stop = min r.stop t.stop := by
  unfold narrow
  simp only
  split <;> split <;> simp only [BlockRange.stop] at * <;> omega

theorem narrow_network : (narrow r t).network = r.network := by
  unfold narrow
  simp only
  split <;> split <;> rfl

/-- The loop of `common_range`. The outer `none` is a failed assertion. -/
def commonRangeFrom (range : Option BlockRange) : List TableSnapshot → Option (Option BlockRange)
  | [] => some range
  | table :: rest =>
      match table.syncedRange with
      | none => some none
      | some tableRange =>
          match range with
          | none => commonRangeFrom (some tableRange) rest
          | some r =>
              if r.network = tableRange.network then commonRangeFrom (some (narrow r tableRange)) rest
              else none

def commonRange (tables : List TableSnapshot) : Option (Option BlockRange) :=
  commonRangeFrom none tables

/-- A block of the range from the least start to the least end. -/
def Spanned (ranges : List BlockRange) (block : Nat) : Prop :=
  (∃ r ∈ ranges, r.start ≤ block) ∧ ∀ r ∈ ranges, block ≤ r.stop

theorem spanned_narrow {ranges : List BlockRange} {block : Nat} :
    Spanned (narrow r t :: ranges) block ↔ Spanned (r :: t :: ranges) block := by
  simp only [Spanned, mem_cons, exists_eq_or_imp, forall_eq_or_imp, narrow_start, narrow_stop,
    min_le_iff, le_min_iff, or_assoc, and_assoc]

variable {r} {tables : List TableSnapshot}

/-- The loop over synced tables fails at the first one of another network, or else it finds the
range from the least start to the least end. -/
theorem commonRangeFrom_cases (hsynced : ∀ t ∈ tables, t.syncedRange ≠ none) :
    (commonRangeFrom (some r) tables = none ∧
      ∃ t ∈ tables.filterMap TableSnapshot.syncedRange, t.network ≠ r.network) ∨
    ∃ range, commonRangeFrom (some r) tables = some (some range) ∧
      (∀ t ∈ tables.filterMap TableSnapshot.syncedRange, t.network = r.network) ∧
      ∀ block, range.start ≤ block ∧ block ≤ range.stop ↔
        Spanned (r :: tables.filterMap TableSnapshot.syncedRange) block := by
  induction tables generalizing r with
  | nil => exact Or.inr ⟨r, rfl, nofun, fun block => by simp [Spanned]⟩
  | cons table rest ih =>
    obtain ⟨t, ht⟩ := Option.ne_none_iff_exists'.mp (hsynced table mem_cons_self)
    rw [filterMap_cons_some ht]
    by_cases hnet : r.network = t.network
    · have hstep : commonRangeFrom (some r) (table :: rest) =
          commonRangeFrom (some (narrow r t)) rest := by
        simp [commonRangeFrom, ht, hnet]
      rw [hstep]
      rcases @ih (narrow r t) fun t ht => hsynced t (mem_cons_of_mem _ ht) with
        ⟨hnone, q, hq, hne⟩ | ⟨range, hrange, hnets, hspan⟩
      · exact Or.inl ⟨hnone, q, mem_cons_of_mem _ hq, by rwa [narrow_network] at hne⟩
      · refine Or.inr ⟨range, hrange, ?_, fun block => (hspan block).trans (spanned_narrow r t)⟩
        rw [narrow_network] at hnets
        exact forall_mem_cons.mpr ⟨hnet.symm, hnets⟩
    · refine Or.inl ⟨?_, t, mem_cons_self, Ne.symm hnet⟩
      simp [commonRangeFrom, ht, hnet]

/-- The common range of synced tables. -/
theorem commonRange_cases (hne : tables ≠ []) (hsynced : ∀ t ∈ tables, t.syncedRange ≠ none) :
    (commonRange tables = none ∧
      ¬∃ network, ∀ t ∈ tables.filterMap TableSnapshot.syncedRange, t.network = network) ∨
    ∃ range, commonRange tables = some (some range) ∧
      (∃ network, ∀ t ∈ tables.filterMap TableSnapshot.syncedRange, t.network = network) ∧
      ∀ block, range.start ≤ block ∧ block ≤ range.stop ↔
        Spanned (tables.filterMap TableSnapshot.syncedRange) block := by
  obtain ⟨table, rest, rfl⟩ := exists_cons_of_ne_nil hne
  obtain ⟨first, hfirst⟩ := Option.ne_none_iff_exists'.mp (hsynced table mem_cons_self)
  have hstep : commonRange (table :: rest) = commonRangeFrom (some first) rest := by
    simp [commonRange, commonRangeFrom, hfirst]
  rw [hstep, filterMap_cons_some hfirst]
  rcases @commonRangeFrom_cases first rest fun t ht => hsynced t (mem_cons_of_mem _ ht) with
    ⟨hnone, t, ht, hother⟩ | ⟨range, hrange, hnets, hspan⟩
  · refine Or.inl ⟨hnone, ?_⟩
    rintro ⟨network, hnetwork⟩
    exact hother ((hnetwork t (mem_cons_of_mem _ ht)).trans (hnetwork first mem_cons_self).symm)
  · exact Or.inr ⟨range, hrange, ⟨first.network, forall_mem_cons.mpr ⟨rfl, hnets⟩⟩, hspan⟩

/-! ## Plans -/

/-- A plan as far as it reads tables: a node computes its rows from those of its inputs and
from the subqueries in its expressions. -/
inductive QueryPlan (Row : Type) where
  | tableScan (table : String)
  | node (meaning : List (Multiset Row) → List (Multiset Row) → Multiset Row)
      (inputs subqueries : List (QueryPlan Row))

namespace QueryPlan

variable {Row : Type}

mutual

/-- The rows of a plan. -/
def eval (tables : String → Multiset Row) : QueryPlan Row → Multiset Row
  | .tableScan table => tables table
  | .node meaning inputs subqueries => meaning (evalAll tables inputs) (evalAll tables subqueries)

def evalAll (tables : String → Multiset Row) : List (QueryPlan Row) → List (Multiset Row)
  | [] => []
  | plan :: plans => eval tables plan :: evalAll tables plans

end

mutual

/-- The tables that `extract_table_references_from_plan` finds: `plan.apply` visits the inputs
of a node. -/
def references : QueryPlan Row → List String
  | .tableScan table => [table]
  | .node _ inputs _ => referencesAll inputs

def referencesAll : List (QueryPlan Row) → List String
  | [] => []
  | plan :: plans => references plan ++ referencesAll plans

end

mutual

/-- The tables that the result depends on. -/
def reads : QueryPlan Row → List String
  | .tableScan table => [table]
  | .node _ inputs subqueries => readsAll inputs ++ readsAll subqueries

def readsAll : List (QueryPlan Row) → List String
  | [] => []
  | plan :: plans => reads plan ++ readsAll plans

end

mutual

theorem eval_congr {tables tables' : String → Multiset Row} (plan : QueryPlan Row)
    (h : ∀ t ∈ plan.reads, tables t = tables' t) : plan.eval tables = plan.eval tables' := by
  cases plan with
  | tableScan table =>
    rw [eval, eval]
    exact h table (by simp [reads])
  | node meaning inputs subqueries =>
    rw [reads] at h
    rw [eval, eval, evalAll_congr inputs fun t ht => h t (mem_append_left _ ht),
      evalAll_congr subqueries fun t ht => h t (mem_append_right _ ht)]

theorem evalAll_congr {tables tables' : String → Multiset Row} (plans : List (QueryPlan Row))
    (h : ∀ t ∈ readsAll plans, tables t = tables' t) : evalAll tables plans = evalAll tables' plans := by
  cases plans with
  | nil =>
    rw [evalAll, evalAll]
  | cons plan plans =>
    rw [readsAll] at h
    rw [evalAll, evalAll, eval_congr plan fun t ht => h t (mem_append_left _ ht),
      evalAll_congr plans fun t ht => h t (mem_append_right _ ht)]

end

variable (read : List String)

theorem evalAll_scans (tables : String → Multiset Row) :
    evalAll tables (read.map tableScan) = read.map tables := by
  induction read with
  | nil => rw [map_nil, map_nil, evalAll]
  | cons t read ih => rw [map_cons, map_cons, evalAll, eval, ih]

theorem referencesAll_scans : referencesAll (read.map (@tableScan Row)) = read := by
  induction read with
  | nil => rw [map_nil, referencesAll]
  | cons t read ih => rw [map_cons, referencesAll, references, ih, singleton_append]

theorem readsAll_scans : readsAll (read.map (@tableScan Row)) = read := by
  induction read with
  | nil => rw [map_nil, readsAll]
  | cons t read ih => rw [map_cons, readsAll, reads, ih, singleton_append]

/-- The plan that scans the tables, and returns the rows of a subquery on one of those that are
read. -/
def selects (tables read : List String) (table : String) : QueryPlan Row :=
  .node (fun _ subqueries => subqueries.getD (read.idxOf table) 0) (tables.map .tableScan)
    (read.map .tableScan)

theorem eval_selects {tables read : List String} {table : String} (htable : table ∈ read)
    (rows : String → Multiset Row) : (selects tables read table).eval rows = rows table := by
  have hlt := idxOf_lt_length_iff.mpr htable
  rw [selects, eval, evalAll_scans, getD_eq_getElem?_getD, getElem?_map, getElem?_eq_getElem hlt,
    getElem_idxOf hlt]
  rfl

theorem references_selects (tables read : List String) (table : String) :
    (selects tables read table : QueryPlan Row).references = tables := by
  rw [selects, references, referencesAll_scans]

theorem reads_selects (tables read : List String) (table : String) :
    (selects tables read table : QueryPlan Row).reads = tables ++ read := by
  rw [selects, reads, readsAll_scans, readsAll_scans]

end QueryPlan

/-! ## Execution -/

section Execution

variable {Row : Type} (blockNum : Row → Nat) (fileRows : Segment → Multiset Row)
  (snapshots : String → TableSnapshot)

/-- A scan reads all files of the snapshot. -/
def contents (table : String) : Multiset Row := ((snapshots table).map fileRows).sum

/-- The base rows whose block is in the range. -/
def within (range : BlockRange) (tables : String → Multiset Row) (table : String) : Multiset Row :=
  (tables table).filter fun row => range.start ≤ blockNum row ∧ blockNum row ≤ range.stop

/-- `execute_plan` of a query that is not streamed: the rows and their block range. The tables
are those that the visitor finds, in some order; `none` is a failed assertion. -/
def executePlan (plan : QueryPlan Row) (tables : List String) :
    Option (Multiset Row × Option BlockRange) :=
  (commonRange (tables.map snapshots)).map fun range => (plan.eval (contents fileRows snapshots), range)

/-- A batch with the ranges of its metadata and `ranges_complete`. -/
structure FlightBatch (Row : Type) where
  rows : List Row
  metadata : Option (List BlockRange × Bool)

/-- The branch of `flight_data_stream` for such a query. -/
def flightDataOnce (batches : List (List Row)) (blockRange : Option BlockRange) :
    List (FlightBatch Row) :=
  batches.map (fun rows => ⟨rows, blockRange.map fun range => ([range], false)⟩) ++
    blockRange.toList.map fun range => ⟨[], some ([range], true)⟩

/-- No assertion fails, and every range that is sent with the result holds all blocks that the
result depends on. -/
def ReportsRange (plan : QueryPlan Row) (tables : List String) : Prop :=
  ∃ result blockRange, executePlan fileRows snapshots plan tables = some (result, blockRange) ∧
    ∀ batches : List (List Row), (batches.flatten : Multiset Row) = result →
      ∀ batch ∈ flightDataOnce batches blockRange, ∀ metadata ∈ batch.metadata,
        ∃ range, metadata.1 = [range] ∧
          result = plan.eval (within blockNum range (contents fileRows snapshots))

variable {blockNum fileRows snapshots}

/-- The metadata of a batch has the range of the query. -/
theorem metadata_of_mem {batches : List (List Row)} {range : BlockRange} {batch : FlightBatch Row}
    (hbatch : batch ∈ flightDataOnce batches (some range)) :
    ∀ metadata ∈ batch.metadata, metadata.1 = [range] := by
  intro metadata hmetadata
  unfold flightDataOnce at hbatch
  rcases mem_append.mp hbatch with hdata | hlast
  · obtain ⟨rows, -, rfl⟩ := mem_map.mp hdata
    cases hmetadata
    rfl
  · cases mem_singleton.mp hlast
    cases hmetadata
    rfl

theorem reportsRange_iff {plan : QueryPlan Row} {tables : List String} {range : BlockRange}
    (hrange : commonRange (tables.map snapshots) = some (some range)) :
    ReportsRange blockNum fileRows snapshots plan tables ↔
      plan.eval (contents fileRows snapshots) =
        plan.eval (within blockNum range (contents fileRows snapshots)) := by
  have hexecute : executePlan fileRows snapshots plan tables =
      some (plan.eval (contents fileRows snapshots), some range) := by
    simp [executePlan, hrange]
  constructor
  · rintro ⟨result, blockRange, hresult, hsent⟩
    cases hexecute.symm.trans hresult
    -- the range comes with the empty batch at the end, if nowhere else
    obtain ⟨sent, hsent, hdepends⟩ := hsent [(plan.eval (contents fileRows snapshots)).toList]
      (by simp) ⟨[], some ([range], true)⟩ (by simp [flightDataOnce]) _ rfl
    cases hsent
    exact hdepends
  · intro hdepends
    exact ⟨_, _, hexecute, fun batches _ batch hbatch metadata hmetadata =>
      ⟨range, metadata_of_mem hbatch metadata hmetadata, hdepends⟩⟩

end Execution

/-- The visitor finds some of the tables that are read, all of them synced. The plans on these
tables are all right exactly if the tables that it finds have one network, and the rows of every
table that is read are in the range from their least start to their least end. -/
theorem result_within_range_iff {Row : Type} (blockNum : Row → Nat)
    (fileRows : Segment → Multiset Row) (snapshots : String → TableSnapshot)
    (tables read : List String) (hne : tables ≠ []) (hread : tables ⊆ read)
    (hsynced : ∀ t ∈ tables, (snapshots t).syncedRange ≠ none) :
    (∀ plan : QueryPlan Row, (∀ t, t ∈ tables ↔ t ∈ plan.references) →
        (∀ t, t ∈ read ↔ t ∈ plan.reads) →
        ReportsRange blockNum fileRows snapshots plan tables) ↔
      (∃ network, ∀ r ∈ (tables.map snapshots).filterMap TableSnapshot.syncedRange,
        r.network = network) ∧
      ∀ t ∈ read, ∀ row ∈ contents fileRows snapshots t,
        Spanned ((tables.map snapshots).filterMap TableSnapshot.syncedRange) (blockNum row) := by
  have hreads : ∀ t', t' ∈ read ↔ t' ∈ tables ++ read := fun t' =>
    ⟨mem_append_right _, fun h => (mem_append.mp h).elim (fun ht => hread ht) id⟩
  -- the plans with a subquery on one of the tables that are read
  have hselects : (∀ plan : QueryPlan Row, (∀ t, t ∈ tables ↔ t ∈ plan.references) →
      (∀ t, t ∈ read ↔ t ∈ plan.reads) → ReportsRange blockNum fileRows snapshots plan tables) →
      ∀ t, ReportsRange blockNum fileRows snapshots (.selects tables read t) tables :=
    fun h t => h _ (fun _ => by rw [QueryPlan.references_selects])
      fun t' => by rw [QueryPlan.reads_selects, hreads t']
  have hsynced' : ∀ t ∈ tables.map snapshots, t.syncedRange ≠ none := by
    intro t ht
    obtain ⟨name, hname, rfl⟩ := mem_map.mp ht
    exact hsynced name hname
  rcases commonRange_cases (by simpa using hne) hsynced' with
    ⟨hnone, hnets⟩ | ⟨range, hrange, hnets, hspan⟩
  · refine iff_of_false ?_ fun h => hnets h.1
    intro h
    obtain ⟨result, blockRange, hexecute, -⟩ := hselects h ""
    simp [executePlan, hnone] at hexecute
  constructor
  · intro h
    refine ⟨hnets, fun t ht row hrow => (hspan _).mp ?_⟩
    have hright := (reportsRange_iff hrange).mp (hselects h t)
    rw [QueryPlan.eval_selects ht, QueryPlan.eval_selects ht] at hright
    rw [hright] at hrow
    exact (Multiset.mem_filter.mp hrow).2
  · rintro ⟨-, hrows⟩ plan - hreads
    refine (reportsRange_iff hrange).mpr (plan.eval_congr fun t ht => ?_)
    refine (Multiset.filter_eq_self.mpr fun row hrow => ?_).symm
    exact (hspan _).mpr (hrows t ((hreads t).mpr ht) row hrow)

/-! ### Four tables -/

/-- One file of each table. Tables `a` and `d` are ahead of table `b`, and the other one belongs to
another network. -/
def fileOf (id stop : Nat) (network : String) : Segment := ⟨id, ⟨⟨0, stop⟩, network, 7, none⟩, ⟨id⟩⟩

def fourTables : String → TableSnapshot
  | "a" => [fileOf 0 1 "net"]
  | "b" => [fileOf 1 0 "net"]
  | "d" => [fileOf 3 1 "net"]
  | _ => [fileOf 2 1 "other"]

/-- A row for each block of the file. -/
def blocksOf (s : Segment) : Multiset Nat := Multiset.range (s.range.stop + 1)

/-- `SELECT ... FROM left UNION ALL SELECT ... FROM right`. -/
def unionOf (left right : String) : QueryPlan Nat :=
  .node (fun inputs _ => inputs.sum) [.tableScan left, .tableScan right] []

/-- `SELECT ... FROM table WHERE x + 1 IN (SELECT ... FROM other)`. -/
def whereNextIn (table other : String) : QueryPlan Nat :=
  .node (fun inputs subqueries => inputs.sum.filter fun x => x + 1 ∈ subqueries.sum)
    [.tableScan table] [.tableScan other]

/-- `SELECT ... FROM (left UNION ALL right) WHERE x IN (SELECT ... FROM other)`. -/
def unionWhereIn (left right other : String) : QueryPlan Nat :=
  .node (fun inputs subqueries => inputs.sum.filter fun x => x ∈ subqueries.sum)
    [unionOf left right] [.tableScan other]

/-- Tables `a` and `d` end at the same block, and a subquery on table `b` reads nothing above it.
The plans on tables `a` and `b` are not all right. -/
theorem result_within_range_union :
    (unionWhereIn "a" "d" "b").eval (contents blocksOf fourTables) = {0, 0} ∧
      ReportsRange id blocksOf fourTables (unionWhereIn "a" "d" "b") ["a", "d"] ∧
      ¬∀ plan : QueryPlan Nat, (∀ t, t ∈ ["a", "b"] ↔ t ∈ plan.references) →
        (∀ t, t ∈ ["a", "b"] ↔ t ∈ plan.reads) →
        ReportsRange id blocksOf fourTables plan ["a", "b"] := by
  refine ⟨by decide, ?_, ?_⟩
  · refine (result_within_range_iff id blocksOf fourTables ["a", "d"] ["a", "d", "b"] (by simp)
      (by simp) (by decide)).mpr ⟨⟨"net", by decide⟩, ?_⟩ _ ?_ ?_
    · unfold Spanned
      decide
    · simp [unionWhereIn, unionOf, QueryPlan.references, QueryPlan.referencesAll]
    · simp [unionWhereIn, unionOf, QueryPlan.reads, QueryPlan.readsAll]
  · intro hall
    obtain ⟨-, hrows⟩ := (result_within_range_iff id blocksOf fourTables ["a", "b"] ["a", "b"]
      (by simp) (by simp) (by decide)).mp hall
    -- block 1 of table `a` is above the end of table `b`
    have hone := (hrows "a" (by simp) 1 (by decide)).2 ⟨⟨0, 0⟩, "net", 7, none⟩ (by decide)
    exact absurd hone (by decide)

/-- Tables of two networks. -/
theorem networks_fail_assertion :
    executePlan blocksOf fourTables (unionOf "a" "c") ["a", "c"] = none := by
  decide

/-- The range ends at block 0, and block 1 of table `a` is in the result. -/
theorem union_reads_beyond_range : executePlan blocksOf fourTables (unionOf "a" "b") ["a", "b"] =
        some ({0, 1, 0}, some ⟨⟨0, 0⟩, "net", 7, none⟩) ∧
      (unionOf "a" "b").eval (within id ⟨⟨0, 0⟩, "net", 7, none⟩ (contents blocksOf fourTables)) =
        {0, 0} := by
  constructor
  · decide
  · decide

/-- The range is that of table `b` alone, and the rows that are selected depend on block 1 of table
`a` too. -/
theorem subquery_reads_beyond_range : (whereNextIn "b" "a").references = ["b"] ∧
      executePlan blocksOf fourTables (whereNextIn "b" "a") ["b"] =
        some ({0}, some ⟨⟨0, 0⟩, "net", 7, none⟩) ∧
      (whereNextIn "b" "a").eval (within id ⟨⟨0, 0⟩, "net", 7, none⟩ (contents blocksOf fourTables)) =
        0 := by
  refine ⟨rfl, ?_, ?_⟩
  · decide
  · decide

/-- Each of the conditions is needed. -/
theorem range_misses_blocks : executePlan blocksOf fourTables (unionOf "a" "c") ["a", "c"] = none ∧
      (executePlan blocksOf fourTables (unionOf "a" "b") ["a", "b"] =
          some ({0, 1, 0}, some ⟨⟨0, 0⟩, "net", 7, none⟩) ∧
        (unionOf "a" "b").eval (within id ⟨⟨0, 0⟩, "net", 7, none⟩ (contents blocksOf fourTables)) =
          {0, 0}) ∧
      (whereNextIn "b" "a").references = ["b"] ∧
      executePlan blocksOf fourTables (whereNextIn "b" "a") ["b"] =
        some ({0}, some ⟨⟨0, 0⟩, "net", 7, none⟩) ∧
      (whereNextIn "b" "a").eval (within id ⟨⟨0, 0⟩, "net", 7, none⟩ (contents blocksOf fourTables)) =
        0 :=
  ⟨networks_fail_assertion, union_reads_beyond_range, subquery_reads_beyond_range⟩

end CampNode

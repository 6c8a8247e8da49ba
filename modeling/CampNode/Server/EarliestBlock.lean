import CampNode.Server.CommonRange

/-!
# CampNode.Server.EarliestBlock — where a streaming query starts

A streaming query does not start at block 0 but at the block that `Catalog::earliest_block`
finds: the tables are visited in the order of the catalog, and the start of the synced range
of each is folded into an optional block number. `None` means that nothing is synced, and then
the server answers with an empty stream.

The fold takes the minimum of two options, and in Rust `None` is below every `Some`. So a table
without data forgets what was found before it.

* `unsynced_table_forgets` — a catalog with a synced table and an empty stream, and one where
  the tables before the unsynced one are ignored.
* `earliestFrom_eq` — the result is the least start among the tables behind the last unsynced one.
* `earliest_block_minimum` — what holds if one of those has the least start of all tables.
-/

namespace CampNode

open List

/-! ## The fold -/

/-- `Ord::min` on options, where `None` is below every `Some`. -/
def optionMin : Option Nat → Option Nat → Option Nat
  | some a, some b => some (min a b)
  | _, _ => none

variable (blocks : List Nat) (r : BlockRange) (earliest : Option Nat)
  (ranges : List (Option BlockRange))

/-- The body of the loop: the first case of the `match`, and all others. -/
def earliestStep (syncedRange : Option BlockRange) : Option Nat :=
  match earliest, syncedRange with
  | none, some range => some range.start
  | earliest, syncedRange => optionMin earliest (syncedRange.map BlockRange.start)

def earliestFrom : Option Nat :=
  ranges.foldl earliestStep earliest

section Catalog

variable {Table ε : Type} (snapshot : Table → Except ε TableSnapshot)

/-- `Catalog::earliest_block`. A snapshot that fails ends the loop with its error. -/
def earliestBlock (tables : List Table) : Except ε (Option Nat) :=
  tables.foldlM (fun earliest table => do
    let segments ← snapshot table
    return earliestStep earliest segments.syncedRange) none

/-- `QueryResultStream`, as the streaming branch of `execute_plan` returns it: a stream without
batches and without a block range, or the stream of a query that starts at a block. -/
inductive QueryResultStream where
  | empty
  | incremental (start : Nat)
deriving DecidableEq, Repr

/-- The streaming branch of `execute_plan`. -/
def executePlanStreaming (tables : List Table) : Except ε QueryResultStream := do
  match ← earliestBlock snapshot tables with
  | none => return .empty
  | some block => return .incremental block

end Catalog

/-! ## What the fold computes -/

/-- The first blocks of the synced tables. -/
def firstBlocks : List Nat :=
  ranges.filterMap (·.map BlockRange.start)

/-- The tables behind the last unsynced one, the last one first. -/
def sinceUnsynced : List (Option BlockRange) :=
  ranges.reverse.takeWhile Option.isSome

theorem sinceUnsynced_concat_none : sinceUnsynced (ranges ++ [none]) = [] := by
  simp [sinceUnsynced]

theorem sinceUnsynced_concat_some (r : BlockRange) :
    sinceUnsynced (ranges ++ [some r]) = some r :: sinceUnsynced ranges := by
  simp [sinceUnsynced]

theorem firstBlocks_cons_some :
    firstBlocks (some r :: ranges) = r.start :: firstBlocks ranges := rfl

theorem earliestStep_none : earliestStep earliest none = none := by
  cases earliest with
  | none => rfl
  | some a => rfl

/-- A synced table is compared with what was found before. -/
theorem earliestStep_min : earliestStep blocks.min? (some r) = (r.start :: blocks).min? := by
  rw [min?_cons]
  cases blocks.min? with
  | none => rfl
  | some a => exact congrArg some (Nat.min_comm a r.start)

/-- The result is the least start among the tables behind the last unsynced one. -/
theorem earliestFrom_eq : earliestFrom none ranges = (firstBlocks (sinceUnsynced ranges)).min? := by
  -- the fold is read from its last step, which either forgets everything or adds one table
  induction ranges using reverseRecOn with
  | nil => rfl
  | append_singleton ranges last ih =>
    unfold earliestFrom at ih ⊢
    rw [foldl_append, ih, foldl_cons, foldl_nil]
    cases last with
    | none =>
      rw [earliestStep_none, sinceUnsynced_concat_none]
      rfl
    | some r => rw [earliestStep_min, sinceUnsynced_concat_some, firstBlocks_cons_some]

theorem mem_firstBlocks_of_since {ranges : List (Option BlockRange)} {b : Nat}
    (h : b ∈ firstBlocks (sinceUnsynced ranges)) : b ∈ firstBlocks ranges := by
  unfold firstBlocks at h ⊢
  rcases mem_filterMap.mp h with ⟨r, hr, hb⟩
  have hmem : r ∈ ranges := mem_reverse.mp ((takeWhile_subset _) hr)
  exact mem_filterMap.mpr ⟨r, hmem, hb⟩

/-- Every synced table has one behind the last unsynced table that does not start later. -/
def LeastIsLast : Prop :=
  ∀ c ∈ firstBlocks ranges, ∃ b ∈ firstBlocks (sinceUnsynced ranges), b ≤ c

instance (ranges : List (Option BlockRange)) : Decidable (LeastIsLast ranges) :=
  inferInstanceAs (Decidable (∀ c ∈ firstBlocks ranges, ∃ b ∈ firstBlocks (sinceUnsynced ranges), b ≤ c))

/-- The fold finds the least start of all tables exactly if it is found behind the last unsynced
one. -/
theorem earliestFrom_eq_min_iff :
    earliestFrom none ranges = (firstBlocks ranges).min? ↔ LeastIsLast ranges := by
  rw [earliestFrom_eq]
  constructor
  · intro heq c hc
    cases hmin : (firstBlocks (sinceUnsynced ranges)).min? with
    | none =>
      rw [hmin] at heq
      rw [min?_eq_none_iff.mp heq.symm] at hc
      cases hc
    | some m =>
      rw [hmin] at heq
      refine ⟨m, (min?_eq_some_iff.mp hmin).1, ?_⟩
      exact (min?_eq_some_iff.mp heq.symm).2 c hc
  · intro hleast
    cases hmin : (firstBlocks ranges).min? with
    | none =>
      -- no table is synced, in particular none of the last ones
      have hempty : firstBlocks (sinceUnsynced ranges) = [] := by
        refine eq_nil_iff_forall_not_mem.mpr ?_
        intro b hb
        have hall := mem_firstBlocks_of_since hb
        rw [min?_eq_none_iff.mp hmin] at hall
        cases hall
      rw [hempty]
      rfl
    | some m =>
      obtain ⟨hm, hlow⟩ := min?_eq_some_iff.mp hmin
      obtain ⟨b, hb, hle⟩ := hleast m hm
      have hbm : b = m := Nat.le_antisymm hle (hlow b (mem_firstBlocks_of_since hb))
      refine min?_eq_some_iff.mpr ⟨hbm ▸ hb, ?_⟩
      intro c hc
      exact hlow c (mem_firstBlocks_of_since hc)

/-! ## Catalogs -/

section Catalog

variable {Table ε : Type} {snapshot : Table → Except ε TableSnapshot}
  {segments : Table → TableSnapshot}

/-- The synced ranges of the tables of a catalog, in its order. -/
def syncedRanges (segments : Table → TableSnapshot) (tables : List Table) :
    List (Option BlockRange) :=
  tables.map fun table => (segments table).syncedRange

theorem foldlM_earliestStep (tables : List Table)
    (hsnapshot : ∀ t ∈ tables, snapshot t = .ok (segments t)) (earliest : Option Nat) :
    tables.foldlM (fun earliest table => do
        let segments ← snapshot table
        return earliestStep earliest segments.syncedRange) earliest =
      Except.ok (earliestFrom earliest (syncedRanges segments tables)) := by
  induction tables generalizing earliest with
  | nil => rfl
  | cons table rest ih =>
    rw [foldlM_cons, hsnapshot table mem_cons_self]
    exact ih (fun t ht => hsnapshot t (mem_cons_of_mem _ ht)) _

/-- If all snapshots succeed, the loop is the fold over the synced ranges. -/
theorem earliestBlock_eq (tables : List Table)
    (hsnapshot : ∀ t ∈ tables, snapshot t = .ok (segments t)) :
    earliestBlock snapshot tables = .ok (earliestFrom none (syncedRanges segments tables)) :=
  foldlM_earliestStep tables hsnapshot none

theorem firstBlocks_perm {tables tables' : List Table} (h : tables.Perm tables') :
    (firstBlocks (syncedRanges segments tables)).Perm (firstBlocks (syncedRanges segments tables')) :=
  (h.map _).filterMap _

/-- Equal sets of numbers have the same minimum. -/
theorem min?_eq_of_perm {l l' : List Nat} (h : l.Perm l') : l.min? = l'.min? := by
  cases hmin : l'.min? with
  | none =>
    rw [min?_eq_none_iff] at hmin ⊢
    exact List.Perm.eq_nil (hmin ▸ h)
  | some m =>
    obtain ⟨hm, hlow⟩ := min?_eq_some_iff.mp hmin
    refine min?_eq_some_iff.mpr ⟨h.mem_iff.mpr hm, ?_⟩
    intro b hb
    exact hlow b (h.mem_iff.mp hb)

/-- The least start of all tables is found exactly if a table behind the last unsynced one has it.
The result is then `None` only if no table is synced, the stream is empty only then, and every
other order of the tables for which that is so gives the same result. -/
theorem earliest_block_minimum (snapshot : Table → Except ε TableSnapshot)
    (segments : Table → TableSnapshot) (tables : List Table)
    (hsnapshot : ∀ t ∈ tables, snapshot t = .ok (segments t)) :
    (earliestBlock snapshot tables = .ok (firstBlocks (syncedRanges segments tables)).min? ↔
        LeastIsLast (syncedRanges segments tables)) ∧
      (LeastIsLast (syncedRanges segments tables) →
        (earliestBlock snapshot tables = .ok none → ∀ t ∈ tables, (segments t).syncedRange = none) ∧
        (executePlanStreaming snapshot tables = .ok .empty →
          ∀ t ∈ tables, (segments t).syncedRange = none) ∧
        ∀ order, order.Perm tables → LeastIsLast (syncedRanges segments order) →
          earliestBlock snapshot order = earliestBlock snapshot tables) := by
  have hiff := earliestFrom_eq_min_iff (syncedRanges segments tables)
  rw [earliestBlock_eq tables hsnapshot]
  refine ⟨by rw [Except.ok.injEq]; exact hiff, ?_⟩
  intro hleast
  have hmin := hiff.mpr hleast
  have hnone : earliestFrom none (syncedRanges segments tables) = none →
      ∀ t ∈ tables, (segments t).syncedRange = none := by
    intro h t ht
    rw [hmin, min?_eq_none_iff] at h
    unfold firstBlocks at h
    rw [filterMap_eq_nil_iff] at h
    have hstart := h _ (mem_map.mpr ⟨t, ht, rfl⟩)
    exact Option.map_eq_none_iff.mp hstart
  refine ⟨fun h => hnone (Except.ok.inj h), ?_, ?_⟩
  · intro hempty
    apply hnone
    unfold executePlanStreaming at hempty
    rw [earliestBlock_eq tables hsnapshot] at hempty
    cases h : earliestFrom none (syncedRanges segments tables) with
    | none => rfl
    | some b =>
      rw [h] at hempty
      cases hempty
  · intro order hperm hleast'
    have hsnapshot' : ∀ t ∈ order, snapshot t = .ok (segments t) :=
      fun t ht => hsnapshot t (hperm.mem_iff.mp ht)
    rw [earliestBlock_eq order hsnapshot', hmin, (earliestFrom_eq_min_iff _).mpr hleast',
      min?_eq_of_perm (firstBlocks_perm hperm)]

end Catalog

/-! ## Two catalogs -/

/-- A table with one file that starts at a block, and a table without files. -/
def syncedFrom (start : Nat) : TableSnapshot :=
  [⟨0, ⟨⟨start, start + 9⟩, "mainnet", 0, none⟩, ⟨0⟩⟩]

def unsynced : TableSnapshot := []

/-- A catalog of tables that are given by their snapshots. -/
def listed : TableSnapshot → Except String TableSnapshot := .ok

/-- An unsynced table behind a synced one makes the result `None` and the stream empty, though in
the other order the query starts; between two synced tables it makes the query start at the second
one, above the first blocks of the first one. -/
theorem unsynced_table_forgets : executePlanStreaming listed [syncedFrom 5, unsynced] = .ok .empty ∧
      executePlanStreaming listed [unsynced, syncedFrom 5] = .ok (.incremental 5) ∧
      earliestBlock listed [syncedFrom 5, unsynced, syncedFrom 7] = .ok (some 7) ∧
      firstBlocks (syncedRanges id [syncedFrom 5, unsynced, syncedFrom 7]) = [5, 7] := by
  decide

theorem earliest_block_minimum_unsynced_first :
    LeastIsLast (syncedRanges id [unsynced, syncedFrom 7, syncedFrom 5]) ∧
      earliestBlock listed [unsynced, syncedFrom 7, syncedFrom 5] = .ok (some 5) :=
  ⟨by decide, (earliest_block_minimum listed id [unsynced, syncedFrom 7, syncedFrom 5]
    (fun _ _ => rfl)).1.mpr (by decide)⟩

end CampNode

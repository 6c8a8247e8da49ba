import CampNode.Client.Bookkeeping

/-!
# CampNode.Ampsync.Engine — the table of an ampsync task

Every row of a batch gets the transaction id of its event and its index in the
batch; the two are the primary key of the table. A batch is inserted in chunks, each
in a transaction of its own that does nothing for keys that are there already, and
an undo deletes the rows of a range of transaction ids.

The size of the chunks is taken from measurements of earlier chunks and of the
memory of the batch; the measurements are left open here.
-/

namespace CampNode.Ampsync

open List

variable {ρ : Type}

/-! ## Tables -/

/-- A row with its transaction metadata. -/
structure Row (ρ : Type) where
  txId : Nat
  rowIndex : Nat
  row : ρ
deriving DecidableEq, Repr

/-- `(_tx_id, _row_index)`. -/
def Row.key (r : Row ρ) : Nat × Nat := (r.txId, r.rowIndex)

abbrev Table (ρ : Type) := List (Row ρ)

/-- Add the transaction id and the index to every row. The indices are `i32`: of more
rows there are not enough, and the batch is refused. -/
def addTransactionMetadata (batch : List ρ) (id : Nat) : Option (List (Row ρ)) :=
  if batch.length < 2 ^ 31 then some (batch.zipIdx.map fun p => ⟨id, p.2, p.1⟩) else none

namespace Table

variable (table : Table ρ)

/-- `ON CONFLICT DO NOTHING`. -/
def insert (r : Row ρ) : Table ρ :=
  if table.any (·.key == r.key) then table else table ++ [r]

/-- `insert_batch_chunk`: one transaction. -/
def insertChunk (chunk : List (Row ρ)) : Table ρ := chunk.foldl insert table

def deleteByTxRange (range : RangeInclusive) : Table ρ :=
  table.filter fun r => !(decide (range.start ≤ r.txId) && decide (r.txId ≤ range.stop))

end Table

/-! ## Chunks -/

/-- The limits of the `AdaptiveBatchManager`. -/
structure BatchLimits where
  minBatchSize : Nat
  targetMemoryBytes : Nat

/-- The size of the chunks, from the current target and the estimated size of a
row. -/
def BatchLimits.optimalBatchSize (limits : BatchLimits) (current rowBytes : Nat) : Nat :=
  max (min current (limits.targetMemoryBytes / max rowBytes 1)) limits.minBatchSize

variable (rows : List (Row ρ)) (size start : Nat)

/-- The end of the chunk that starts at a row. -/
def chunkEnd : Nat := min (start + size) rows.length

/-- `RecordBatch::slice`. -/
def chunk : List (Row ρ) :=
  (rows.drop start).take (chunkEnd rows size start - start)

/-! ## Lemmas about tables -/

theorem mem_addTransactionMetadata {batch : List ρ} {id : Nat} {rows : List (Row ρ)}
    (h : addTransactionMetadata batch id = some rows) (r : Row ρ) :
    r ∈ rows ↔ r.txId = id ∧ batch[r.rowIndex]? = some r.row := by
  unfold addTransactionMetadata at h
  split at h
  · cases h
    constructor
    · intro hr
      rcases mem_map.mp hr with ⟨p, hp, rfl⟩
      exact ⟨rfl, mem_zipIdx_iff_getElem?.mp hp⟩
    · rintro ⟨rfl, hrow⟩
      exact mem_map.mpr ⟨(r.row, r.rowIndex), mem_zipIdx_iff_getElem?.mpr hrow, rfl⟩
  · cases h

variable {table : Table ρ} {r : Row ρ}

theorem Table.mem_insert {r x : Row ρ} (h : x ∈ table.insert r) : x ∈ table ∨ x = r := by
  unfold Table.insert at h
  split at h
  · exact .inl h
  · rcases mem_append.mp h with h | h
    · exact .inl h
    · exact .inr (mem_singleton.mp h)

theorem Table.subset_insert {r x : Row ρ} (h : x ∈ table) : x ∈ table.insert r := by
  unfold Table.insert
  split
  · exact h
  · exact mem_append_left _ h

/-- A row is there after its insertion unless another one has its key. -/
theorem Table.mem_insert_self (h : ∀ x ∈ table, x.key = r.key → x = r) : r ∈ table.insert r := by
  unfold Table.insert
  split
  · rename_i hany
    rcases any_eq_true.mp hany with ⟨x, hx, hkey⟩
    rw [← h x hx (eq_of_beq hkey)]
    exact hx
  · exact mem_append_right _ mem_cons_self

theorem Table.nodup_insert (r : Row ρ) (h : (table.map Row.key).Nodup) :
    ((table.insert r).map Row.key).Nodup := by
  unfold Table.insert
  split
  · exact h
  rename_i hany
  rw [map_append, nodup_append]
  refine ⟨h, nodup_singleton _, ?_⟩
  intro k hk k' hk' heq
  rcases mem_map.mp hk with ⟨x, hx, rfl⟩
  rw [map_singleton, mem_singleton] at hk'
  apply hany
  exact any_eq_true.mpr ⟨x, hx, beq_iff_eq.mpr (heq.trans hk')⟩

theorem Table.nodup_insertChunk (h : (table.map Row.key).Nodup) :
    ((table.insertChunk rows).map Row.key).Nodup := by
  induction rows generalizing table with
  | nil => exact h
  | cons r rows ih => exact ih (Table.nodup_insert r h)

/-- What a chunk leaves in the table, if no other row has the key of one of its rows. -/
theorem Table.mem_insertChunk {table : Table ρ} {rows : List (Row ρ)}
    (hkeys : ∀ r ∈ rows, ∀ x, (x ∈ table ∨ x ∈ rows) → x.key = r.key → x = r) (x : Row ρ) :
    x ∈ table.insertChunk rows ↔ x ∈ table ∨ x ∈ rows := by
  induction rows generalizing table with
  | nil => simp [Table.insertChunk]
  | cons r rows ih =>
    have hrest : ∀ r' ∈ rows, ∀ x, (x ∈ table.insert r ∨ x ∈ rows) → x.key = r'.key → x = r' := by
      intro r' hr' x hx hkey
      apply hkeys r' (mem_cons_of_mem _ hr') x ?_ hkey
      rcases hx with hx | hx
      · rcases Table.mem_insert hx with hx | rfl
        · exact .inl hx
        · exact .inr mem_cons_self
      · exact .inr (mem_cons_of_mem _ hx)
    have hstep : x ∈ table.insertChunk (r :: rows) ↔ x ∈ table.insert r ∨ x ∈ rows := ih hrest
    rw [hstep]
    constructor
    · rintro (hx | hx)
      · rcases Table.mem_insert hx with hx | rfl
        · exact .inl hx
        · exact .inr mem_cons_self
      · exact .inr (mem_cons_of_mem _ hx)
    · rintro (hx | hx)
      · exact .inl (Table.subset_insert hx)
      rcases mem_cons.mp hx with rfl | hx
      · apply Or.inl
        apply Table.mem_insert_self
        intro y hy hkey
        exact hkeys x mem_cons_self y (.inl hy) hkey
      · exact .inr hx

theorem Table.mem_deleteByTxRange {range : RangeInclusive} : r ∈ table.deleteByTxRange range ↔
      r ∈ table ∧ ¬ (range.start ≤ r.txId ∧ r.txId ≤ range.stop) := by
  unfold Table.deleteByTxRange
  rw [mem_filter, Bool.not_eq_true', ← Bool.not_eq_true, Bool.and_eq_true, decide_eq_true_iff,
    decide_eq_true_iff]

theorem Table.nodup_deleteByTxRange (range : RangeInclusive) (h : (table.map Row.key).Nodup) :
    ((table.deleteByTxRange range).map Row.key).Nodup :=
  h.sublist (filter_sublist.map _)

theorem take_chunkEnd :
    rows.take (chunkEnd rows size start) = rows.take start ++ chunk rows size start := by
  unfold chunk
  rw [← take_add]
  -- past the last row there is nothing more to take
  apply take_eq_take_iff.mpr
  unfold chunkEnd
  omega

/-- The rows that are there after a chunk, if at least those before it were there. -/
theorem mem_take_max_chunkEnd {rows : List (Row ρ)} {start k : Nat} (hk : start ≤ k) (r : Row ρ) :
    r ∈ rows.take (max k (chunkEnd rows size start)) ↔ r ∈ rows.take k ∨ r ∈ chunk rows size start := by
  have hbefore : rows.take start ⊆ rows.take k := (take_sublist_take_left hk).subset
  rcases Nat.le_total k (chunkEnd rows size start) with hle | hle
  · have hmore : rows.take k ⊆ rows.take (chunkEnd rows size start) :=
      (take_sublist_take_left hle).subset
    rw [Nat.max_eq_right hle]
    rw [take_chunkEnd] at hmore ⊢
    constructor
    · intro hr
      exact (mem_append.mp hr).imp_left (@hbefore r)
    · rintro (hr | hr)
      · exact hmore hr
      · exact mem_append_right _ hr
  · have hless : rows.take (chunkEnd rows size start) ⊆ rows.take k :=
      (take_sublist_take_left hle).subset
    rw [take_chunkEnd] at hless
    rw [Nat.max_eq_left hle]
    constructor
    · exact .inl
    · rintro (hr | hr)
      · exact hr
      · exact hless (mem_append_right _ hr)

end CampNode.Ampsync

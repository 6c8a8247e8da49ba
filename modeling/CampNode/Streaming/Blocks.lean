import CampNode.Segments.Chains
import CampNode.Core.HashChain

/-!
# CampNode.Streaming.Blocks — the `blocks` table of a network

A streaming query asks the `blocks` table of its network which blocks are
canonical. The table consists of files; a file holds one row for each block of
its range. A query context is bound either to the canonical segments of the table
or, to look at forked blocks, to all of them.

This module has the lookups of `StreamingQuery` in such a context
(`blocks_table_fetch`, `blocks_table_contains`) and shows that the rows of the
canonical segments form a hash chain.
-/

namespace CampNode

open List

/-- A row of the `blocks` table: `block_num`, `hash` and `parent_hash`. -/
structure BlockRow where
  number : Nat
  hash : BlockHash
  prevHash : Option BlockHash
deriving DecidableEq, Repr

structure Watermark where
  number : Nat
  hash : BlockHash
deriving DecidableEq, Repr

def BlockRow.watermark (row : BlockRow) : Watermark := ⟨row.number, row.hash⟩

def BlockRange.watermark (range : BlockRange) : Watermark := ⟨range.stop, range.hash⟩

/-- A sequence of blocks without gaps in which every block names the hash of the
one before. -/
abbrev BlockChain := HashChain BlockRow.number BlockRow.hash BlockRow.prevHash

/-! ## Files -/

/-- The contents of the files. -/
abbrev FileRows := Segment → List BlockRow

/-- A block hash identifies a block, and every block but a genesis block names its
parent. -/
structure BlockHashes (rows : FileRows) : Prop where
  identified : ∀ s t, ∀ r ∈ rows s, ∀ r' ∈ rows t, r.number = r'.number → r.hash = r'.hash → r = r'
  parented : ∀ s, ∀ r ∈ rows s, 0 < r.number → r.prevHash ≠ none

/-- The rows are the blocks of the range. -/
structure Spans (l : List BlockRow) (range : BlockRange) : Prop where
  chain : BlockChain l
  first : ∃ r ∈ l.head?, r.number = range.start ∧ r.prevHash = range.prevHash
  last : ∃ r ∈ l.getLast?, r.number = range.stop ∧ r.hash = range.hash

/-- The rows are of blocks of the range, and the last block has the hash of the range. -/
structure Sealed (rows : List BlockRow) (range : BlockRange) : Prop where
  inside : ∀ r ∈ rows, range.start ≤ r.number ∧ r.number ≤ range.stop
  last : ∃ r ∈ rows, r.number = range.stop
  hash : ∀ r ∈ rows, r.number = range.stop → r.hash = range.hash

/-- The rows of a file are the blocks of its range. -/
abbrev WellFormedFile (rows : FileRows) (s : Segment) : Prop := Spans (rows s) s.range

/-- All rows of a list of files. -/
def allRows (rows : FileRows) (segments : List Segment) : List BlockRow :=
  segments.flatMap rows

/-! ## Lookups -/

/-- `LIMIT 1` returns one of the rows of a result, if there is any. -/
structure LimitOne where
  pick : List BlockRow → Option BlockRow
  mem : ∀ {rows r}, pick rows = some r → r ∈ rows
  some_of_mem : ∀ {rows r}, r ∈ rows → ∃ r', pick rows = some r'

/-- The first row. -/
def limitFirst : LimitOne where
  pick rows := rows.head?
  mem h := List.mem_of_mem_head? h
  some_of_mem {rows r} h := by
    cases rows with
    | nil => simp at h
    | cons a rows => exact ⟨a, rfl⟩

section Lookups

variable (rows : FileRows) (limit : LimitOne) (segments : List Segment)

/-- `SELECT hash, parent_hash FROM blocks WHERE block_num = number AND hash = hash
LIMIT 1`, without the second condition if there is no hash. -/
def blocksTableFetch (number : Nat) (hash : Option BlockHash) : Option BlockRow :=
  limit.pick ((allRows rows segments).filter fun r => r.number == number && hash.all (· == r.hash))

/-- Whether the block of a watermark is in the table. The segment metadata answers
for the last block of a segment. -/
def blocksTableContains (watermark : Watermark) : Bool :=
  match segments.reverse.find? fun s => decide (s.range.start ≤ watermark.number) with
  | some segment =>
      if segment.range.stop = watermark.number then segment.range.hash == watermark.hash
      else (blocksTableFetch rows limit segments watermark.number (some watermark.hash)).isSome
  | none => (blocksTableFetch rows limit segments watermark.number (some watermark.hash)).isSome

variable {rows limit segments}

theorem blocksTableFetch_some {number : Nat} {hash : Option BlockHash} {r : BlockRow}
    (h : blocksTableFetch rows limit segments number hash = some r) :
    r ∈ allRows rows segments ∧ r.number = number ∧ ∀ p, hash = some p → r.hash = p := by
  have hmem := limit.mem h
  simp only [mem_filter, Bool.and_eq_true, beq_iff_eq] at hmem
  refine ⟨hmem.1, hmem.2.1, ?_⟩
  rintro p rfl
  exact (by simpa using hmem.2.2 : p = r.hash).symm

theorem blocksTableFetch_of_mem {r : BlockRow} (hr : r ∈ allRows rows segments) :
    ∃ r', blocksTableFetch rows limit segments r.number (some r.hash) = some r' := by
  refine limit.some_of_mem (r := r) ?_
  simp [hr]

theorem blocksTableFetch_isSome {w : Watermark} :
    (blocksTableFetch rows limit segments w.number (some w.hash)).isSome = true ↔
      ∃ r ∈ allRows rows segments, r.number = w.number ∧ r.hash = w.hash := by
  constructor
  · intro h
    rcases Option.isSome_iff_exists.mp h with ⟨r, hr⟩
    rcases blocksTableFetch_some hr with ⟨hmem, hnum, hhash⟩
    exact ⟨r, hmem, hnum, hhash _ rfl⟩
  · rintro ⟨r, hmem, hnum, hhash⟩
    rcases @blocksTableFetch_of_mem rows limit segments r hmem with ⟨r', hr'⟩
    rw [← hnum, ← hhash, hr']
    rfl

end Lookups

/-! ## Rows of a chain of segments -/

variable {rows : FileRows} {segments : List Segment}

theorem mem_allRows {r : BlockRow} : r ∈ allRows rows segments ↔ ∃ s ∈ segments, r ∈ rows s :=
  mem_flatMap

theorem BlockHashes.eq_of_hash (h : BlockHashes rows) {segments segments' : List Segment}
    {r r' : BlockRow} (hr : r ∈ allRows rows segments) (hr' : r' ∈ allRows rows segments')
    (hnum : r.number = r'.number) (hhash : r.hash = r'.hash) : r = r' := by
  rcases mem_allRows.mp hr with ⟨s, -, hs⟩
  rcases mem_allRows.mp hr' with ⟨t, -, ht⟩
  exact h.identified s t r hs r' ht hnum hhash

namespace Spans

variable {l : List BlockRow} {range : BlockRange}

theorem start_le (h : Spans l range) {r : BlockRow} (hr : r ∈ l) : range.start ≤ r.number := by
  rcases h.first with ⟨f, hf, hnum, -⟩
  rw [← hnum]
  exact h.chain.num_le_of_head hf hr

/-- Only the last block has the number of the end. -/
theorem sealed (h : Spans l range) : Sealed l range := by
  rcases h.last with ⟨last, hlast, hnum, hhash⟩
  have hmem := mem_of_mem_getLast? hlast
  refine ⟨?_, ⟨last, hmem, hnum⟩, ?_⟩
  · intro r hr
    refine ⟨h.start_le hr, ?_⟩
    rw [← hnum]
    exact h.chain.num_le_of_getLast hlast hr
  · intro r hr hstop
    rw [h.chain.eq_of_num hr hmem (hstop.trans hnum.symm)]
    exact hhash

end Spans

theorem Sealed.valid {rows : List BlockRow} {range : BlockRange} (h : Sealed rows range) :
    range.Valid := by
  rcases h.last with ⟨r, hr, -⟩
  have := h.inside r hr
  unfold BlockRange.Valid
  omega

/-- The rows of a linked sequence of files form a hash chain. -/
theorem chain_allRows (hhashes : BlockHashes rows) (hlinked : segments.IsChain Segment.Adj)
    (hwf : ∀ s ∈ segments, WellFormedFile rows s) :
    BlockChain (allRows rows segments) := by
  induction segments with
  | nil => exact List.IsChain.nil
  | cons a segments ih =>
    have hrest := ih (List.IsChain.tail hlinked) fun s hs => hwf s (mem_cons_of_mem _ hs)
    have ha := hwf a (by simp)
    unfold allRows at hrest ⊢
    rw [flatMap_cons]
    refine isChain_append.mpr ⟨ha.chain, hrest, ?_⟩
    intro x hx y hy
    cases segments with
    | nil => simp at hy
    | cons b segments =>
      have hb := hwf b (by simp)
      have hadj := BlockRange.adjacent_iff.mp (isChain_cons_cons.mp hlinked).1
      rcases ha.last with ⟨r, hr, hrnum, hrhash⟩
      rcases hb.first with ⟨f, hf, hfnum, hfprev⟩
      have hxr : x = r := by
        rw [Option.mem_def] at hx hr
        exact Option.some.inj (hx.symm.trans hr)
      have hyf : y = f := by
        have hne : rows b ≠ [] := ne_nil_of_mem (mem_of_mem_head? hf)
        rw [flatMap_cons, head?_append_of_ne_nil _ hne] at hy
        rw [Option.mem_def] at hy hf
        exact Option.some.inj (hy.symm.trans hf)
      subst hxr hyf
      -- the first block of `b` is no genesis block, so it names the last of `a`
      have hnum : y.number = x.number + 1 := by omega
      refine ⟨hnum, ?_⟩
      have hparent := hhashes.parented b y (mem_of_mem_head? hf) (by omega)
      cases hprev : y.prevHash with
      | none => exact absurd hprev hparent
      | some p =>
        rw [hadj.2.2 p (hfprev ▸ hprev), hrhash]

/-- In a chain of sealed files the metadata answers as the rows do. -/
theorem blocksTableContains_eq_fetch {limit : LimitOne} (hlinked : segments.IsChain Segment.Adj)
    (hsealed : ∀ s ∈ segments, Sealed (rows s) s.range) {w : Watermark} :
    blocksTableContains rows limit segments w =
      (blocksTableFetch rows limit segments w.number (some w.hash)).isSome := by
  unfold blocksTableContains
  split
  · rename_i segment hfind
    have hmem : segment ∈ segments := mem_reverse.mp (mem_of_find?_eq_some hfind)
    have hsegment := hsealed segment hmem
    split
    · rename_i hstop
      rw [Bool.eq_iff_iff, beq_iff_eq, blocksTableFetch_isSome]
      constructor
      · intro hhash
        rcases hsegment.last with ⟨r, hr, hnum⟩
        exact ⟨r, mem_allRows.mpr ⟨segment, hmem, hr⟩, hnum.trans hstop,
          (hsegment.hash r hr hnum).trans hhash⟩
      rintro ⟨r, hrow, hnum, hhash⟩
      rcases mem_allRows.mp hrow with ⟨t, ht, hr⟩
      -- the row is in the segment that ends there
      have hinside : t.range.Contains segment.range.stop := by
        rw [hstop, ← hnum]
        exact (hsealed t ht).inside r hr
      have hsame : t = segment :=
        eq_of_linked_contains hlinked (fun s hs => (hsealed s hs).valid) ht hmem hinside
          ⟨hsegment.valid, Nat.le_refl _⟩
      subst hsame
      rw [← hsegment.hash r hr (hnum.trans hstop.symm)]
      exact hhash
    · rfl
  · rfl

/-- A lookup in a chain of well-formed files answers whether the block is there,
through the metadata as well as through the rows. -/
theorem blocksTableContains_iff {limit : LimitOne} (hlinked : segments.IsChain Segment.Adj)
    (hwf : ∀ s ∈ segments, WellFormedFile rows s) {w : Watermark} :
    blocksTableContains rows limit segments w = true ↔
      ∃ r ∈ allRows rows segments, r.number = w.number ∧ r.hash = w.hash := by
  rw [blocksTableContains_eq_fetch hlinked fun s hs => (hwf s hs).sealed]
  exact blocksTableFetch_isSome

end CampNode

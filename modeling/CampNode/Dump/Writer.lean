import CampNode.Dump.Partition

/-!
# CampNode.Dump.Writer — writing the rows of a table to files

A `RawTableWriter` gets the rows of a table block by block and writes the blocks of its
ranges to files. A file is closed at the end of a range, when it has reached the size
limit, or when a block does not continue the chain of the blocks before it.

`Position` says where a writer stands before block `n`: it is done, it waits for its next
range, or it is inside a range with an open file that ends at block `n - 1`. One block
moves it on (`write_spec`), and the files and the open file together change in one of the
ways of `Took`.
-/

namespace CampNode

open List

variable {τ β : Type}

/-- The rows of one block for one table. -/
structure RawTableRows (τ β : Type) where
  table : τ
  rows : β
  range : BlockRange
  single : range.start = range.stop

def RawTableRows.blockNum (r : RawTableRows τ β) : Nat := r.range.start

/-- A closed file: the range in its metadata and its contents. -/
structure ParquetFile (β : Type) where
  range : BlockRange
  batches : List β
deriving DecidableEq

/-- The size limit for files, and the size that the Parquet writer reports for a file with
the given batches. -/
structure WriterProperties (β : Type) where
  partitionBytes : Nat
  bytesWritten : List β → Nat

structure RawTableWriter (τ β : Type) where
  table : τ
  /-- The ranges still to be written. The top of the stack comes first. -/
  rangesToWrite : List RangeInclusive
  currentFile : Option (List β)
  currentRange : Option BlockRange

/-! ## The writer -/

def maxPartitionBlockRange : Nat := 1000000

/-- The block before, in `u64`. -/
def prevBlock (n : Nat) : Nat := (n + (2 ^ 64 - 1)) % 2 ^ 64

namespace RawTableWriter

/-- A failed assertion or a failed `unwrap` is `none`, here and below. -/
def new (table : τ) (missingRanges : List RangeInclusive) : Option (RawTableWriter τ β) :=
  (limitRanges missingRanges maxPartitionBlockRange).map fun ranges =>
    ⟨table, ranges, ranges.head?.map fun _ => [], none⟩

variable (opts : WriterProperties β) (w : RawTableWriter τ β) (rows : RawTableRows τ β)
  (parquetMeta : Option (ParquetFile β))

def closeCurrentFile : Option (ParquetFile β × RawTableWriter τ β) := do
  let file ← w.currentFile
  let range ← w.currentRange
  some (⟨range, file⟩, { w with currentFile := none, currentRange := none })

/-- If the block is past the current range, close the file and go to the next range. -/
def passRange (blockNum : Nat) : Option (Option (ParquetFile β) × RawTableWriter τ β) :=
  match w.rangesToWrite with
  | [] => some (none, w)
  | range :: rest =>
      if range.stop < blockNum then do
        let (file, w) ← w.closeCurrentFile
        some (some file, { w with
          rangesToWrite := rest
          currentFile := rest.head?.map fun _ => [] })
      else some (none, w)

/-- The block does not continue the chain of the current range. -/
def isReorg : Bool :=
  match w.currentRange.map (·.hash), rows.range.prevHash with
  | some a, some b => a != b
  | _, _ => false

/-- On a reorg, or if the file is large enough, close it and split the current range. -/
def splitFile : Option (Option (ParquetFile β) × RawTableWriter τ β) := do
  let file ← w.currentFile
  if w.isReorg rows || decide (opts.bytesWritten file ≥ opts.partitionBytes) then
    if parquetMeta.isSome then none
    else
      let current ← w.currentRange
      if current.stop = prevBlock rows.blockNum then
        let (file, w) ← w.closeCurrentFile
        match w.rangesToWrite with
        | [] => none
        | range :: rest =>
            some (some file, { w with
              rangesToWrite := ⟨rows.blockNum, range.stop⟩ :: rest
              currentFile := some [] })
      else none
  else some (parquetMeta, w)

/-- Write the rows to the current file and extend the current range. -/
def writeRows : Option (RawTableWriter τ β) := do
  let file ← w.currentFile
  match w.currentRange with
  | none => some { w with
      currentFile := some (file ++ [rows.rows])
      currentRange := some rows.range }
  | some range =>
      if range.network = rows.range.network then
        some { w with
          currentFile := some (file ++ [rows.rows])
          currentRange := some
            ⟨⟨range.start, rows.range.stop⟩, range.network, rows.range.hash, range.prevHash⟩ }
      else none

/-- The part of `write` after `passRange`. -/
def writeBlock : Option (Option (ParquetFile β) × RawTableWriter τ β) :=
  match w.rangesToWrite with
  | [] =>
      if w.currentFile.isNone && w.currentRange.isNone then some (parquetMeta, w) else none
  | range :: _ =>
      -- the block stream has not yet reached the current range
      if rows.blockNum < range.start then some (parquetMeta, w)
      else do
        let (parquetMeta, w) ← w.splitFile opts rows parquetMeta
        let w ← w.writeRows rows
        some (parquetMeta, w)

/-- Write the rows of a block; returns the file that was closed, if any. -/
def write [DecidableEq τ] : Option (Option (ParquetFile β) × RawTableWriter τ β) :=
  if rows.table = w.table then do
    let (parquetMeta, w) ← w.passRange rows.blockNum
    w.writeBlock opts rows parquetMeta
  else none

def close : Option (Option (ParquetFile β)) :=
  match w.currentFile with
  | none => if w.rangesToWrite = [] then some none else none
  | some _ =>
      if w.rangesToWrite.length = 1 then w.closeCurrentFile.map fun r => some r.1 else none

/-- The open file, if a block was written to it. -/
def pending : List (ParquetFile β) :=
  match w.currentFile, w.currentRange with
  | some file, some range => [⟨range, file⟩]
  | _, _ => []

end RawTableWriter

/-! ## The provider -/

/-- What a provider delivers: a chain of blocks in which a block that names its parent
names the hash of the block before, the rows of the tables, and the order of the tables in
the data of a block. -/
structure Provider (τ β : Type) where
  network : String
  hash : Nat → BlockHash
  prevHash : Nat → Option BlockHash
  linked : ∀ n h, prevHash (n + 1) = some h → h = hash n
  rows : τ → Nat → β
  order : Nat → List τ

namespace Provider

variable (p : Provider τ β) (t : τ) (n : Nat)

def blockRange : BlockRange := ⟨⟨n, n⟩, p.network, p.hash n, p.prevHash n⟩

def tableRows : RawTableRows τ β :=
  ⟨t, p.rows t n, p.blockRange n, rfl⟩

/-- The range is one of the provider's chain. -/
structure Agrees (range : BlockRange) : Prop where
  network : range.network = p.network
  hash : range.hash = p.hash range.stop
  prevHash : ∀ h, range.prevHash = some h → p.prevHash range.start = some h

/-- A file with the rows of the blocks of its range. -/
structure Written (f : ParquetFile β) : Prop where
  valid : f.range.Valid
  agrees : p.Agrees f.range
  batches : f.batches = (List.range' f.range.start (f.range.stop + 1 - f.range.start)).map (p.rows t)

/-- The file with one block. -/
def blockFile : ParquetFile β :=
  ⟨p.blockRange n, [p.rows t n]⟩

/-- The file with one more block. -/
def extendFile (f : ParquetFile β) : ParquetFile β :=
  ⟨⟨⟨f.range.start, n⟩, f.range.network, p.hash n, f.range.prevHash⟩, f.batches ++ [p.rows t n]⟩

theorem written_blockFile : p.Written t (p.blockFile t n) where
  valid := Nat.le_refl n
  agrees := ⟨rfl, rfl, fun _ h => h⟩
  batches := by
    have hlen : n + 1 - n = 1 := Nat.add_sub_cancel_left n 1
    show [p.rows t n] = (range' n (n + 1 - n)).map (p.rows t)
    rw [hlen]
    rfl

variable {p t n} in
theorem Written.extend {f : ParquetFile β}
    (h : p.Written t f) (hn : f.range.stop + 1 = n) : p.Written t (p.extendFile t n f) where
  valid := by
    have hvalid : f.range.start ≤ f.range.stop := h.valid
    show f.range.start ≤ n
    omega
  agrees := ⟨h.agrees.network, rfl, h.agrees.prevHash⟩
  batches := by
    have hvalid : f.range.start ≤ f.range.stop := h.valid
    have hlen : n + 1 - f.range.start = f.range.stop + 1 - f.range.start + 1 := by omega
    have hlast : f.range.start + (f.range.stop + 1 - f.range.start) = n := by omega
    show f.batches ++ [p.rows t n] = (range' f.range.start (n + 1 - f.range.start)).map (p.rows t)
    rw [hlen, range'_1_concat, hlast, map_append, ← h.batches]
    rfl

end Provider

/-! ## One block -/

/-- Where a writer stands before block `n`. -/
inductive Position (p : Provider τ β) (t : τ) (n : Nat) : RawTableWriter τ β → Prop where
  | done : Position p t n ⟨t, [], none, none⟩
  | waiting {r rest} : n ≤ r.start → Position p t n ⟨t, r :: rest, some [], none⟩
  | inside {r rest file range} : p.Written t ⟨range, file⟩ → range.start = r.start →
      range.stop + 1 = n → range.stop ≤ r.stop →
      Position p t n ⟨t, r :: rest, some file, some range⟩

/-- A writer before block `n`, with valid ranges in order. -/
structure Ready (p : Provider τ β) (t : τ) (n : Nat) (w : RawTableWriter τ β) : Prop where
  position : Position p t n w
  valid : ∀ r ∈ w.rangesToWrite, r.Valid
  pair : w.rangesToWrite.Pairwise RangeInclusive.Below

/-- What block `n` does to a list of files, the open one included: nothing, or it begins a
file, or it is added to the last file. -/
inductive Took (p : Provider τ β) (t : τ) (n : Nat) :
    Bool → List (ParquetFile β) → List (ParquetFile β) → Prop where
  | skip {files} : Took p t n false files files
  | begin {files} : Took p t n true files (files ++ [p.blockFile t n])
  | extend {files f} : f.range.stop + 1 = n →
      Took p t n true (files ++ [f]) (files ++ [p.extendFile t n f])

theorem Took.append {p : Provider τ β} {t : τ} {n : Nat} {taken : Bool}
    {files files' : List (ParquetFile β)} (h : Took p t n taken files files')
    (before : List (ParquetFile β)) : Took p t n taken (before ++ files) (before ++ files') := by
  cases h with
  | skip => exact .skip
  | begin =>
    rw [← append_assoc]
    exact .begin
  | extend hn =>
    rw [← append_assoc, ← append_assoc]
    exact .extend hn

/-- The result of writing block `n`. -/
structure Wrote (p : Provider τ β) (t : τ) (n : Nat) (w : RawTableWriter τ β)
    (out : Option (ParquetFile β)) (w' : RawTableWriter τ β) : Prop where
  ready : Ready p t (n + 1) w'
  /-- The later blocks to be written are the same. -/
  ahead : ∀ b, n < b → (Holds w'.rangesToWrite b ↔ Holds w.rangesToWrite b)
  took : Took p t n (decide (Holds w.rangesToWrite n)) w.pending (out.toList ++ w'.pending)

section

variable {p : Provider τ β} {t : τ} {n : Nat} {opts : WriterProperties β}
variable {w : RawTableWriter τ β}

/-- A block without an open file, after any file that was closed. -/
theorem writeBlock_idle (h : Ready p t n w) (hidle : w.currentRange = none)
    (hempty : opts.bytesWritten [] < opts.partitionBytes) (out : Option (ParquetFile β)) :
    ∃ w', w.writeBlock opts (p.tableRows t n) out = some (out, w') ∧ Wrote p t n w none w' := by
  rcases h with ⟨hposition, hvalid, hpair⟩
  cases hposition with
  | done => exact ⟨_, rfl, ⟨.done, nofun, .nil⟩, fun _ _ => Iff.rfl, .skip⟩
  | @waiting r rest hn =>
    have hr : r.start ≤ r.stop := hvalid r mem_cons_self
    have hfirst : ∀ s ∈ rest, r.stop < s.start := (pairwise_cons.mp hpair).1
    by_cases hlt : n < r.start
    · -- the range is not reached
      have hnot : ¬ Holds (r :: rest) n := by
        rintro ⟨s, hs, hsn⟩
        unfold RangeInclusive.Contains at hsn
        rcases mem_cons.mp hs with rfl | hs
        · omega
        · have := hfirst s hs
          omega
      refine ⟨_, if_pos hlt, ⟨.waiting hlt, hvalid, hpair⟩, fun _ _ => Iff.rfl, ?_⟩
      rw [decide_eq_false hnot]
      exact .skip
    · -- the block begins the file
      have hrn : r.start = n := by omega
      have hyes : Holds (r :: rest) n := ⟨r, mem_cons_self, Nat.le_of_eq hrn, by omega⟩
      have hsplit : RawTableWriter.splitFile opts ⟨t, r :: rest, some [], none⟩
          (p.tableRows t n) out = some (out, ⟨t, r :: rest, some [], none⟩) := by
        simp [RawTableWriter.splitFile, RawTableWriter.isReorg, hempty]
      refine ⟨⟨t, r :: rest, some [p.rows t n], some (p.blockRange n)⟩, ?_, ?_, fun _ _ => Iff.rfl,
        ?_⟩
      · refine (if_neg hlt).trans ?_
        rw [hsplit]
        rfl
      · exact ⟨.inside (p.written_blockFile t n) hrn.symm rfl (hrn ▸ hr), hvalid, hpair⟩
      · rw [decide_eq_true hyes]
        exact @Took.begin τ β p t n []
  | inside => cases hidle

/-- A block inside the current range. -/
theorem writeBlock_inside {r : RangeInclusive} {rest : List RangeInclusive} {file : List β}
    {range : BlockRange} (h : Ready p t n ⟨t, r :: rest, some file, some range⟩)
    (hwritten : p.Written t ⟨range, file⟩) (hstart : range.start = r.start)
    (hstop : range.stop + 1 = n) (hn : n ≤ r.stop) (hu64 : n < 2 ^ 64) :
    ∃ out w', RawTableWriter.writeBlock opts ⟨t, r :: rest, some file, some range⟩
        (p.tableRows t n) none = some (out, w') ∧
      Wrote p t n ⟨t, r :: rest, some file, some range⟩ out w' := by
  rcases h with ⟨-, hvalid, hpair⟩
  have hvalid' : range.start ≤ range.stop := hwritten.valid
  have hyes : Holds (r :: rest) n := ⟨r, mem_cons_self, by omega, hn⟩
  have hreached : ¬ n < r.start := by omega
  -- the block continues the chain of the open file
  have hreorg : RawTableWriter.isReorg ⟨t, r :: rest, some file, some range⟩
      (p.tableRows t n) = false := by
    show (match some range.hash, p.prevHash n with
      | some a, some b => a != b
      | _, _ => false) = false
    cases hprev : p.prevHash n with
    | none => rfl
    | some b =>
      rw [← hstop] at hprev
      have hb := p.linked range.stop b hprev
      have ha : range.hash = p.hash range.stop := hwritten.agrees.hash
      simp [hb, ha]
  by_cases hbytes : opts.bytesWritten file ≥ opts.partitionBytes
  · -- the file is closed and the block begins the next one
    have hprev : range.stop = prevBlock n := by
      unfold prevBlock
      omega
    have hsplit : RawTableWriter.splitFile opts ⟨t, r :: rest, some file, some range⟩
        (p.tableRows t n) none =
          some (some ⟨range, file⟩, ⟨t, ⟨n, r.stop⟩ :: rest, some [], none⟩) := by
      have hblock : (p.tableRows t n).blockNum = n := rfl
      simp [RawTableWriter.splitFile, hreorg, hbytes, hblock, hprev.symm,
        RawTableWriter.closeCurrentFile]
    refine ⟨some ⟨range, file⟩, ⟨t, ⟨n, r.stop⟩ :: rest, some [p.rows t n],
      some (p.blockRange n)⟩, ?_, ⟨.inside (p.written_blockFile t n) rfl rfl hn, ?_, ?_⟩, ?_, ?_⟩
    · refine (if_neg hreached).trans ?_
      rw [hsplit]
      rfl
    · intro s hs
      rcases mem_cons.mp hs with rfl | hs
      · exact hn
      · exact hvalid s (mem_cons_of_mem r hs)
    · rcases pairwise_cons.mp hpair with ⟨hfirst, hpair⟩
      exact pairwise_cons.mpr ⟨hfirst, hpair⟩
    · intro b hb
      rw [holds_cons, holds_cons]
      refine or_congr ?_ Iff.rfl
      simp only [RangeInclusive.Contains]
      omega
    · rw [decide_eq_true hyes]
      exact .begin
  · -- the block is added to the file
    have hsplit : RawTableWriter.splitFile opts ⟨t, r :: rest, some file, some range⟩
        (p.tableRows t n) none = some (none, ⟨t, r :: rest, some file, some range⟩) := by
      simp [RawTableWriter.splitFile, hreorg, hbytes]
    have hnetwork : range.network = (p.tableRows t n).range.network := hwritten.agrees.network
    have hextended := hwritten.extend hstop
    refine ⟨none, ⟨t, r :: rest, some (p.extendFile t n ⟨range, file⟩).batches,
      some (p.extendFile t n ⟨range, file⟩).range⟩, ?_,
      ⟨.inside hextended hstart rfl hn, hvalid, hpair⟩, fun _ _ => Iff.rfl, ?_⟩
    · refine (if_neg hreached).trans ?_
      rw [hsplit]
      show (RawTableWriter.writeRows _ _).bind _ = _
      rw [show RawTableWriter.writeRows ⟨t, r :: rest, some file, some range⟩ (p.tableRows t n) = _
        from if_pos hnetwork]
      rfl
    · rw [decide_eq_true hyes]
      exact @Took.extend τ β p t n [] _ hstop

theorem write_of_pass [DecidableEq τ] {w₁ w' : RawTableWriter τ β}
    {closed out : Option (ParquetFile β)} (htable : t = w.table)
    (hpass : w.passRange n = some (closed, w₁))
    (hw : w₁.writeBlock opts (p.tableRows t n) closed = some (out, w')) :
    w.write opts (p.tableRows t n) = some (out, w') := by
  refine (if_pos htable).trans ?_
  show (w.passRange n).bind _ = _
  rw [hpass]
  exact hw

/-- What block `n` does to a writer that stands before it. -/
theorem write_spec [DecidableEq τ] (h : Ready p t n w)
    (hempty : opts.bytesWritten [] < opts.partitionBytes) (hu64 : n < 2 ^ 64) :
    ∃ out w', w.write opts (p.tableRows t n) = some (out, w') ∧ Wrote p t n w out w' := by
  have hready := h
  rcases h with ⟨hposition, hvalid, hpair⟩
  cases hposition with
  | done =>
    rcases writeBlock_idle hready rfl hempty none with ⟨w', hw', hwrote⟩
    exact ⟨none, w', write_of_pass rfl rfl hw', hwrote⟩
  | @waiting r rest hn =>
    have hr : r.start ≤ r.stop := hvalid r mem_cons_self
    rcases writeBlock_idle hready rfl hempty none with ⟨w', hw', hwrote⟩
    exact ⟨none, w', write_of_pass rfl (if_neg (by omega)) hw', hwrote⟩
  | @inside r rest file range hwritten hstart hstop hle =>
    by_cases hlt : r.stop < n
    · -- the range is complete
      have hfirst : ∀ s ∈ rest, r.stop < s.start := (pairwise_cons.mp hpair).1
      have hnext : Ready p t n ⟨t, rest, rest.head?.map fun _ => [], none⟩ := by
        refine ⟨?_, fun s hs => hvalid s (mem_cons_of_mem r hs), (pairwise_cons.mp hpair).2⟩
        cases rest with
        | nil => exact .done
        | cons r' rest =>
          have := hfirst r' mem_cons_self
          exact .waiting (by omega)
      have hholds : ∀ b, n ≤ b → (Holds rest b ↔ Holds (r :: rest) b) := by
        intro b hb
        rw [holds_cons]
        refine (or_iff_right ?_).symm
        unfold RangeInclusive.Contains
        omega
      rcases writeBlock_idle hnext rfl hempty (some ⟨range, file⟩) with ⟨w', hw', hwrote⟩
      refine ⟨some ⟨range, file⟩, w', write_of_pass rfl (if_pos hlt) hw', hwrote.ready, ?_, ?_⟩
      · intro b hb
        exact (hwrote.ahead b hb).trans (hholds b (Nat.le_of_lt hb))
      · have htook := hwrote.took.append [⟨range, file⟩]
        have hidle : RawTableWriter.pending (⟨t, rest, rest.head?.map fun _ => [], none⟩ :
            RawTableWriter τ β) = [] := by
          cases rest <;> rfl
        rw [hidle] at htook
        rw [← decide_eq_decide.mpr (hholds n (Nat.le_refl n))]
        exact htook
    · rcases @writeBlock_inside τ β p t n opts r rest file range hready hwritten hstart hstop
        (by omega) hu64 with ⟨out, w', hw', hwrote⟩
      exact ⟨out, w', write_of_pass rfl (if_neg hlt) hw', hwrote⟩

/-- Closing a writer after the last block of its ranges. -/
theorem close_spec (h : Ready p t n w) (hend : ∀ r ∈ w.rangesToWrite, r.stop < n) :
    ∃ out, w.close = some out ∧ out.toList = w.pending := by
  rcases h with ⟨hposition, hvalid, hpair⟩
  cases hposition with
  | done => exact ⟨none, rfl, rfl⟩
  | @waiting r rest hn =>
    have hr : r.start ≤ r.stop := hvalid r mem_cons_self
    have := hend r mem_cons_self
    omega
  | @inside r rest file range hwritten hstart hstop hle =>
    -- a later range would end after the block
    have hrest : rest = [] := by
      cases rest with
      | nil => rfl
      | cons r' rest =>
        have hbelow : r.stop < r'.start := (pairwise_cons.mp hpair).1 r' mem_cons_self
        have hr' : r'.start ≤ r'.stop := hvalid r' (mem_cons_of_mem r mem_cons_self)
        have := hend r' (mem_cons_of_mem r mem_cons_self)
        omega
    subst hrest
    exact ⟨some ⟨range, file⟩, rfl, rfl⟩

end

end CampNode

import CampNode.Dump.Rotation
import CampNode.Evm.Rows
import CampNode.Streaming.Query

/-!
# CampNode.Dump.BlocksTable — the metadata of a `blocks` table and its rows

`blocks_table_contains` asks whether a block is in the `blocks` table. For the last block of a
canonical segment it compares the hash with the one in the metadata of the file. For all others it
runs a query over the rows. Here the two are compared, for the files that a dump writes from the
blocks of an extractor.

The hash in the metadata is the one in the range of the last block, and the range is made by the
extractor. The extractors for EVM RPC and for Firehose take it from the header that they also write
as the row of the block, and the answers are the same. Pinax leaves the hash of the range zero, and
the table of beacon blocks has no column `hash` (`contains_ne_lookup`). `contains_eq_lookup_iff`
says for each extractor which answers are the same.

Nothing is assumed about the order of the blocks, the missing ranges or the sizes of the files. The
writer closes its file before a block that names another parent. So the blocks of a file have
consecutive numbers, if the number of a block is one more than that of its parent.
-/

namespace CampNode

open List RawTableWriter Option

/-! ## What a writer puts into its files -/

section Files

variable {τ β : Type}

/-- A file of some blocks. The start of its range comes from the first block, the end and the hash
from the last, and a block that names its parent names the block before. -/
inductive FileOf (blocks : List (RawTableRows τ β)) : ParquetFile β → Prop where
  | begin {b} : b ∈ blocks → FileOf blocks ⟨b.range, [b.rows]⟩
  | extend {f b} : FileOf blocks f → b ∈ blocks →
      (∀ h, b.range.prevHash = some h → h = f.range.hash) →
      FileOf blocks ⟨⟨⟨f.range.start, b.range.stop⟩, f.range.network, b.range.hash,
        f.range.prevHash⟩, f.batches ++ [b.rows]⟩

/-- The file that a writer has open. -/
inductive OpenFile (blocks : List (RawTableRows τ β)) : RawTableWriter τ β → Prop where
  | closed {t ranges} : OpenFile blocks ⟨t, ranges, none, none⟩
  | empty {t ranges} : OpenFile blocks ⟨t, ranges, some [], none⟩
  | filled {t ranges f} : FileOf blocks f →
      OpenFile blocks ⟨t, ranges, some f.batches, some f.range⟩

variable {blocks : List (RawTableRows τ β)} {w w' : RawTableWriter τ β} {b : RawTableRows τ β}
  {out out' : Option (ParquetFile β)} {opts : WriterProperties β}

section

variable (h : OpenFile blocks w)
include h

theorem closeCurrentFile_fileOf {f : ParquetFile β} (hclose : w.closeCurrentFile = some (f, w')) :
    FileOf blocks f ∧ w' = ⟨w.table, w.rangesToWrite, none, none⟩ := by
  cases h with
  | closed => cases hclose
  | empty => cases hclose
  | filled hf =>
    cases hclose
    exact ⟨hf, rfl⟩

theorem passRange_fileOf {n : Nat} (hpass : w.passRange n = some (out, w')) :
    OpenFile blocks w' ∧ ∀ f ∈ out, FileOf blocks f := by
  unfold passRange at hpass
  split at hpass
  · cases hpass
    exact ⟨h, nofun⟩
  rename_i range rest hranges
  split at hpass
  · rcases bind_eq_some_iff.mp hpass with ⟨⟨f, w₁⟩, hclose, hpass⟩
    rcases closeCurrentFile_fileOf h hclose with ⟨hf, rfl⟩
    cases hpass
    refine ⟨?_, ?_⟩
    · cases rest with
      | nil => exact .closed
      | cons r rest => exact .empty
    · rintro g ⟨⟩
      exact hf
  · cases hpass
    exact ⟨h, nofun⟩

/-- Whether the file is closed or not, the block that comes next continues the open one. -/
theorem splitFile_fileOf (hout : ∀ f ∈ out, FileOf blocks f)
    (hsplit : w.splitFile opts b out = some (out', w')) :
    OpenFile blocks w' ∧ (∀ f ∈ out', FileOf blocks f) ∧ w'.isReorg b = false := by
  rcases bind_eq_some_iff.mp hsplit with ⟨file, hfile, hsplit⟩
  by_cases hclosing : (w.isReorg b || decide (opts.bytesWritten file ≥ opts.partitionBytes)) = true
  · rw [if_pos hclosing] at hsplit
    split at hsplit
    · cases hsplit
    rcases bind_eq_some_iff.mp hsplit with ⟨current, hcurrent, hsplit⟩
    split at hsplit
    · rcases bind_eq_some_iff.mp hsplit with ⟨⟨f, w₁⟩, hclose, hsplit⟩
      rcases closeCurrentFile_fileOf h hclose with ⟨hf, rfl⟩
      cases hranges : w.rangesToWrite with
      | nil =>
        simp only [hranges] at hsplit
        cases hsplit
      | cons r rest =>
        simp only [hranges] at hsplit
        cases hsplit
        refine ⟨.empty, ?_, rfl⟩
        rintro g ⟨⟩
        exact hf
    · cases hsplit
  · rw [if_neg hclosing] at hsplit
    cases hsplit
    rw [Bool.or_eq_true, not_or, Bool.not_eq_true] at hclosing
    exact ⟨h, hout, hclosing.1⟩

theorem writeRows_fileOf (hb : b ∈ blocks) (hreorg : w.isReorg b = false)
    (hwrite : w.writeRows b = some w') : OpenFile blocks w' := by
  cases h with
  | closed => cases hwrite
  | empty =>
    cases hwrite
    exact .filled (.begin hb)
  | @filled t ranges f hf =>
    unfold writeRows at hwrite
    simp only [bind_eq_bind, bind_some] at hwrite
    split at hwrite
    · cases hwrite
      refine .filled (.extend hf hb ?_)
      intro hash hprev
      -- a known parent that is not the last block of the file would be a reorg
      have hsame : f.range.hash = hash := by
        simpa [isReorg, hprev] using hreorg
      exact hsame.symm
    · cases hwrite

theorem writeBlock_fileOf (hout : ∀ f ∈ out, FileOf blocks f)
    (hb : b ∈ blocks) (hwrite : w.writeBlock opts b out = some (out', w')) :
    OpenFile blocks w' ∧ ∀ f ∈ out', FileOf blocks f := by
  unfold writeBlock at hwrite
  split at hwrite
  · split at hwrite
    · cases hwrite
      exact ⟨h, hout⟩
    · cases hwrite
  split at hwrite
  · cases hwrite
    exact ⟨h, hout⟩
  rcases bind_eq_some_iff.mp hwrite with ⟨⟨out₁, w₁⟩, hsplit, hwrite⟩
  rcases splitFile_fileOf h hout hsplit with ⟨hopen, hout₁, hreorg⟩
  rcases bind_eq_some_iff.mp hwrite with ⟨w₂, hrows, hwrite⟩
  cases hwrite
  exact ⟨writeRows_fileOf hopen hb hreorg hrows, hout₁⟩

end

theorem write_fileOf [DecidableEq τ] (h : OpenFile blocks w) (hb : b ∈ blocks)
    (hwrite : w.write opts b = some (out, w')) :
    OpenFile blocks w' ∧ ∀ f ∈ out, FileOf blocks f := by
  unfold write at hwrite
  split at hwrite
  · rcases bind_eq_some_iff.mp hwrite with ⟨⟨out₁, w₁⟩, hpass, hwrite⟩
    rcases passRange_fileOf h hpass with ⟨hopen, hout⟩
    exact writeBlock_fileOf hopen hout hb hwrite
  · cases hwrite

/-- A table during a dump. -/
structure Filing (blocks : List (RawTableRows τ β)) (s : TableDump τ β) : Prop where
  writer : ∀ w ∈ s.writer, OpenFile blocks w
  files : ∀ f ∈ s.files, FileOf blocks f

theorem Filing.append {s : TableDump τ β} (h : Filing blocks s)
    (hout : ∀ f ∈ out, FileOf blocks f) : ∀ f ∈ s.files ++ out.toList, FileOf blocks f := by
  intro f hf
  rcases mem_append.mp hf with hf | hf
  · exact h.files f hf
  · exact hout f (mem_toList.mp hf)

theorem Filing.writeAll [DecidableEq τ] {rest : List (RawTableRows τ β)} {s s' : TableDump τ β}
    (h : Filing blocks s) (hrest : ∀ b ∈ rest, b ∈ blocks)
    (hs : rest.foldlM (TableDump.write opts) s = some s') : Filing blocks s' := by
  induction rest generalizing s with
  | nil =>
    cases hs
    exact h
  | cons b rest ih =>
    rcases bind_eq_some_iff.mp hs with ⟨s₁, hs₁, hs⟩
    rcases bind_eq_some_iff.mp hs₁ with ⟨w, hw, hs₁⟩
    rcases bind_eq_some_iff.mp hs₁ with ⟨⟨out, w'⟩, hwrite, hs₁⟩
    cases hs₁
    rcases write_fileOf (h.writer w hw) (hrest b mem_cons_self) hwrite with ⟨hopen, hout⟩
    refine ih ⟨?_, h.append hout⟩ (fun a ha => hrest a (mem_cons_of_mem b ha)) hs
    rintro w ⟨⟩
    exact hopen

theorem close_fileOf (h : OpenFile blocks w) (hclose : w.close = some out) :
    ∀ f ∈ out, FileOf blocks f := by
  unfold close at hclose
  split at hclose
  · split at hclose
    · cases hclose
      exact nofun
    · cases hclose
  · split at hclose
    · rcases map_eq_some_iff.mp hclose with ⟨⟨f, w'⟩, hfile, rfl⟩
      rintro g ⟨⟩
      exact (closeCurrentFile_fileOf h hfile).1
    · cases hclose

/-- The files of a table are made of the blocks that the writer was given. -/
theorem writeTable_fileOf [DecidableEq τ] {t : τ} {missing : List RangeInclusive}
    {files : List (ParquetFile β)} (h : writeTable opts t missing blocks = some files) :
    ∀ f ∈ files, FileOf blocks f := by
  rcases bind_eq_some_iff.mp h with ⟨w, hw, h⟩
  rcases bind_eq_some_iff.mp h with ⟨s, hs, h⟩
  rcases bind_eq_some_iff.mp h with ⟨s', hclose, h⟩
  cases h
  have hstart : Filing blocks ⟨some w, []⟩ := by
    refine ⟨?_, nofun⟩
    rintro w' ⟨⟩
    rcases map_eq_some_iff.mp hw with ⟨ranges, -, rfl⟩
    cases ranges with
    | nil => exact .closed
    | cons r ranges => exact .empty
  have hend := hstart.writeAll (fun _ hb => hb) hs
  rcases bind_eq_some_iff.mp hclose with ⟨w', hw', hclose⟩
  rcases bind_eq_some_iff.mp hclose with ⟨out, hout, hclose⟩
  cases hclose
  exact hend.append (close_fileOf (hend.writer w' hw') hout)

end Files

/-! ## The extractors -/

/-- The extractors with a `blocks` table. The tables of a Solana dataset are `block_headers`,
`transactions` and `messages`. -/
inductive Extractor where
  | evmRpc
  | firehose
  | ethBeacon
  | pinax
deriving DecidableEq, Repr

/-- A row of a `blocks` table, in the columns that queries of the stream read. A column that the
table does not have is `none`. -/
structure HeaderRow where
  blockNum : Nat
  hash : Option BlockHash
  parentHash : Option BlockHash
deriving DecidableEq, Repr

/-- The rows of one block for the `blocks` table. -/
abbrev HeaderRows := RawTableRows String (List HeaderRow)

/-- `RawTableRows::new`: the range has one block and all rows are of that block. -/
def newHeaderRows (range : BlockRange) (rows : List HeaderRow) : Option HeaderRows :=
  if h : range.start = range.stop then
    if rows.all (·.blockNum == range.start) then some ⟨"blocks", rows, range, h⟩ else none
  else none

/-- EVM RPC: the header row of `rpc_to_rows`. -/
def rpcHeaderRows (block : Evm.RpcBlock) (receipts : List Evm.RpcReceipt) (network : String) :
    Option HeaderRows :=
  match Evm.rpcToRows block receipts network with
  | .error _ => none
  | .ok rows =>
      newHeaderRows rows.range [⟨rows.block.blockNum, some rows.block.hash,
        some rows.block.parentHash⟩]

/-- The fields of `pbethereum::BlockHeader` that end up in the columns above. -/
structure PbBlockHeader where
  number : Nat
  hash : List UInt8
  parentHash : List UInt8

inductive ProtobufToRowError where
  | malformed (field : String) (bytes : List UInt8)
  | missing (field : String)
deriving DecidableEq, Repr

/-- A hash of 32 bytes. -/
def pbBytes32 (field : String) (bytes : List UInt8) : Except ProtobufToRowError BlockHash :=
  if bytes.length = 32 then .ok (BitVec.ofNat 256 (ofBE bytes)) else .error (.malformed field bytes)

/-- The conversions of the other fields can fail as well. A block that is not converted has no
rows. -/
def headerFromPb (header : PbBlockHeader) :
    Except ProtobufToRowError (Nat × BlockHash × BlockHash) := do
  let hash ← pbBytes32 "hash" header.hash
  let parentHash ← pbBytes32 "parent_hash" header.parentHash
  return (header.number, hash, parentHash)

variable (header : Option PbBlockHeader) (network : String) (e : Extractor)
  (f : ParquetFile (List HeaderRow))

/-- Firehose: the header row of `protobufs_to_rows`. -/
def protobufHeaderRows : Except ProtobufToRowError (Option HeaderRows) :=
  match header with
  | none => .error (.missing "header")
  | some header => do
      let (blockNum, hash, parentHash) ← headerFromPb header
      return newHeaderRows ⟨⟨blockNum, blockNum⟩, network, hash, some parentHash⟩
        [⟨blockNum, some hash, some parentHash⟩]

/-- `api::Response` of a beacon node. -/
inductive BeaconResponse where
  | slotSkipped (slot : Nat)
  | slotFilled (slot : Nat) (stateRoot : BlockHash)

/-- Beacon: the range has the state root as its hash, and the row has no hash. -/
def jsonToRow : BeaconResponse → Option HeaderRows
  | .slotSkipped slot => newHeaderRows ⟨⟨slot, slot⟩, network, 0, none⟩ [⟨slot, none, none⟩]
  | .slotFilled slot stateRoot =>
      newHeaderRows ⟨⟨slot, slot⟩, network, stateRoot, none⟩ [⟨slot, none, none⟩]

/-- A row in the files of Pinax, with the hashes read from their hex digits. -/
structure PinaxRow where
  blockNum : Nat
  hash : BlockHash
  parentHash : BlockHash

def mapBlocks (row : PinaxRow) : HeaderRow := ⟨row.blockNum, some row.hash, some row.parentHash⟩

def filterBlock (batches : List HeaderRow) (block : Nat) : List HeaderRow :=
  batches.filter (·.blockNum == block)

/-- Pinax: the rows of the block among those of the files, and a range without hashes. -/
def pinaxHeaderRows (rows : List PinaxRow) (block : Nat) : Option HeaderRows :=
  newHeaderRows ⟨⟨block, block⟩, network, 0, none⟩ (filterBlock (rows.map mapBlocks) block)

/-- The rows that an extractor can yield for the `blocks` table. -/
def Extracted : Extractor → HeaderRows → Prop
  | .evmRpc, b => ∃ block receipts network, rpcHeaderRows block receipts network = some b
  | .firehose, b => ∃ header network, protobufHeaderRows header network = .ok (some b)
  | .ethBeacon, b => ∃ network response, jsonToRow network response = some b
  | .pinax, b => ∃ network rows block, pinaxHeaderRows network rows block = some b

/-- One row, with the number and the hash of the range, and a known parent. -/
structure OneHeader (b : HeaderRows) : Prop where
  row : ∃ parentHash, b.rows = [⟨b.range.stop, some b.range.hash, parentHash⟩]
  parented : b.range.prevHash ≠ none

variable {b : HeaderRows}

theorem newHeaderRows_some {range : BlockRange} {rows : List HeaderRow}
    (h : newHeaderRows range rows = some b) : b.range = range ∧ b.rows = rows := by
  unfold newHeaderRows at h
  split at h
  · split at h
    · cases h
      exact ⟨rfl, rfl⟩
    · cases h
  · cases h

/-- What both extractors for EVM blocks do with a header. -/
theorem oneHeader_of_new {blockNum : Nat} {network : String} {hash parentHash : BlockHash}
    (h : newHeaderRows ⟨⟨blockNum, blockNum⟩, network, hash, some parentHash⟩
      [⟨blockNum, some hash, some parentHash⟩] = some b) : OneHeader b := by
  rcases newHeaderRows_some h with ⟨hrange, hrows⟩
  constructor
  · refine ⟨some parentHash, ?_⟩
    rw [hrange, hrows]
    rfl
  · rw [hrange]
    exact nofun

theorem rpcToRows_range {block : Evm.RpcBlock} {receipts : List Evm.RpcReceipt} {network : String}
    {rows : Evm.RawDatasetRows} (h : Evm.rpcToRows block receipts network = .ok rows) :
    rows.range = ⟨⟨rows.block.blockNum, rows.block.blockNum⟩, network, rows.block.hash,
      some rows.block.parentHash⟩ := by
  unfold Evm.rpcToRows at h
  split at h
  · cases h
  split at h
  · cases h
  · split at h
    · cases h
    · cases h
      rfl

theorem Extracted.oneHeader {e : Extractor} (h : Extracted e b) (he : e = .evmRpc ∨ e = .firehose) :
    OneHeader b := by
  rcases he with rfl | rfl
  · rcases h with ⟨block, receipts, network, h⟩
    unfold rpcHeaderRows at h
    split at h
    · cases h
    · rename_i rows hrows
      rw [rpcToRows_range hrows] at h
      exact oneHeader_of_new h
  · rcases h with ⟨header, network, h⟩
    cases header with
    | none => cases h
    | some header =>
      rcases Evm.bind_eq_ok h with ⟨⟨blockNum, hash, parentHash⟩, -, h⟩
      exact oneHeader_of_new (Except.ok.inj h)

/-! ## The rows of a file -/

/-- The block that a block names as its parent is the one before. -/
def ParentBefore (blocks : List HeaderRows) : Prop :=
  ∀ a ∈ blocks, ∀ b ∈ blocks, b.range.prevHash = some a.range.hash →
    b.range.start = a.range.start + 1

theorem parentBefore_of_none {blocks : List HeaderRows}
    (h : ∀ b ∈ blocks, b.range.prevHash = none) : ParentBefore blocks := by
  intro a _ b hb hprev
  rw [h b hb] at hprev
  cases hprev

/-- A row as the query reads it. -/
def HeaderRow.blockRow (row : HeaderRow) : Option BlockRow :=
  row.hash.map fun hash => ⟨row.blockNum, hash, row.parentHash⟩

def ParquetFile.blockRows : List BlockRow :=
  f.batches.flatten.filterMap HeaderRow.blockRow

section

variable {blocks : List HeaderRows} {f : ParquetFile (List HeaderRow)} {b : HeaderRows}

theorem OneHeader.blockRows (h : OneHeader b) :
    ∃ r : BlockRow, r.number = b.range.stop ∧ r.hash = b.range.hash ∧
      b.rows.filterMap HeaderRow.blockRow = [r] := by
  rcases h.row with ⟨parentHash, hrows⟩
  refine ⟨⟨b.range.stop, b.range.hash, parentHash⟩, rfl, rfl, ?_⟩
  rw [hrows]
  rfl

/-- The end and the hash of a file come from one of its blocks. -/
theorem FileOf.last (h : FileOf blocks f) :
    ∃ b ∈ blocks, b.range.stop = f.range.stop ∧ b.range.hash = f.range.hash := by
  cases h with
  | begin hb => exact ⟨_, hb, rfl, rfl⟩
  | extend hf hb hprev => exact ⟨_, hb, rfl, rfl⟩

/-- A block that is added to a file has the next number. -/
theorem FileOf.next_number (h : FileOf blocks f) (hparent : ParentBefore blocks) (hb : b ∈ blocks)
    (hone : OneHeader b) (hprev : ∀ h, b.range.prevHash = some h → h = f.range.hash) :
    b.range.stop = f.range.stop + 1 := by
  rcases h.last with ⟨a, ha, hstop, hhash⟩
  cases hb' : b.range.prevHash with
  | none => exact absurd hb' hone.parented
  | some p =>
    have hp : p = a.range.hash := (hprev p hb').trans hhash.symm
    have hnext := hparent a ha b hb (hp ▸ hb')
    rw [← b.single, ← hstop, ← a.single]
    exact hnext

theorem FileOf.sealed (h : FileOf blocks f) (hparent : ParentBefore blocks)
    (hone : ∀ b ∈ blocks, OneHeader b) : Sealed f.blockRows f.range := by
  induction h with
  | @begin b hb =>
    rcases (hone b hb).blockRows with ⟨r, hnum, hhash, hrows⟩
    have hfile : ParquetFile.blockRows ⟨b.range, [b.rows]⟩ = [r] := by
      simp [ParquetFile.blockRows, hrows]
    have hsingle := b.single
    rw [hfile]
    refine ⟨?_, ⟨r, mem_cons_self, hnum⟩, ?_⟩
    · intro r' hr'
      rw [mem_singleton.mp hr']
      show b.range.start ≤ r.number ∧ r.number ≤ b.range.stop
      omega
    · intro r' hr' _
      rw [mem_singleton.mp hr']
      exact hhash
  | @extend f b hf hb hprev ih =>
    rcases (hone b hb).blockRows with ⟨r, hnum, hhash, hrows⟩
    have hnext := hf.next_number hparent hb (hone b hb) hprev
    have hvalid : f.range.start ≤ f.range.stop := ih.valid
    have hfile : ∀ range, ParquetFile.blockRows ⟨range, f.batches ++ [b.rows]⟩ =
        f.blockRows ++ [r] := by
      intro range
      simp [ParquetFile.blockRows, hrows]
    rw [hfile]
    refine ⟨?_, ⟨r, mem_append_right _ mem_cons_self, hnum⟩, ?_⟩
    · intro r' hr'
      show f.range.start ≤ r'.number ∧ r'.number ≤ b.range.stop
      rcases mem_append.mp hr' with hr' | hr'
      · have := ih.inside r' hr'
        omega
      · rw [mem_singleton.mp hr']
        omega
    · -- only the new row has the number of the last block
      intro r' hr' hlast
      have hlast : r'.number = b.range.stop := hlast
      rcases mem_append.mp hr' with hr' | hr'
      · have := ih.inside r' hr'
        omega
      · rw [mem_singleton.mp hr']
        exact hhash

end

/-! ## The table -/

/-- A file that some dump wrote from blocks of the extractor. -/
def DumpedFrom : Prop :=
  ∃ opts missing blocks files, (∀ b ∈ blocks, Extracted e b) ∧ ParentBefore blocks ∧
    writeTable opts "blocks" missing blocks = some files ∧ f ∈ files

/-- The segment of a file has the range in the metadata of the file. -/
structure Registered (e : Extractor) (content : Segment → ParquetFile (List HeaderRow))
    (s : Segment) : Prop where
  dumped : DumpedFrom e (content s)
  range : (content s).range = s.range

/-- The rows of the files. -/
def fileRows (content : Segment → ParquetFile (List HeaderRow)) : FileRows :=
  fun s => (content s).blockRows

theorem Registered.sealed {e : Extractor} {content : Segment → ParquetFile (List HeaderRow)}
    {s : Segment} (h : Registered e content s) (he : e = .evmRpc ∨ e = .firehose) :
    Sealed (fileRows content s) s.range := by
  rcases h.dumped with ⟨opts, missing, blocks, files, hblocks, hparent, hfiles, hf⟩
  rw [← h.range]
  exact (writeTable_fileOf hfiles _ hf).sealed hparent fun b hb => (hblocks b hb).oneHeader he

namespace Extractor

/-- The columns of the table. -/
def columns : Extractor → List String
  | .ethBeacon =>
      ["_block_num", "block_num", "version", "signature", "proposer_index", "parent_root",
        "state_root", "randao_reveal", "eth1_data_deposit_root", "eth1_data_deposit_count",
        "eth1_data_block_hash", "graffiti"]
  | .evmRpc | .firehose | .pinax =>
      ["_block_num", "block_num", "timestamp", "hash", "parent_hash", "ommers_hash", "miner",
        "state_root", "transactions_root", "receipt_root", "logs_bloom", "difficulty",
        "total_difficulty", "gas_limit", "gas_used", "extra_data", "mix_hash", "nonce",
        "base_fee_per_gas", "withdrawals_root", "blob_gas_used", "excess_blob_gas",
        "parent_beacon_root"]

variable (e : Extractor) (rows : FileRows) (query : StreamingQuery) (snapshot : Snapshot)
  (w : Watermark)

/-- The answer of the query. A query that names a column the table does not have is not
planned, which is `none`. -/
def lookup : Option Bool :=
  if ["hash", "parent_hash", "block_num"].all (e.columns.contains ·) then
    some (canonicalFetch rows query snapshot w.number (some w.hash)).isSome
  else none

/-- `blocks_table_contains` with the errors of the query. -/
def contains : Option Bool :=
  match (snapshot.canonicalSegments query).reverse.find? fun s =>
    decide (s.range.start ≤ w.number) with
  | some segment =>
      if segment.range.stop = w.number then some (segment.range.hash == w.hash)
      else e.lookup rows query snapshot w
  | none => e.lookup rows query snapshot w

/-- The last canonical segment that does not start after the block ends with it. -/
def MetadataAnswers : Prop :=
  ∃ s, (snapshot.canonicalSegments query).reverse.find?
      (fun s => decide (s.range.start ≤ w.number)) = some s ∧ s.range.stop = w.number

/-- When the metadata gives the answer of the query. The metadata of Pinax has the hash 0 for every
block, and the query of a beacon table fails. -/
def Agrees : Prop :=
  match e with
  | .evmRpc | .firehose => True
  | .pinax => MetadataAnswers query snapshot w →
      (w.hash = 0 ↔ ∃ r ∈ allRows rows (snapshot.canonicalSegments query),
        r.number = w.number ∧ r.hash = w.hash)
  | .ethBeacon => ¬ MetadataAnswers query snapshot w

variable {e rows query snapshot w}

/-- The tables of EVM blocks have the columns of the query. -/
theorem lookup_eq_some (he : e ≠ .ethBeacon) : e.lookup rows query snapshot w =
    some (canonicalFetch rows query snapshot w.number (some w.hash)).isSome := by
  cases e with
  | ethBeacon => exact absurd rfl he
  | evmRpc => exact if_pos (by decide)
  | firehose => exact if_pos (by decide)
  | pinax => exact if_pos (by decide)

theorem contains_eq_some (he : e ≠ .ethBeacon) :
    e.contains rows query snapshot w = some (canonicalContains rows query snapshot w) := by
  unfold contains canonicalContains blocksTableContains
  rw [lookup_eq_some he]
  cases (snapshot.canonicalSegments query).reverse.find? fun s =>
      decide (s.range.start ≤ w.number) with
  | none => rfl
  | some segment => exact (apply_ite some _ _ _).symm

/-- Away from the ends of segments the query answers. -/
theorem contains_of_not_metadata (h : ¬ MetadataAnswers query snapshot w) :
    e.contains rows query snapshot w = e.lookup rows query snapshot w := by
  unfold contains
  split
  · rename_i segment hfind
    exact if_neg fun hstop => h ⟨segment, hfind, hstop⟩
  · rfl

/-- At the end of a segment the hash in its metadata answers. -/
theorem contains_of_metadata (h : MetadataAnswers query snapshot w) :
    ∃ s ∈ snapshot.canonicalSegments query,
      e.contains rows query snapshot w = some (s.range.hash == w.hash) := by
  obtain ⟨s, hfind, hstop⟩ := h
  refine ⟨s, mem_reverse.mp (mem_of_find?_eq_some hfind), ?_⟩
  unfold contains
  rw [hfind]
  exact if_pos hstop

end Extractor

/-- The files of Pinax have the hash 0. -/
theorem Registered.pinax_hash {content : Segment → ParquetFile (List HeaderRow)} {s : Segment}
    (h : Registered .pinax content s) : s.range.hash = 0 := by
  obtain ⟨opts, missing, blocks, files, hblocks, -, hfiles, hf⟩ := h.dumped
  obtain ⟨b, hb, -, hhash⟩ := (writeTable_fileOf hfiles _ hf).last
  obtain ⟨network, rows, block, hrows⟩ := hblocks b hb
  rw [← h.range, ← hhash, (newHeaderRows_some hrows).1]

/-- For every table that was dumped from the blocks of an extractor, and every watermark. -/
theorem contains_eq_lookup_iff (e : Extractor) (content : Segment → ParquetFile (List HeaderRow))
    (query : StreamingQuery) (snapshot : Snapshot) (w : Watermark)
    (hfiles : ∀ s ∈ snapshot.files, Registered e content s) :
    e.contains (fileRows content) query snapshot w = e.lookup (fileRows content) query snapshot w ↔
      e.Agrees (fileRows content) query snapshot w := by
  have hone (he : e = .evmRpc ∨ e = .firehose) : e.contains (fileRows content) query snapshot w =
      e.lookup (fileRows content) query snapshot w := by
    have hcolumns : e ≠ .ethBeacon := by
      rcases he with rfl | rfl <;> decide
    have hsealed : ∀ s ∈ snapshot.canonicalSegments query, Sealed (fileRows content s) s.range :=
      fun s hs => (hfiles s (canonicalSegments_subset hs)).sealed he
    rw [Extractor.contains_eq_some hcolumns, Extractor.lookup_eq_some hcolumns]
    exact congrArg some
      (blocksTableContains_eq_fetch (canonicalSegments_linked query snapshot) hsealed)
  cases e with
  | evmRpc => exact iff_of_true (hone (.inl rfl)) trivial
  | firehose => exact iff_of_true (hone (.inr rfl)) trivial
  | ethBeacon =>
    refine ⟨?_, Extractor.contains_of_not_metadata⟩
    intro heq hmetadata
    obtain ⟨s, -, hcontains⟩ := Extractor.contains_of_metadata (e := .ethBeacon) hmetadata
    rw [hcontains] at heq
    exact Option.some_ne_none _ (heq.trans (if_neg (by decide)))
  | pinax =>
    by_cases hmetadata : Extractor.MetadataAnswers query snapshot w
    · obtain ⟨s, hs, hcontains⟩ := Extractor.contains_of_metadata (e := .pinax) hmetadata
      rw [hcontains, (hfiles s (canonicalSegments_subset hs)).pinax_hash,
        Extractor.lookup_eq_some (e := .pinax) nofun, some.injEq, Bool.eq_iff_iff, beq_iff_eq,
        canonicalFetch, blocksTableFetch_isSome, eq_comm]
      exact ⟨fun h _ => h, fun h => h hmetadata⟩
    · exact iff_of_true (Extractor.contains_of_not_metadata hmetadata) fun h => absurd h hmetadata

/-! ### Tables of one file -/

/-- A network whose `blocks` table is one file. -/
def oneFile : Snapshot :=
  ⟨[⟨1, f.range, ⟨1⟩⟩], insertionSort _, [⟨1, f.range, ⟨1⟩⟩], limitFirst, [], none⟩

def blocksQuery : StreamingQuery := ⟨0, none, 100, "mainnet", none⟩

variable {e f} in
/-- The file is what the writer makes of the blocks. -/
theorem oneFile_registered {missing : List RangeInclusive} {blocks : List HeaderRows}
    (hblocks : ∀ b ∈ blocks, Extracted e b) (hparent : ParentBefore blocks)
    (hwrite : writeTable ⟨1000, length⟩ "blocks" missing blocks = some [f]) :
    ∀ s ∈ (oneFile f).files, Registered e (fun _ => f) s := by
  intro s hs
  rw [mem_singleton.mp hs]
  exact ⟨⟨_, missing, blocks, [f], hblocks, hparent, hwrite, mem_cons_self⟩, rfl⟩

def rpcBlocks : List HeaderRows :=
  [⟨"blocks", [⟨7, some 77, some 76⟩], ⟨⟨7, 7⟩, "mainnet", 77, some 76⟩, rfl⟩,
    ⟨"blocks", [⟨8, some 88, some 77⟩], ⟨⟨8, 8⟩, "mainnet", 88, some 77⟩, rfl⟩]

def rpcFile : ParquetFile (List HeaderRow) :=
  ⟨⟨⟨7, 8⟩, "mainnet", 88, some 76⟩, [[⟨7, some 77, some 76⟩], [⟨8, some 88, some 77⟩]]⟩

theorem rpcFile_registered :
    ∀ s ∈ (oneFile rpcFile).files, Registered .evmRpc (fun _ => rpcFile) s := by
  refine @oneFile_registered _ _ [⟨7, 8⟩] rpcBlocks ?_ ?_ (by decide)
  · intro b hb
    rcases mem_cons.mp hb with rfl | hb
    · exact ⟨⟨Evm.plainHeader 7 77 76, .full []⟩, [], "mainnet", rfl⟩
    · rw [mem_singleton.mp hb]
      exact ⟨⟨Evm.plainHeader 8 88 77, .full []⟩, [], "mainnet", rfl⟩
  · intro a ha b hb hprev
    simp only [rpcBlocks, mem_cons, not_mem_nil, or_false] at ha hb
    rcases ha with rfl | rfl <;> rcases hb with rfl | rfl <;> first | rfl | cases hprev

def pinaxFile : ParquetFile (List HeaderRow) :=
  ⟨⟨⟨7, 7⟩, "mainnet", 0, none⟩, [[⟨7, some 77, some 76⟩]]⟩

theorem pinaxFile_registered :
    ∀ s ∈ (oneFile pinaxFile).files, Registered .pinax (fun _ => pinaxFile) s := by
  refine @oneFile_registered _ _ [⟨7, 7⟩]
    [⟨"blocks", [⟨7, some 77, some 76⟩], ⟨⟨7, 7⟩, "mainnet", 0, none⟩, rfl⟩] ?_ ?_ (by decide)
  · intro b hb
    rw [mem_singleton.mp hb]
    -- the files of the bucket have the block before as well
    exact ⟨"mainnet", [⟨6, 76, 75⟩, ⟨7, 77, 76⟩], 7, rfl⟩
  · exact parentBefore_of_none fun b hb => by rw [mem_singleton.mp hb]

/-- Block 8 is the end of the first file. In the file of Pinax no block has the hash 99. -/
theorem contains_eq_lookup_ends :
    Extractor.evmRpc.contains (fileRows fun _ => rpcFile) blocksQuery (oneFile rpcFile) ⟨8, 88⟩ =
        Extractor.evmRpc.lookup (fileRows fun _ => rpcFile) blocksQuery (oneFile rpcFile) ⟨8, 88⟩ ∧
      Extractor.pinax.contains (fileRows fun _ => pinaxFile) blocksQuery (oneFile pinaxFile)
          ⟨7, 99⟩ =
        Extractor.pinax.lookup (fileRows fun _ => pinaxFile) blocksQuery (oneFile pinaxFile)
          ⟨7, 99⟩ := by
  constructor
  · exact (contains_eq_lookup_iff .evmRpc _ _ _ _ rpcFile_registered).mpr trivial
  · refine (contains_eq_lookup_iff .pinax _ _ _ _ pinaxFile_registered).mpr fun _ => ?_
    decide

def beaconFile : ParquetFile (List HeaderRow) :=
  ⟨⟨⟨7, 7⟩, "mainnet", 70, none⟩, [[⟨7, none, none⟩]]⟩

/-- Pinax delivers block 7 with hash 77. The metadata denies that block, and it has one with hash 0
that the rows do not have. The metadata of a beacon table knows a block by its state root, and the
query fails. -/
theorem contains_ne_lookup :
    (∃ content query snapshot, (∀ s ∈ snapshot.files, Registered .pinax content s) ∧
      Extractor.pinax.contains (fileRows content) query snapshot ⟨7, 77⟩ = some false ∧
      Extractor.pinax.lookup (fileRows content) query snapshot ⟨7, 77⟩ = some true ∧
      Extractor.pinax.contains (fileRows content) query snapshot ⟨7, 0⟩ = some true ∧
      Extractor.pinax.lookup (fileRows content) query snapshot ⟨7, 0⟩ = some false) ∧
    ∃ content query snapshot, (∀ s ∈ snapshot.files, Registered .ethBeacon content s) ∧
      Extractor.ethBeacon.contains (fileRows content) query snapshot ⟨7, 70⟩ = some true ∧
      Extractor.ethBeacon.lookup (fileRows content) query snapshot ⟨7, 70⟩ = none := by
  constructor
  · exact ⟨fun _ => pinaxFile, blocksQuery, oneFile pinaxFile, pinaxFile_registered, by decide,
      by decide, by decide, by decide⟩
  · refine ⟨fun _ => beaconFile, blocksQuery, oneFile beaconFile, ?_, by decide, by decide⟩
    refine @oneFile_registered _ _ [⟨7, 7⟩]
      [⟨"blocks", [⟨7, none, none⟩], ⟨⟨7, 7⟩, "mainnet", 70, none⟩, rfl⟩] ?_ ?_ (by decide)
    · intro b hb
      rw [mem_singleton.mp hb]
      exact ⟨"mainnet", .slotFilled 7 70, rfl⟩
    · exact parentBefore_of_none fun b hb => by rw [mem_singleton.mp hb]

end CampNode

import CampNode.Dump.BlocksTable

/-!
# CampNode.Firehose.PbToRows — the rows of a block from a Firehose endpoint

`protobufs_to_rows` turns the Protobuf message of a block into rows of four tables: the header,
the transactions that succeeded, their calls that were not reverted, and the logs of those calls.
Fields of fixed size come as byte strings and are checked for their length. Large numbers come as
big-endian byte strings of any length, and are read as a `u64` or as an `i128`.

* `currency_not_value` — a number of 17 bytes is an overflow whatever its value, and a number of
  16 bytes becomes negative if its first bit is set.
* `currency_exact_iff` — the conversion is exact for a byte string exactly if it has at most
  16 bytes just when its value is below `2^127`.
* `protobufsToRows_header` — the header row agrees with the model of the `blocks` table, which
  reads less of the message.

The Arrow builders, which do not fail on these rows, and the capacities they are given are left
out.
-/

namespace CampNode.Firehose

open Evm (Bytes32 Address Timestamp EvmCurrency bind_eq_ok)

/-! ## Messages -/

abbrev Bytes := List UInt8

/-- `pbethereum::BigInt`. -/
structure BigInt where
  bytes : Bytes
deriving DecidableEq, Repr

/-- `pbethereum::BlockHeader`. Of the time stamp only the seconds are read. -/
structure BlockHeader where
  parentHash : Bytes
  uncleHash : Bytes
  coinbase : Bytes
  stateRoot : Bytes
  transactionsRoot : Bytes
  receiptRoot : Bytes
  logsBloom : Bytes
  difficulty : Option BigInt
  totalDifficulty : Option BigInt
  number : Nat
  gasLimit : Nat
  gasUsed : Nat
  timestamp : Option Int
  extraData : Bytes
  mixHash : Bytes
  nonce : Nat
  hash : Bytes
  baseFeePerGas : Option BigInt
  withdrawalsRoot : Bytes
  blobGasUsed : Option Nat
  excessBlobGas : Option Nat
  parentBeaconRoot : Bytes

structure PbLog where
  address : Bytes
  topics : List Bytes
  data : Bytes
  blockIndex : Nat

structure PbCall where
  index : Nat
  parentIndex : Nat
  depth : Nat
  callType : Int
  caller : Bytes
  address : Bytes
  value : Option BigInt
  gasLimit : Nat
  gasConsumed : Nat
  returnData : Bytes
  input : Bytes
  executedCode : Bool
  suicide : Bool
  beginOrdinal : Nat
  endOrdinal : Nat
  stateReverted : Bool
  logs : List PbLog

structure TransactionTrace where
  «to» : Bytes
  nonce : Nat
  gasPrice : Option BigInt
  gasLimit : Nat
  value : Option BigInt
  input : Bytes
  v : Bytes
  r : Bytes
  s : Bytes
  gasUsed : Nat
  ty : Int
  maxFeePerGas : Option BigInt
  maxPriorityFeePerGas : Option BigInt
  index : Nat
  hash : Bytes
  «from» : Bytes
  returnData : Bytes
  publicKey : Bytes
  beginOrdinal : Nat
  endOrdinal : Nat
  status : Int
  calls : List PbCall

/-- `pbethereum::Block`. Its number is that of the stream; the rows have the one of the header. -/
structure PbBlock where
  number : Nat
  header : Option BlockHeader
  transactionTraces : List TransactionTrace

/-! ## Rows -/

/-- The columns are those of the extractor for RPC providers, with any bytes as the bloom filter. -/
structure Block where
  blockNum : Nat
  timestamp : Timestamp
  hash : Bytes32
  parentHash : Bytes32
  ommersHash : Bytes32
  miner : Address
  stateRoot : Bytes32
  transactionsRoot : Bytes32
  receiptRoot : Bytes32
  logsBloom : Bytes
  difficulty : EvmCurrency
  totalDifficulty : Option EvmCurrency
  gasLimit : Nat
  gasUsed : Nat
  extraData : Bytes
  mixHash : Bytes32
  nonce : Nat
  baseFeePerGas : Option EvmCurrency
  withdrawalsRoot : Option Bytes32
  blobGasUsed : Option Nat
  excessBlobGas : Option Nat
  parentBeaconRoot : Option Bytes32

structure Transaction where
  blockHash : Bytes32
  blockNum : Nat
  timestamp : Timestamp
  txIndex : Nat
  txHash : Bytes32
  «to» : Option Address
  nonce : Nat
  gasPrice : Option EvmCurrency
  gasLimit : Nat
  value : Option EvmCurrency
  input : Bytes
  v : Bytes
  r : Bytes
  s : Bytes
  receiptCumulativeGasUsed : Nat
  ty : Int
  maxFeePerGas : Option EvmCurrency
  maxPriorityFeePerGas : Option EvmCurrency
  «from» : Address
  status : Int
  returnData : Bytes
  publicKey : Bytes
  beginOrdinal : Nat
  endOrdinal : Nat

structure Call where
  blockHash : Bytes32
  blockNum : Nat
  timestamp : Timestamp
  txIndex : Nat
  txHash : Bytes32
  index : Nat
  parentIndex : Nat
  depth : Nat
  callType : Int
  caller : Address
  address : Address
  value : Option EvmCurrency
  gasLimit : Nat
  gasConsumed : Nat
  returnData : Bytes
  input : Bytes
  selfdestruct : Bool
  executedCode : Bool
  beginOrdinal : Nat
  endOrdinal : Nat

/-- The rows of the four tables, all with the range of the block. -/
structure RawDatasetRows where
  range : BlockRange
  block : Block
  transactions : List Transaction
  calls : List Call
  logs : List Evm.Log

def RawDatasetRows.blockNum (rows : RawDatasetRows) : Nat := rows.range.start

inductive ProtobufToRowError where
  | malformed (field : String) (bytes : Bytes)
  | overflow (field : String) (bytes : Bytes)
  | missing (field : String)
  | assertFail (message : String)
deriving DecidableEq, Repr

abbrev ToRow := Except ProtobufToRowError

/-! ## Numbers -/

variable (width n : Nat) (header : Block) (txIndex : Nat) (txHash : Bytes32) (field : String)

/-- The bytes copied to the end of a buffer of zeros. -/
def padLeft (bytes : Bytes) : Bytes :=
  List.replicate (width - bytes.length) 0 ++ bytes

def pbBigintToU64 (bytes : BigInt) : ToRow Nat :=
  if bytes.bytes.length > 8 then .error (.malformed field bytes.bytes)
  else .ok (ofBE (padLeft 8 bytes.bytes))

/-- The buffer is read as a `u128` and cast to `i128`. -/
def nonNegativePbBigintToEvmCurrency (bytes : BigInt) : ToRow EvmCurrency :=
  if bytes.bytes.length > 16 then .error (.overflow field bytes.bytes)
  else .ok (signed 16 (ofBE (padLeft 16 bytes.bytes)))

theorem ofBE_padLeft (bytes : Bytes) : ofBE (padLeft width bytes) = ofBE bytes := by
  unfold padLeft
  induction width - bytes.length with
  | zero => rfl
  | succ n ih =>
    rw [List.replicate_succ, List.cons_append, ofBE_cons, ih]
    simp

variable {bytes : Bytes} {block : PbBlock} {network : String} {rows : RawDatasetRows}

/-- A number of at most 16 bytes keeps its value below `2^127`, and is negative from there on. -/
theorem currency_of_short (h : bytes.length ≤ 16) : nonNegativePbBigintToEvmCurrency field ⟨bytes⟩ =
      .ok (if ofBE bytes < 2 ^ 127 then (ofBE bytes : Int) else ofBE bytes - 2 ^ 128) := by
  have hlt : ofBE bytes < 2 ^ 128 :=
    calc ofBE bytes < 256 ^ bytes.length := ofBE_lt bytes
      _ ≤ 256 ^ 16 := Nat.pow_le_pow_right (by decide) h
      _ = 2 ^ 128 := by decide
  have hsigned : signed 16 (ofBE bytes) =
      if ofBE bytes < 2 ^ 127 then (ofBE bytes : Int) else ofBE bytes - 2 ^ 128 := by
    unfold signed
    rw [Int.bmod_def]
    norm_num at hlt ⊢
    omega
  unfold nonNegativePbBigintToEvmCurrency
  rw [if_neg (by simpa using h), ofBE_padLeft, hsigned]

theorem currency_of_long (h : 16 < bytes.length) :
    nonNegativePbBigintToEvmCurrency field ⟨bytes⟩ = .error (.overflow field bytes) :=
  if_pos h

/-- A leading zero makes the number 1 an overflow, and `2^127` becomes a negative number. -/
theorem currency_not_value : ofBE (List.replicate 16 0 ++ [1]) = 1 ∧
      nonNegativePbBigintToEvmCurrency "tx.value" ⟨List.replicate 16 0 ++ [1]⟩ =
        .error (.overflow "tx.value" (List.replicate 16 0 ++ [1])) ∧
      ofBE (128 :: List.replicate 15 0) = 2 ^ 127 ∧
      nonNegativePbBigintToEvmCurrency "tx.value" ⟨128 :: List.replicate 15 0⟩ =
        .ok (-2 ^ 127) := by
  decide +kernel

/-- The conversion is exact for a byte string: it gives the value if that is below `2^127`, and
an overflow if not. -/
def Exact (bytes : Bytes) : Prop :=
  (∀ v, nonNegativePbBigintToEvmCurrency field ⟨bytes⟩ = .ok v ↔ ofBE bytes < 2 ^ 127 ∧ v = ofBE bytes) ∧
    (2 ^ 127 ≤ ofBE bytes →
      nonNegativePbBigintToEvmCurrency field ⟨bytes⟩ = .error (.overflow field bytes))

/-- It is exact for the byte strings that have at most 16 bytes just when their value is below
`2^127`, and for no others. -/
theorem currency_exact_iff (field : String) (bytes : Bytes) :
    Exact field bytes ↔ (bytes.length ≤ 16 ↔ ofBE bytes < 2 ^ 127) := by
  unfold Exact
  rcases Nat.lt_or_ge 16 bytes.length with hlong | hshort
  · -- an overflow, which is right from `2^127` on
    rw [currency_of_long field hlong]
    constructor
    · rintro ⟨hok, -⟩
      refine ⟨fun h => by omega, fun h => ?_⟩
      exact nomatch (hok _).mpr ⟨h, rfl⟩
    · intro hiff
      have hlarge : ¬ ofBE bytes < 2 ^ 127 := fun h => by have := hiff.mpr h; omega
      exact ⟨fun v => ⟨nofun, fun h => absurd h.1 hlarge⟩, fun _ => rfl⟩
  · rw [currency_of_short field hshort]
    constructor
    · rintro ⟨-, hoverflow⟩
      refine ⟨fun _ => ?_, fun _ => hshort⟩
      by_contra hlarge
      exact nomatch hoverflow (Nat.le_of_not_lt hlarge)
    · intro hiff
      have hsmall := hiff.mp hshort
      rw [if_pos hsmall]
      refine ⟨fun v => ?_, fun h => by omega⟩
      rw [Except.ok.injEq]
      exact ⟨fun h => ⟨hsmall, h.symm⟩, fun h => h.2.symm⟩

/-! ## The header -/

/-- `try_into` an array of `n` bytes. -/
def fixedBytes (bytes : Bytes) : ToRow (BitVec (8 * n)) :=
  if bytes.length = n then .ok (BitVec.ofNat (8 * n) (ofBE bytes))
  else .error (.malformed field bytes)

def bytes32 (bytes : Bytes) : ToRow Bytes32 := fixedBytes 32 field bytes

def address (bytes : Bytes) : ToRow Address := fixedBytes 20 field bytes

/-- A field that is empty if there is no value. -/
def optionalBytes {α : Type} (convert : Bytes → ToRow α) (bytes : Bytes) : ToRow (Option α) :=
  if bytes.isEmpty then .ok none else (convert bytes).map some

/-- `Option::map` and `transpose`. -/
def optionalNumber {α : Type} (convert : BigInt → ToRow α) : Option BigInt → ToRow (Option α)
  | none => .ok none
  | some n => (convert n).map some

def required {α : Type} : Option α → ToRow α
  | some a => .ok a
  | none => .error (.missing field)

/-- The fields are converted in the order of the struct, after the two at the top. -/
def headerFromPb (header : BlockHeader) : ToRow Block := do
  let seconds ← required "timestamp" header.timestamp
  let baseFeePerGas ← optionalNumber (pbBigintToU64 "base_fee_per_gas") header.baseFeePerGas
  let hash ← bytes32 "hash" header.hash
  let parentHash ← bytes32 "parent_hash" header.parentHash
  let ommersHash ← bytes32 "uncle_hash" header.uncleHash
  let miner ← address "coinbase" header.coinbase
  let stateRoot ← bytes32 "state_root" header.stateRoot
  let transactionsRoot ← bytes32 "transactions_root" header.transactionsRoot
  let receiptRoot ← bytes32 "receipt_root" header.receiptRoot
  let difficulty ← required "difficulty" header.difficulty
  let difficulty ← nonNegativePbBigintToEvmCurrency "difficulty" difficulty
  let totalDifficulty ← optionalNumber (nonNegativePbBigintToEvmCurrency "total_difficulty")
    header.totalDifficulty
  let mixHash ← bytes32 "mix_hash" header.mixHash
  let withdrawalsRoot ← optionalBytes (bytes32 "withdrawals_root") header.withdrawalsRoot
  let parentBeaconRoot ← optionalBytes (bytes32 "parent_beacon_root") header.parentBeaconRoot
  return {
    blockNum := header.number
    -- `i64` seconds, cast to `u64`
    timestamp := (seconds % 2 ^ 64).toNat
    hash, parentHash, ommersHash, miner, stateRoot, transactionsRoot, receiptRoot
    logsBloom := header.logsBloom
    difficulty, totalDifficulty
    gasLimit := header.gasLimit
    gasUsed := header.gasUsed
    extraData := header.extraData
    mixHash
    nonce := header.nonce
    baseFeePerGas := baseFeePerGas.map Int.ofNat
    withdrawalsRoot
    blobGasUsed := header.blobGasUsed
    excessBlobGas := header.excessBlobGas
    parentBeaconRoot }

/-! ## Transactions, calls and logs -/

/-- The loop over the topics of a log, with those read so far. -/
def topicsFrom (topics : List Bytes32) : List Bytes → ToRow (List Bytes32)
  | [] => .ok topics
  | t :: rest => do
      let topic ← bytes32 "log.topicN" t
      if topics.length < 4 then topicsFrom (topics ++ [topic]) rest
      else .error (.assertFail "log has more than four topics")

def logRow (log : PbLog) : ToRow Evm.Log := do
  let topics ← topicsFrom [] log.topics
  let address ← address "log.address" log.address
  return {
    blockHash := header.hash
    blockNum := header.blockNum
    timestamp := header.timestamp
    txIndex, txHash, address
    logIndex := log.blockIndex
    topic0 := topics[0]?
    topic1 := topics[1]?
    topic2 := topics[2]?
    topic3 := topics[3]?
    data := log.data }

/-- The rows that the loops have appended to the builders. -/
structure TraceRows where
  transactions : List Transaction
  calls : List Call
  logs : List Evm.Log

def TraceRows.flatten (rows : List TraceRows) : TraceRows :=
  ⟨rows.flatMap (·.transactions), rows.flatMap (·.calls), rows.flatMap (·.logs)⟩

/-- A call that was reverted has no rows, nor have its logs. -/
def callRows (call : PbCall) : ToRow TraceRows :=
  if call.stateReverted then .ok ⟨[], [], []⟩
  else do
    let caller ← address "call.caller" call.caller
    let callee ← address "call.address" call.address
    let value ← optionalNumber (nonNegativePbBigintToEvmCurrency "call.value") call.value
    let logs ← call.logs.mapM (logRow header txIndex txHash)
    let row : Call := {
      blockHash := header.hash
      blockNum := header.blockNum
      timestamp := header.timestamp
      txIndex, txHash
      index := call.index
      parentIndex := call.parentIndex
      depth := call.depth
      callType := call.callType
      caller
      address := callee
      value
      gasLimit := call.gasLimit
      gasConsumed := call.gasConsumed
      returnData := call.returnData
      input := call.input
      selfdestruct := call.suicide
      executedCode := call.executedCode
      beginOrdinal := call.beginOrdinal
      endOrdinal := call.endOrdinal }
    return ⟨[], [row], logs⟩

/-- A transaction that failed has no rows. The prices of gas are `null` if they do not fit; a
value that does not fit is an error. -/
def traceRows (tx : TransactionTrace) : ToRow TraceRows :=
  if tx.status ≠ 1 then .ok ⟨[], [], []⟩
  else do
    let txHash ← bytes32 "tx.hash" tx.hash
    let «to» ← optionalBytes (address "tx.to") tx.to
    let value ← optionalNumber (nonNegativePbBigintToEvmCurrency "tx.value") tx.value
    let «from» ← address "tx.from" tx.from
    let price (field : String) (n : BigInt) := (nonNegativePbBigintToEvmCurrency field n).toOption
    let row : Transaction := {
      blockHash := header.hash
      blockNum := header.blockNum
      timestamp := header.timestamp
      txIndex := tx.index
      txHash, «to»
      nonce := tx.nonce
      gasPrice := tx.gasPrice.bind (price "tx.gas_price")
      gasLimit := tx.gasLimit
      value
      input := tx.input
      v := tx.v
      r := tx.r
      s := tx.s
      receiptCumulativeGasUsed := tx.gasUsed
      ty := tx.ty
      maxFeePerGas := tx.maxFeePerGas.bind (price "tx.max_fee_per_gas")
      maxPriorityFeePerGas := tx.maxPriorityFeePerGas.bind (price "tx.max_priority_fee_per_gas")
      «from»
      status := tx.status
      returnData := tx.returnData
      publicKey := tx.publicKey
      beginOrdinal := tx.beginOrdinal
      endOrdinal := tx.endOrdinal }
    let calls ← tx.calls.mapM (callRows header tx.index txHash)
    return .flatten (⟨[row], [], []⟩ :: calls)

def protobufsToRows (block : PbBlock) (network : String) : ToRow RawDatasetRows := do
  let header ← required "header" block.header
  let header ← headerFromPb header
  let rows ← block.transactionTraces.mapM (traceRows header)
  let rows := TraceRows.flatten rows
  return {
    range := ⟨⟨header.blockNum, header.blockNum⟩, network, header.hash, some header.parentHash⟩
    block := header
    transactions := rows.transactions
    calls := rows.calls
    logs := rows.logs }

/-! ## The header row -/

/-- Both models read a hash in the same way. -/
theorem bytes32_ok {field : String} {hash : Bytes32} (h : bytes32 field bytes = .ok hash) :
    pbBytes32 field bytes = .ok hash := by
  unfold bytes32 fixedBytes at h
  unfold pbBytes32
  split at h
  · rw [if_pos ‹_›]
    cases h
    rfl
  · cases h

theorem headerFromPb_ok {header : BlockHeader} {block : Block}
    (h : headerFromPb header = .ok block) :
    block.blockNum = header.number ∧ bytes32 "hash" header.hash = .ok block.hash ∧
      bytes32 "parent_hash" header.parentHash = .ok block.parentHash := by
  obtain ⟨seconds, -, h⟩ := bind_eq_ok h
  obtain ⟨baseFee, -, h⟩ := bind_eq_ok h
  obtain ⟨hash, hhash, h⟩ := bind_eq_ok h
  obtain ⟨parentHash, hparent, h⟩ := bind_eq_ok h
  -- none of the other fields touches these three
  obtain ⟨ommersHash, -, h⟩ := bind_eq_ok h
  obtain ⟨miner, -, h⟩ := bind_eq_ok h
  obtain ⟨stateRoot, -, h⟩ := bind_eq_ok h
  obtain ⟨transactionsRoot, -, h⟩ := bind_eq_ok h
  obtain ⟨receiptRoot, -, h⟩ := bind_eq_ok h
  obtain ⟨difficulty, -, h⟩ := bind_eq_ok h
  obtain ⟨difficulty', -, h⟩ := bind_eq_ok h
  obtain ⟨totalDifficulty, -, h⟩ := bind_eq_ok h
  obtain ⟨mixHash, -, h⟩ := bind_eq_ok h
  obtain ⟨withdrawalsRoot, -, h⟩ := bind_eq_ok h
  obtain ⟨parentBeaconRoot, -, h⟩ := bind_eq_ok h
  cases h
  exact ⟨rfl, hhash, hparent⟩

section

variable (h : protobufsToRows block network = .ok rows)
include h

theorem protobufsToRows_ok :
    ∃ header, block.header = some header ∧ headerFromPb header = .ok rows.block ∧
      rows.range = ⟨⟨rows.block.blockNum, rows.block.blockNum⟩, network, rows.block.hash,
        some rows.block.parentHash⟩ := by
  obtain ⟨header, hheader, h⟩ := bind_eq_ok h
  obtain ⟨row, hrow, h⟩ := bind_eq_ok h
  obtain ⟨traces, -, h⟩ := bind_eq_ok h
  cases h
  refine ⟨header, ?_, hrow, rfl⟩
  cases hh : block.header with
  | none =>
    rw [hh] at hheader
    cases hheader
  | some header' =>
    rw [hh] at hheader
    cases hheader
    rfl

/-- The rows have the number of the header. -/
theorem protobufsToRows_blockNum {header : BlockHeader} (hheader : block.header = some header) :
    rows.blockNum = header.number := by
  obtain ⟨header', hheader', hrow, hrange⟩ := protobufsToRows_ok h
  rw [hheader] at hheader'
  cases hheader'
  unfold RawDatasetRows.blockNum BlockRange.start
  rw [hrange]
  exact (headerFromPb_ok hrow).1

/-- The part of the message that the `blocks` table reads gives the same row and range. -/
theorem protobufsToRows_header : ∃ header, block.header = some header ∧
      protobufHeaderRows (some ⟨header.number, header.hash, header.parentHash⟩) network =
        .ok (newHeaderRows rows.range
          [⟨rows.blockNum, some rows.block.hash, some rows.block.parentHash⟩]) := by
  obtain ⟨header, hheader, hrow, hrange⟩ := protobufsToRows_ok h
  obtain ⟨hnum, hhash, hparent⟩ := headerFromPb_ok hrow
  refine ⟨header, hheader, ?_⟩
  have hblock : rows.blockNum = header.number := protobufsToRows_blockNum h hheader
  have hpb : CampNode.headerFromPb ⟨header.number, header.hash, header.parentHash⟩ =
      .ok (header.number, rows.block.hash, rows.block.parentHash) := by
    unfold CampNode.headerFromPb
    rw [bytes32_ok hhash, bytes32_ok hparent]
    rfl
  simp only [protobufHeaderRows, hpb, hrange, hblock, hnum]
  rfl

end

end CampNode.Firehose

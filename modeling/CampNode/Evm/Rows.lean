import CampNode.Core.Radix
import CampNode.Segments.Basic

/-!
# CampNode.Evm.Rows — the rows of a block from an RPC provider

`rpc_to_rows` turns a block and the receipts of its transactions into a header row,
log rows and transaction rows. Failed transactions are dropped before the rest is
numbered, so that `tx_index` of a transaction row counts the successful
transactions; `tx_index` of a log row is the one that the provider sent with the
log.

Machine integers are plain numbers; only the conversions that can fail are checked.
The sources of overflow errors and the errors of the row builders are left out.
-/

namespace CampNode.Evm

open List

abbrev Bytes32 := BitVec 256
abbrev Address := BitVec 160
/-- Seconds since the epoch. -/
abbrev Timestamp := Nat
/-- `i128`. -/
abbrev EvmCurrency := Int

/-! ## What the provider sends -/

structure RpcHeader where
  number : Nat
  timestamp : Nat
  hash : Bytes32
  parentHash : Bytes32
  ommersHash : Bytes32
  beneficiary : Address
  stateRoot : Bytes32
  transactionsRoot : Bytes32
  receiptsRoot : Bytes32
  logsBloom : BitVec 2048
  difficulty : Nat
  totalDifficulty : Option Nat
  gasLimit : Nat
  gasUsed : Nat
  extraData : List UInt8
  mixHash : Option Bytes32
  nonce : Option Nat
  baseFeePerGas : Option Nat
  withdrawalsRoot : Option Bytes32
  blobGasUsed : Option Nat
  excessBlobGas : Option Nat
  parentBeaconBlockRoot : Option Bytes32

structure Signature where
  v : Bool
  r : Nat
  s : Nat

inductive AnyTxEnvelope where
  | ethereum (signature : Signature)
  | unknown

structure RpcTransaction where
  envelope : AnyTxEnvelope
  txHash : Bytes32
  «to» : Option Address
  nonce : Nat
  gasPrice : Option Nat
  gasLimit : Nat
  value : Nat
  input : List UInt8
  ty : Nat
  maxFeePerGas : Nat
  maxPriorityFeePerGas : Option Nat
  maxFeePerBlobGas : Option Nat
  signer : Address

inductive Eip658Value where
  | eip658 (status : Bool)
  | postState (root : Bytes32)

structure RpcLog where
  blockHash : Option Bytes32
  blockNumber : Option Nat
  transactionIndex : Option Nat
  transactionHash : Option Bytes32
  logIndex : Option Nat
  address : Address
  topics : List Bytes32
  data : List UInt8

structure RpcReceipt where
  transactionHash : Bytes32
  status : Eip658Value
  cumulativeGasUsed : Nat
  logs : List RpcLog

inductive BlockTransactions where
  | full (transactions : List RpcTransaction)
  | hashes (txHashes : List Bytes32)
  | uncle

structure RpcBlock where
  header : RpcHeader
  transactions : BlockTransactions

namespace BlockTransactions

def len : BlockTransactions → Nat
  | full transactions => transactions.length
  | hashes txHashes => txHashes.length
  | uncle => 0

/-- Only full transactions are there to be taken. -/
def intoTransactions : BlockTransactions → List RpcTransaction
  | full transactions => transactions
  | _ => []

/-- The hashes of the transactions, in whichever form they come. -/
def txHashes : BlockTransactions → List Bytes32
  | full transactions => transactions.map (·.txHash)
  | hashes txHashes => txHashes
  | uncle => []

end BlockTransactions

/-- The filter for failed transactions. -/
def Eip658Value.succeeded : Eip658Value → Bool
  | eip658 status => status
  | postState root => root != 0

/-- The status of a transaction row: a state root counts as success. -/
def Eip658Value.coerceStatus : Eip658Value → Bool
  | eip658 status => status
  | postState _ => true

/-! ## Rows -/

structure Block where
  blockNum : Nat
  timestamp : Timestamp
  hash : Bytes32
  parentHash : Bytes32
  ommersHash : Bytes32
  miner : Address
  stateRoot : Bytes32
  transactionsRoot : Bytes32
  receiptRoot : Bytes32
  logsBloom : BitVec 2048
  difficulty : EvmCurrency
  totalDifficulty : Option EvmCurrency
  gasLimit : Nat
  gasUsed : Nat
  extraData : List UInt8
  mixHash : Bytes32
  nonce : Nat
  baseFeePerGas : Option EvmCurrency
  withdrawalsRoot : Option Bytes32
  blobGasUsed : Option Nat
  excessBlobGas : Option Nat
  parentBeaconRoot : Option Bytes32

structure Log where
  blockHash : Bytes32
  blockNum : Nat
  timestamp : Timestamp
  txIndex : Nat
  txHash : Bytes32
  logIndex : Nat
  address : Address
  topic0 : Option Bytes32
  topic1 : Option Bytes32
  topic2 : Option Bytes32
  topic3 : Option Bytes32
  data : List UInt8

structure Transaction where
  blockHash : Bytes32
  blockNum : Nat
  timestamp : Timestamp
  txIndex : Nat
  txHash : Bytes32
  «to» : Option Address
  nonce : Nat
  gasPrice : Option EvmCurrency
  gasLimit : Nat
  value : EvmCurrency
  input : List UInt8
  v : List UInt8
  r : List UInt8
  s : List UInt8
  receiptCumulativeGasUsed : Nat
  ty : Nat
  maxFeePerGas : EvmCurrency
  maxPriorityFeePerGas : Option EvmCurrency
  maxFeePerBlobGas : Option EvmCurrency
  «from» : Address
  status : Bool

/-- The rows of the three tables, all with the range of the block. -/
structure RawDatasetRows where
  range : BlockRange
  block : Block
  logs : List Log
  transactions : List Transaction

inductive ToRowError where
  | missing (field : String)
  | overflow (field : String)
deriving DecidableEq, Repr

inductive RpcToRowsError where
  | mismatchedCount (block txs receipts : Nat)
  | mismatchedHash (block : Nat) (tx receipt : Bytes32)
  | toRow (error : ToRowError)
deriving DecidableEq, Repr

/-! ## Conversions -/

variable (txHash : Bytes32) (field : String) (n : Nat) (block : RpcBlock)
  (receipts : List RpcReceipt)

/-- A field that has to be there. -/
def required {α : Type} : Option α → Except ToRowError α
  | some a => .ok a
  | none => .error (.missing field)

/-- `u32::try_from`. -/
def toU32 : Except ToRowError Nat :=
  if n < 2 ^ 32 then .ok n else .error (.overflow field)

/-- `i128::try_from`. -/
def toI128 : Except ToRowError EvmCurrency :=
  if n < 2 ^ 127 then .ok n else .error (.overflow field)

def optionalI128 : Option Nat → Except ToRowError (Option EvmCurrency)
  | none => .ok none
  | some n => (toI128 field n).map some

def rpcHeaderToRow (header : RpcHeader) : Except ToRowError Block := do
  let difficulty ← toI128 "difficulty" header.difficulty
  let totalDifficulty ← optionalI128 "total_difficulty" header.totalDifficulty
  return {
    blockNum := header.number
    timestamp := header.timestamp
    hash := header.hash
    parentHash := header.parentHash
    ommersHash := header.ommersHash
    miner := header.beneficiary
    stateRoot := header.stateRoot
    transactionsRoot := header.transactionsRoot
    receiptRoot := header.receiptsRoot
    logsBloom := header.logsBloom
    difficulty, totalDifficulty
    gasLimit := header.gasLimit
    gasUsed := header.gasUsed
    extraData := header.extraData
    mixHash := header.mixHash.getD 0
    nonce := header.nonce.getD 0
    baseFeePerGas := header.baseFeePerGas.map Int.ofNat
    withdrawalsRoot := header.withdrawalsRoot
    blobGasUsed := header.blobGasUsed
    excessBlobGas := header.excessBlobGas
    parentBeaconRoot := header.parentBeaconBlockRoot }

def rpcLogToRow (log : RpcLog) (timestamp : Timestamp) : Except ToRowError Log := do
  let blockHash ← required "block_hash" log.blockHash
  let blockNum ← required "block_number" log.blockNumber
  let txIndex ← required "transaction_index" log.transactionIndex
  let txIndex ← toU32 "transaction_index" txIndex
  let txHash ← required "transaction_hash" log.transactionHash
  let logIndex ← required "log_index" log.logIndex
  let logIndex ← toU32 "log_index" logIndex
  return {
    blockHash, blockNum, timestamp, txIndex, txHash, logIndex
    address := log.address
    topic0 := log.topics[0]?
    topic1 := log.topics[1]?
    topic2 := log.topics[2]?
    topic3 := log.topics[3]?
    data := log.data }

/-- The signature of an unknown transaction is zero. -/
def AnyTxEnvelope.signature : AnyTxEnvelope → Signature
  | ethereum signature => signature
  | unknown => ⟨false, 0, 0⟩

def rpcTransactionToRow (block : Block) (tx : RpcTransaction) (receipt : RpcReceipt)
    (txIndex : Nat) : Except ToRowError Transaction := do
  let sig := tx.envelope.signature
  let txIndex ← toU32 "tx_index" txIndex
  let gasPrice ← optionalI128 "gas_price" tx.gasPrice
  let value ← toI128 "value" tx.value
  let maxFeePerGas ← toI128 "max_fee_per_gas" tx.maxFeePerGas
  let maxPriorityFeePerGas ← optionalI128 "max_priority_fee_per_gas" tx.maxPriorityFeePerGas
  let maxFeePerBlobGas ← optionalI128 "max_fee_per_blob_gas" tx.maxFeePerBlobGas
  return {
    blockHash := block.hash
    blockNum := block.blockNum
    timestamp := block.timestamp
    txIndex
    txHash := tx.txHash
    «to» := tx.to
    nonce := tx.nonce
    gasPrice
    gasLimit := tx.gasLimit
    value
    input := tx.input
    v := if sig.v then [1] else []
    r := putBE 32 sig.r
    s := putBE 32 sig.s
    receiptCumulativeGasUsed := receipt.cumulativeGasUsed
    ty := tx.ty
    maxFeePerGas, maxPriorityFeePerGas, maxFeePerBlobGas
    «from» := tx.signer
    status := receipt.status.coerceStatus }

def logRows (timestamp : Timestamp) : List RpcLog → Except ToRowError (List Log)
  | [] => .ok []
  | log :: rest => do
      let row ← rpcLogToRow log timestamp
      let rows ← logRows timestamp rest
      return row :: rows

/-- The loop over the transactions that are left, numbered from `idx` on. -/
def pairRows (header : Block) :
    Nat → List (RpcTransaction × RpcReceipt) → Except RpcToRowsError (List Log × List Transaction)
  | _, [] => .ok ([], [])
  | idx, (tx, receipt) :: rest =>
      if tx.txHash ≠ receipt.transactionHash then
        .error (.mismatchedHash header.blockNum tx.txHash receipt.transactionHash)
      else
        match logRows header.timestamp receipt.logs with
        | .error e => .error (.toRow e)
        | .ok logs =>
            match rpcTransactionToRow header tx receipt idx with
            | .error e => .error (.toRow e)
            | .ok row =>
                match pairRows header (idx + 1) rest with
                | .error e => .error e
                | .ok (logs', rows) => .ok (logs ++ logs', row :: rows)

/-- The transactions of a block with their receipts. -/
def txReceipts : List (RpcTransaction × RpcReceipt) :=
  block.transactions.intoTransactions.zip receipts

def rpcToRows (network : String) : Except RpcToRowsError RawDatasetRows :=
  if block.transactions.len ≠ receipts.length then
    .error (.mismatchedCount block.header.number block.transactions.len receipts.length)
  else
    match rpcHeaderToRow block.header with
    | .error e => .error (.toRow e)
    | .ok header =>
        match pairRows header 0 ((txReceipts block receipts).filter (·.2.status.succeeded)) with
        | .error e => .error e
        | .ok (logs, transactions) =>
            .ok ⟨⟨⟨header.blockNum, header.blockNum⟩, network, header.hash, some header.parentHash⟩,
              header, logs, transactions⟩

/-! ## What the rows say of indices -/

theorem bind_eq_ok {ε α β : Type} {x : Except ε α} {f : α → Except ε β} {b : β}
    (h : (x >>= f) = .ok b) : ∃ a, x = .ok a ∧ f a = .ok b := by
  cases x with
  | error e => cases h
  | ok a => exact ⟨a, rfl, h⟩

variable {α : Type}

theorem required_ok {field : String} {o : Option α} {a : α} (h : required field o = .ok a) :
    o = some a := by
  cases o with
  | none => cases h
  | some b =>
    cases h
    rfl

theorem toU32_ok {field : String} {n m : Nat} (h : toU32 field n = .ok m) : m = n := by
  unfold toU32 at h
  split at h
  · cases h
    rfl
  · cases h

/-- A log row has the hash and the index that came with the log. -/
theorem rpcLogToRow_ok {log : RpcLog} {timestamp : Timestamp} {row : Log}
    (h : rpcLogToRow log timestamp = .ok row) :
    log.transactionHash = some row.txHash ∧ log.transactionIndex = some row.txIndex := by
  rcases bind_eq_ok h with ⟨blockHash, -, h⟩
  rcases bind_eq_ok h with ⟨blockNum, -, h⟩
  rcases bind_eq_ok h with ⟨index, hindex, h⟩
  rcases bind_eq_ok h with ⟨txIndex, hu32, h⟩
  rcases bind_eq_ok h with ⟨txHash, hhash, h⟩
  rcases bind_eq_ok h with ⟨logIndex, -, h⟩
  rcases bind_eq_ok h with ⟨logIndex', -, h⟩
  cases h
  rw [toU32_ok hu32]
  exact ⟨required_ok hhash, required_ok hindex⟩

/-- A transaction row has the hash of the transaction and the index it was given. -/
theorem rpcTransactionToRow_ok {block : Block} {tx : RpcTransaction} {receipt : RpcReceipt}
    {idx : Nat} {row : Transaction} (h : rpcTransactionToRow block tx receipt idx = .ok row) :
    row.txHash = tx.txHash ∧ row.txIndex = idx := by
  rcases bind_eq_ok h with ⟨txIndex, hu32, h⟩
  rcases bind_eq_ok h with ⟨gasPrice, -, h⟩
  rcases bind_eq_ok h with ⟨value, -, h⟩
  rcases bind_eq_ok h with ⟨maxFee, -, h⟩
  rcases bind_eq_ok h with ⟨maxPriority, -, h⟩
  rcases bind_eq_ok h with ⟨maxBlob, -, h⟩
  cases h
  exact ⟨rfl, toU32_ok hu32⟩

theorem logRows_ok {timestamp : Timestamp} {logs : List RpcLog} {rows : List Log}
    (h : logRows timestamp logs = .ok rows) :
    rows.map (fun row => (some row.txHash, some row.txIndex)) =
      logs.map fun log => (log.transactionHash, log.transactionIndex) := by
  induction logs generalizing rows with
  | nil =>
    cases h
    rfl
  | cons log rest ih =>
    rcases bind_eq_ok h with ⟨row, hrow, h⟩
    rcases bind_eq_ok h with ⟨rows', hrows, h⟩
    cases h
    rcases rpcLogToRow_ok hrow with ⟨hhash, hindex⟩
    rw [map_cons, map_cons, ih hrows, hhash, hindex]

/-- The key by which log rows and transaction rows are matched. -/
def Transaction.key (row : Transaction) : Bytes32 × Nat := (row.txHash, row.txIndex)

def Log.key (row : Log) : Bytes32 × Nat := (row.txHash, row.txIndex)

/-- Transactions are numbered in their order, logs keep what came with them. -/
theorem pairRows_ok {header : Block} {idx : Nat} {pairs : List (RpcTransaction × RpcReceipt)}
    {logs : List Log} {rows : List Transaction} (h : pairRows header idx pairs = .ok (logs, rows)) :
    rows.map Transaction.key = (pairs.zipIdx idx).map (fun p => (p.1.1.txHash, p.2)) ∧
      logs.map (fun row => (some row.txHash, some row.txIndex)) =
        (pairs.flatMap (·.2.logs)).map fun log => (log.transactionHash, log.transactionIndex) := by
  induction pairs generalizing idx logs rows with
  | nil =>
    cases h
    exact ⟨rfl, rfl⟩
  | cons pair rest ih =>
    unfold pairRows at h
    split at h
    · cases h
    split at h
    · cases h
    rename_i logs₁ hlogs
    split at h
    · cases h
    rename_i row hrow
    split at h
    · cases h
    rename_i logs₂ rows₂ hrest
    cases h
    rcases ih hrest with ⟨hrows, hlogs₂⟩
    rcases rpcTransactionToRow_ok hrow with ⟨hhash, hindex⟩
    constructor
    · rw [map_cons, hrows, zipIdx_cons, map_cons, Transaction.key, hhash, hindex]
    · rw [map_append, logRows_ok hlogs, hlogs₂, flatMap_cons, map_append]

/-! ## Positions -/

/-- The successful transactions of a block with their positions. -/
def successful : List ((RpcTransaction × RpcReceipt) × Nat) :=
  (txReceipts block receipts).zipIdx.filter fun p => p.1.2.status.succeeded

/-- Every transaction row belongs to a successful transaction, in the order of the
block, and has its position; every log row has the hash and the index of some
transaction row. -/
structure IndicesMatch (rows : RawDatasetRows) :
    Prop where
  transactions : rows.transactions.map Transaction.key =
    (successful block receipts).map fun p => (p.1.1.txHash, p.2)
  logs : ∀ log ∈ rows.logs, ∃ row ∈ rows.transactions, log.key = row.key

/-- No failed transaction comes before a successful one, and the logs of successful
transactions name a successful transaction by its hash and its position. -/
structure Consistent : Prop where
  failed_last : (txReceipts block receipts).Pairwise fun a b =>
    b.2.status.succeeded = true → a.2.status.succeeded = true
  logs : ∀ p ∈ successful block receipts, ∀ log ∈ p.1.2.logs, ∃ q ∈ successful block receipts,
    log.transactionHash = some q.1.1.txHash ∧ log.transactionIndex = some q.2

/-- Selected elements keep their positions exactly if no other one comes before. -/
theorem positions_eq_range_iff (selected : α → Bool) (l : List α) (start : Nat) :
    ((l.zipIdx start).filter fun p => selected p.1).map (·.2) =
        range' start (l.filter selected).length ↔
      l.Pairwise fun a b => selected b = true → selected a = true := by
  induction l generalizing start with
  | nil => simp
  | cons a l ih =>
    rw [pairwise_cons, zipIdx_cons]
    by_cases ha : selected a = true
    · have hpair : ((a, start) :: l.zipIdx (start + 1)).filter (fun p => selected p.1) =
          (a, start) :: (l.zipIdx (start + 1)).filter fun p => selected p.1 :=
        filter_cons_of_pos ha
      rw [hpair, filter_cons_of_pos ha, length_cons, range'_succ, map_cons, cons_inj_right, ih]
      simp [ha]
    have hpair : ((a, start) :: l.zipIdx (start + 1)).filter (fun p => selected p.1) =
        (l.zipIdx (start + 1)).filter fun p => selected p.1 :=
      filter_cons_of_neg ha
    rw [hpair, filter_cons_of_neg ha]
    constructor
    · intro h
      -- the first position would be that of `a`
      have hnone : ∀ b ∈ l, selected b = true → selected a = true := by
        intro b hb hselected
        have hpos : 0 < (l.filter selected).length :=
          length_pos_of_mem (mem_filter.mpr ⟨hb, hselected⟩)
        have hstart : start ∈ range' start (l.filter selected).length :=
          mem_range'_1.mpr ⟨Nat.le_refl _, by omega⟩
        rw [← h] at hstart
        rcases mem_map.mp hstart with ⟨p, hp, hpstart⟩
        have := le_snd_of_mem_zipIdx (mem_of_mem_filter hp)
        omega
      refine ⟨hnone, ?_⟩
      apply pairwise_of_forall_mem_list
      intro b _ b' hb' hselected
      exact absurd (hnone b' hb' hselected) ha
    · rintro ⟨hnone, -⟩
      have hfilter : l.filter selected = [] := by
        apply filter_eq_nil_iff.mpr
        intro b hb hselected
        exact ha (hnone b hb hselected)
      have hpairs : (l.zipIdx (start + 1)).filter (fun p => selected p.1) = [] := by
        apply filter_eq_nil_iff.mpr
        intro p hp hselected
        exact ha (hnone p.1 (fst_mem_of_mem_zipIdx hp) hselected)
      rw [hfilter, hpairs]
      rfl

/-- The transactions that are left, without their positions. -/
theorem successful_fst : (successful block receipts).map (·.1) =
      (txReceipts block receipts).filter (·.2.status.succeeded) := by
  have hmap := filter_map (p := fun pair : RpcTransaction × RpcReceipt =>
    pair.2.status.succeeded) (f := Prod.fst) (l := (txReceipts block receipts).zipIdx)
  rw [zipIdx_map_fst] at hmap
  rw [hmap]
  rfl

theorem length_txHashes (transactions : BlockTransactions) :
    transactions.txHashes.length = transactions.len := by
  cases transactions with
  | full transactions => exact length_map _
  | hashes txHashes => rfl
  | uncle => rfl

/-- The rows of an accepted block. -/
theorem rpcToRows_ok {block : RpcBlock} {receipts : List RpcReceipt} {network : String}
    {rows : RawDatasetRows} (h : rpcToRows block receipts network = .ok rows) :
    ∃ header, pairRows header 0 ((txReceipts block receipts).filter (·.2.status.succeeded)) =
      .ok (rows.logs, rows.transactions) := by
  unfold rpcToRows at h
  split at h
  · cases h
  split at h
  · cases h
  rename_i header hheader
  split at h
  · cases h
  · rename_i logs transactions hpairs
    cases h
    exact ⟨header, hpairs⟩

/-- Numbering what is left gives the positions exactly if failed transactions come
last. -/
theorem numbered_eq_iff : (((txReceipts block receipts).filter (·.2.status.succeeded)).zipIdx.map
        fun p => (p.1.1.txHash, p.2)) = (successful block receipts).map (fun p => (p.1.1.txHash, p.2)) ↔
      (txReceipts block receipts).Pairwise fun a b =>
        b.2.status.succeeded = true → a.2.status.succeeded = true := by
  rw [← positions_eq_range_iff (fun pair : RpcTransaction × RpcReceipt =>
    pair.2.status.succeeded) _ 0]
  have hfst := successful_fst block receipts
  constructor
  · intro h
    have hsnd := congrArg (map Prod.snd) h
    rw [map_map, map_map] at hsnd
    exact hsnd.symm.trans (zipIdx_map_snd 0 _)
  · intro h
    -- both lists are made of the same transactions and the same numbers
    have hzip : ((txReceipts block receipts).filter (·.2.status.succeeded)).zipIdx =
        successful block receipts := by
      rw [zipIdx_eq_zip_range', ← h, ← hfst]
      exact (zip_of_prod rfl rfl).symm
    rw [hzip]

/-- For every accepted block: the indices of its rows match exactly if the input is
consistent. -/
theorem indices_match_iff {block : RpcBlock} {receipts : List RpcReceipt} {network : String}
    {rows : RawDatasetRows} (h : rpcToRows block receipts network = .ok rows) :
    IndicesMatch block receipts rows ↔ Consistent block receipts := by
  rcases rpcToRows_ok h with ⟨header, hpairs⟩
  rcases pairRows_ok hpairs with ⟨hrows, hlogs⟩
  have hfst := successful_fst block receipts
  constructor
  · rintro ⟨htransactions, hmatch⟩
    constructor
    · rw [← numbered_eq_iff, ← hrows]
      exact htransactions
    intro p hp log hlog
    -- the row of the log
    have hmem : (log.transactionHash, log.transactionIndex) ∈
        rows.logs.map fun row => (some row.txHash, some row.txIndex) := by
      rw [hlogs]
      apply mem_map_of_mem (f := fun log : RpcLog => (log.transactionHash, log.transactionIndex))
      apply mem_flatMap.mpr
      refine ⟨p.1, ?_, hlog⟩
      rw [← hfst]
      exact mem_map_of_mem hp
    rcases mem_map.mp hmem with ⟨row, hrow, hkey⟩
    rcases hmatch row hrow with ⟨tx, htx, hsame⟩
    have hq : row.key ∈ (successful block receipts).map fun p => (p.1.1.txHash, p.2) := by
      rw [← htransactions, hsame]
      exact mem_map_of_mem htx
    rcases mem_map.mp hq with ⟨q, hq, hqkey⟩
    refine ⟨q, hq, ?_⟩
    rw [← (Prod.mk.inj hkey).1, ← (Prod.mk.inj hkey).2, (Prod.mk.inj hqkey).1,
      (Prod.mk.inj hqkey).2]
    exact ⟨rfl, rfl⟩
  · rintro ⟨hfailed, hconsistent⟩
    have htransactions : rows.transactions.map Transaction.key =
        (successful block receipts).map fun p => (p.1.1.txHash, p.2) := by
      rw [hrows]
      exact (numbered_eq_iff block receipts).mpr hfailed
    refine ⟨htransactions, ?_⟩
    intro row hrow
    -- the log of the row
    have hmem : (some row.txHash, some row.txIndex) ∈
        ((((txReceipts block receipts).filter (·.2.status.succeeded)).flatMap (·.2.logs)).map
          fun log => (log.transactionHash, log.transactionIndex)) := by
      rw [← hlogs]
      exact mem_map_of_mem (f := fun row : Log => (some row.txHash, some row.txIndex)) hrow
    rcases mem_map.mp hmem with ⟨log, hlog, hkey⟩
    rcases mem_flatMap.mp hlog with ⟨pair, hpair, hlog⟩
    rw [← hfst] at hpair
    rcases mem_map.mp hpair with ⟨p, hp, rfl⟩
    rcases hconsistent p hp log hlog with ⟨q, hq, hhash, hindex⟩
    have hrowkey : row.key = (q.1.1.txHash, q.2) := by
      rw [hhash, hindex] at hkey
      have hh := Option.some.inj (Prod.mk.inj hkey).1
      have hi := Option.some.inj (Prod.mk.inj hkey).2
      rw [hh, hi]
      rfl
    have hq' : row.key ∈ rows.transactions.map Transaction.key := by
      rw [htransactions, hrowkey]
      exact mem_map_of_mem (f := fun p : (RpcTransaction × RpcReceipt) × Nat =>
        (p.1.1.txHash, p.2)) hq
    rcases mem_map.mp hq' with ⟨tx, htx, hsame⟩
    exact ⟨tx, htx, hsame.symm⟩

/-! ### Two blocks -/

/-- A header with all the rest zero. -/
def plainHeader (number : Nat) (hash parentHash : Bytes32) : RpcHeader where
  number := number
  timestamp := 0
  hash := hash
  parentHash := parentHash
  ommersHash := 0
  beneficiary := 0
  stateRoot := 0
  transactionsRoot := 0
  receiptsRoot := 0
  logsBloom := 0
  difficulty := 0
  totalDifficulty := none
  gasLimit := 0
  gasUsed := 0
  extraData := []
  mixHash := none
  nonce := none
  baseFeePerGas := none
  withdrawalsRoot := none
  blobGasUsed := none
  excessBlobGas := none
  parentBeaconBlockRoot := none

/-- A transaction that is known by its hash. -/
def plainTransaction : RpcTransaction where
  envelope := .unknown
  txHash := txHash
  «to» := none
  nonce := 0
  gasPrice := none
  gasLimit := 0
  value := 0
  input := []
  ty := 0
  maxFeePerGas := 0
  maxPriorityFeePerGas := none
  maxFeePerBlobGas := none
  signer := 0

/-- The receipt of the transaction at a position, with one log if it succeeded. -/
def plainReceipt (position : Nat) (status : Bool) : RpcReceipt where
  transactionHash := txHash
  status := .eip658 status
  cumulativeGasUsed := 0
  logs := if status then [⟨some 77, some 7, some position, some txHash, some 0, 0, [], []⟩] else []

/-- A block with two transactions. -/
def plainBlock : RpcBlock :=
  ⟨plainHeader 7 77 76, .full [plainTransaction 1, plainTransaction 2]⟩

/-- The second transaction failed. -/
theorem indices_match_failed_last :
    ∃ rows, rpcToRows plainBlock [plainReceipt 1 0 true, plainReceipt 2 1 false] "eth" = .ok rows ∧
      rows.logs.map Log.key = [(1, 0)] ∧
      IndicesMatch plainBlock [plainReceipt 1 0 true, plainReceipt 2 1 false] rows := by
  refine ⟨_, rfl, rfl, (@indices_match_iff _ _ "eth" _ rfl).mpr ?_⟩
  constructor
  · simp [txReceipts, plainBlock, BlockTransactions.intoTransactions, plainReceipt,
      Eip658Value.succeeded]
  · simp [successful, txReceipts, plainBlock, BlockTransactions.intoTransactions, plainReceipt,
      plainTransaction, Eip658Value.succeeded]

/-- The first transaction failed: the row of the second one has index 0, its log
has index 1. -/
theorem failed_transaction_shifts_index :
    ∃ rows, rpcToRows plainBlock [plainReceipt 1 0 false, plainReceipt 2 1 true] "eth" = .ok rows ∧
      rows.transactions.map Transaction.key = [(2, 0)] ∧ rows.logs.map Log.key = [(2, 1)] ∧
      ¬ IndicesMatch plainBlock [plainReceipt 1 0 false, plainReceipt 2 1 true] rows := by
  refine ⟨_, rfl, rfl, rfl, ?_⟩
  intro h
  have htransactions := h.transactions
  revert htransactions
  decide

end CampNode.Evm

import CampNode.Core.Chunks
import CampNode.Evm.Rows
import Mathlib.Data.List.Sort
import Mathlib.Data.List.Forall2

/-!
# CampNode.Evm.Batches — the block streams of the RPC extractor

The extractor has two ways to stream blocks. One by one, it asks for a block, then for its
receipts, and goes on after an error. In batches, it asks for many blocks at once and then for
all their receipts, either by transaction or by block; the answers are put into one list, from
which each block takes as many receipts as it has transactions. A batch is sent in requests of the
configured size. After an error other than one of the conversion, the stream is over.

* `batched_differs` — a batch with a block that the chain does not have yields none of the others,
  and for a batch size of `2^63` the size of the pieces is 0, which panics.
* `batched_eq_unbatched` — for all other batch sizes, and blocks that the chain has, both streams
  are equal.
-/

namespace CampNode.Evm

open List

/-! ## The provider -/

/-- A receipt as it is sent, with the index of its transaction. -/
structure AnyTxReceipt where
  receipt : RpcReceipt
  transactionIndex : Option Nat

/-- A JSON-RPC provider. An answer can be `null`. -/
structure Provider where
  getBlockByNumber : Nat → Except String (Option RpcBlock)
  getTransactionReceipt : Bytes32 → Except String (Option AnyTxReceipt)
  getBlockReceipts : Nat → Except String (Option (List AnyTxReceipt))

inductive StreamError where
  | provider (message : String)
  | blockNotFound (number : Nat)
  | fetchingReceipts (number : Nat)
  | missingReceipt (txHash : Bytes32)
  | errorFetchingReceipts
  | mismatchedBatch (txs receipts : Nat)
  | rpcToRows (error : RpcToRowsError)
deriving DecidableEq, Repr

abbrev Item := Except StreamError RawDatasetRows

/-- The order of `Option<u64>`: `None` comes first. -/
def AnyTxReceipt.indexKey (r : AnyTxReceipt) : Nat :=
  match r.transactionIndex with
  | none => 0
  | some i => i + 1

/-- `sort_by` the index, which keeps the order of equal ones. -/
def sortByIndex (receipts : List AnyTxReceipt) : List AnyTxReceipt :=
  receipts.insertionSort fun a b => a.indexKey ≤ b.indexKey

/-- `rpc_to_rows` for receipts as they are sent. -/
def convert (network : String) (block : RpcBlock) (receipts : List AnyTxReceipt) : Item :=
  (rpcToRows block (receipts.map (·.receipt)) network).mapError .rpcToRows

/-! ## One by one -/

section Streams

variable (p : Provider) (network : String) (fetchReceiptsPerTx : Bool)

/-- The loop over the receipts, which stops at the first that is missing. -/
def receivedReceipts : List (Bytes32 × Option AnyTxReceipt) → Except StreamError (List AnyTxReceipt)
  | [] => .ok []
  | (_, some receipt) :: rest => (receivedReceipts rest).map (receipt :: ·)
  | (txHash, none) :: _ => .error (.missingReceipt txHash)

variable (number batchSize start stop : Nat)

/-- The receipts of a block that has transactions. -/
def fetchReceipts (block : RpcBlock) : Except StreamError (List AnyTxReceipt) :=
  if fetchReceiptsPerTx then
    match block.transactions.txHashes.mapM
        fun txHash => (p.getTransactionReceipt txHash).map (txHash, ·) with
    | .error _ => .error (.fetchingReceipts block.header.number)
    | .ok receipts => receivedReceipts receipts
  else
    match p.getBlockReceipts number with
    | .ok (some receipts) => .ok (sortByIndex receipts)
    | _ => .error .errorFetchingReceipts

/-- The body of the loop: every block gives one item. -/
def unbatchedBlock : Item :=
  match p.getBlockByNumber number with
  | .error e => .error (.provider e)
  | .ok none => .error (.blockNotFound number)
  | .ok (some block) =>
      if block.transactions.len = 0 then convert network block []
      else
        match fetchReceipts p fetchReceiptsPerTx number block with
        | .error e => .error e
        | .ok receipts => convert network block receipts

/-- The blocks `start..=stop`. -/
def blockRange : List Nat := List.range' start (stop + 1 - start)

/-- `unbatched_block_stream`. `none` is a failed assertion. -/
def unbatchedBlockStream : Option (List Item) :=
  if start ≤ stop then
    some ((blockRange start stop).map (unbatchedBlock p network fetchReceiptsPerTx))
  else none

/-! ## In batches -/

/-- An answer that must not be `null`. -/
def parsed {α : Type} : Except String (Option α) → Except StreamError α
  | .ok (some a) => .ok a
  | .ok none => .error (.provider "invalid type: null")
  | .error e => .error (.provider e)

/-- `BatchingRpcWrapper::execute`: the calls are sent in requests of `batchSize` calls. -/
def execute {α β : Type} (call : α → Except StreamError β) (calls : List α) :
    Except StreamError (List β) :=
  List.flatten <$> (chunks batchSize calls).mapM fun chunk => chunk.mapM call

/-- Each block takes as many receipts as it has transactions. -/
def takeReceipts : List RpcBlock → List AnyTxReceipt → List Item
  | [], _ => []
  | block :: blocks, receipts =>
      convert network block (sortByIndex (receipts.take block.transactions.len)) ::
        takeReceipts blocks (receipts.drop block.transactions.len)

/-- The receipts of all blocks of a batch in one list. -/
def fetchAllReceipts (blocks : List RpcBlock) : Except StreamError (List AnyTxReceipt) :=
  if fetchReceiptsPerTx then
    execute batchSize (fun txHash => parsed (p.getTransactionReceipt txHash))
      (blocks.flatMap (·.transactions.txHashes))
  else
    List.flatten <$> execute batchSize (fun number => parsed (p.getBlockReceipts number))
      (blocks.map (·.header.number))

/-- The items of one batch, and whether the stream goes on. -/
def batch (batchSize : Nat) (calls : List Nat) : List Item × Bool :=
  match execute batchSize (fun number => parsed (p.getBlockByNumber number)) calls with
  | .error e => ([.error e], false)
  | .ok blocks =>
      let totalTxCount := (blocks.map (·.transactions.len)).sum
      if totalTxCount = 0 then (blocks.map (convert network · []), true)
      else
        match fetchAllReceipts p fetchReceiptsPerTx batchSize blocks with
        | .error e => ([.error e], false)
        | .ok allReceipts =>
            if totalTxCount ≠ allReceipts.length then
              ([.error (.mismatchedBatch totalTxCount allReceipts.length)], false)
            else (takeReceipts network blocks allReceipts, true)

def batches (batchSize : Nat) : List (List Nat) → List Item
  | [] => []
  | calls :: rest =>
      let (items, goesOn) := batch p network fetchReceiptsPerTx batchSize calls
      if goesOn then items ++ batches batchSize rest else items

/-- The size of a batch of blocks, a product of `usize`s. -/
def blocksPerBatch : Nat := batchSize * 10 % 2 ^ 64

/-- `batched_block_stream`. `none` is the panic of `chunks` for the size 0. -/
def batchedBlockStream : Option (List Item) :=
  if blocksPerBatch batchSize = 0 then none
  else some (batches p network fetchReceiptsPerTx batchSize
    (chunks (blocksPerBatch batchSize) (blockRange start stop)))

end Streams

/-! ## Chains -/

/-- The blocks of a chain, each with its receipts in the order of the transactions. -/
abbrev Chain := Nat → Option (RpcBlock × List AnyTxReceipt)

/-- The provider answers for a block of the chain. The receipts of a block may come in any order;
their indices are in the order of the transactions. -/
structure AnswersBlock (p : Provider) (number : Nat) (block : RpcBlock)
    (receipts : List AnyTxReceipt) : Prop where
  found : p.getBlockByNumber number = .ok (some block)
  number_eq : block.header.number = number
  perTx : block.transactions.txHashes.map p.getTransactionReceipt =
    receipts.map fun r => .ok (some r)
  perBlock : ∃ answer, p.getBlockReceipts number = .ok (some answer) ∧ answer.Perm receipts
  ascending : receipts.Pairwise fun a b => a.indexKey ≤ b.indexKey

/-- The provider answers consistently for a fixed chain. -/
def Provider.Answers (p : Provider) (chain : Chain) : Prop :=
  ∀ number, match chain number with
    | some (block, receipts) => AnswersBlock p number block receipts
    | none => p.getBlockByNumber number = .ok none

/-- A chain of one block without transactions. -/
def genesis : Chain := fun number => if number = 0 then some (⟨plainHeader 0 1 0, .full []⟩, []) else none

def genesisProvider : Provider where
  getBlockByNumber number := .ok ((genesis number).map (·.1))
  getTransactionReceipt _ := .ok none
  getBlockReceipts number := .ok ((genesis number).map (·.2))

theorem genesisProvider_answers : genesisProvider.Answers genesis := by
  intro number
  by_cases h : number = 0
  · subst h
    exact ⟨rfl, rfl, rfl, ⟨[], rfl, .refl _⟩, .nil⟩
  · simp [genesis, genesisProvider, h]

/-- The numbers of the blocks that a stream yields. -/
def yieldedNumbers (items : List Item) : List Nat :=
  items.filterMap fun item => item.toOption.map (·.block.blockNum)

/-- For the blocks 0 and 1 of a chain that has only block 0, the batch fails before block 0 is
yielded; and a batch size of `2^63` panics. -/
theorem batched_differs : genesisProvider.Answers genesis ∧
      (unbatchedBlockStream genesisProvider "eth" false 0 1).map yieldedNumbers = some [0] ∧
      (batchedBlockStream genesisProvider "eth" false 2 0 1).map yieldedNumbers = some [] ∧
      (unbatchedBlockStream genesisProvider "eth" false 0 0).map yieldedNumbers = some [0] ∧
      (batchedBlockStream genesisProvider "eth" false (2 ^ 63) 0 0).map yieldedNumbers = none :=
  ⟨genesisProvider_answers, by decide +kernel, by decide +kernel, by decide +kernel,
    by decide +kernel⟩

/-! ## Answers to single calls -/

theorem sortByIndex_eq {receipts : List AnyTxReceipt}
    (h : receipts.Pairwise fun a b => a.indexKey ≤ b.indexKey) : sortByIndex receipts = receipts :=
  h.insertionSort_eq

/-- Requests of any size give the answers to the calls. -/
theorem execute_eq {α β : Type} {batchSize : Nat} (h : 0 < batchSize)
    (call : α → Except StreamError β) (calls : List α) :
    execute batchSize call calls = calls.mapM call :=
  mapM_chunks h call calls

/-- Calls succeed together exactly if each of them does. -/
theorem mapM_eq_ok_iff {ε α β : Type} {f : α → Except ε β} {l : List α} {l' : List β} :
    l.mapM f = .ok l' ↔ List.Forall₂ (fun a b => f a = .ok b) l l' := by
  constructor
  · intro h
    induction l generalizing l' with
    | nil =>
      cases h
      exact .nil
    | cons a l ih =>
      rw [mapM_cons] at h
      obtain ⟨b, hb, h⟩ := bind_eq_ok h
      obtain ⟨bs, hbs, h⟩ := bind_eq_ok h
      cases h
      exact .cons hb (ih hbs)
  · intro h
    induction h with
    | nil => rfl
    | cons hab _ ih =>
      rw [mapM_cons, hab, ih]
      rfl

section Consistent

variable {p : Provider} {network : String} {fetchReceiptsPerTx : Bool}

/-- What the provider sends for a block: the block, and as many receipts as it has transactions,
by transaction or by block. -/
structure Sends (p : Provider) (fetchReceiptsPerTx : Bool) (number : Nat)
    (sent : RpcBlock × List AnyTxReceipt) : Prop where
  found : p.getBlockByNumber number = .ok (some sent.1)
  number_eq : sent.1.header.number = number
  count : sent.2.length = sent.1.transactions.len
  perTx : fetchReceiptsPerTx = true →
    List.Forall₂ (fun txHash r => p.getTransactionReceipt txHash = .ok (some r))
        sent.1.transactions.txHashes sent.2 ∧ sortByIndex sent.2 = sent.2
  perBlock : fetchReceiptsPerTx = false → p.getBlockReceipts number = .ok (some sent.2)

theorem AnswersBlock.sends {block : RpcBlock} {receipts : List AnyTxReceipt}
    (h : AnswersBlock p number block receipts) (fetchReceiptsPerTx : Bool) :
    ∃ sent, Sends p fetchReceiptsPerTx number sent := by
  have hcount : receipts.length = block.transactions.len := by
    rw [← length_txHashes, ← length_map p.getTransactionReceipt, h.perTx, length_map]
  obtain ⟨answer, hanswer, hperm⟩ := h.perBlock
  cases fetchReceiptsPerTx with
  | true =>
    refine ⟨(block, receipts), h.found, h.number_eq, hcount, fun _ => ⟨?_, ?_⟩, nofun⟩
    · have heq := forall₂_eq_eq_eq ▸ h.perTx
      exact forall₂_map_left_iff.mp (forall₂_map_right_iff.mp heq)
    · exact sortByIndex_eq h.ascending
  | false =>
    exact ⟨(block, answer), h.found, h.number_eq, hperm.length_eq.trans hcount, nofun, fun _ => hanswer⟩

theorem receivedReceipts_ok {txHashes : List Bytes32} {receipts : List AnyTxReceipt}
    (h : List.Forall₂ (fun txHash r => p.getTransactionReceipt txHash = .ok (some r))
      txHashes receipts) :
    (txHashes.mapM fun txHash => (p.getTransactionReceipt txHash).map (txHash, ·)) =
        .ok (txHashes.zip (receipts.map some)) ∧
      receivedReceipts (txHashes.zip (receipts.map some)) = .ok receipts := by
  induction h with
  | nil => exact ⟨rfl, rfl⟩
  | cons hr _ ih =>
    obtain ⟨hmap, hreceived⟩ := ih
    constructor
    · rw [mapM_cons, hr, hmap]
      rfl
    · rw [map_cons, zip_cons_cons, receivedReceipts, hreceived]
      rfl

variable {number : Nat} {sent : RpcBlock × List AnyTxReceipt}

/-- One by one, a block is converted with its receipts in the order of their indices. -/
theorem Sends.unbatchedBlock (h : Sends p fetchReceiptsPerTx number sent) :
    unbatchedBlock p network fetchReceiptsPerTx number =
      convert network sent.1 (sortByIndex sent.2) := by
  have hfetch : fetchReceipts p fetchReceiptsPerTx number sent.1 = .ok (sortByIndex sent.2) := by
    unfold fetchReceipts
    cases fetchReceiptsPerTx with
    | true =>
      obtain ⟨hreceipts, hsorted⟩ := h.perTx rfl
      obtain ⟨hmap, hreceived⟩ := receivedReceipts_ok hreceipts
      simp only [if_true, hmap, hreceived, hsorted]
    | false => simp [h.perBlock rfl]
  unfold Evm.unbatchedBlock
  simp only [h.found, hfetch]
  split
  · -- no transactions, no receipts
    have hempty : sent.2 = [] := length_eq_zero_iff.mp (by rw [h.count]; assumption)
    rw [hempty]
    rfl
  · rfl

variable {calls : List Nat} {sents : List (RpcBlock × List AnyTxReceipt)} {batchSize : Nat}

/-- The blocks of a batch, in the order of the calls. -/
theorem execute_blocks (hbatch : 0 < batchSize)
    (h : List.Forall₂ (Sends p fetchReceiptsPerTx) calls sents) :
    execute batchSize (fun number => parsed (p.getBlockByNumber number)) calls =
      .ok (sents.map Prod.fst) := by
  rw [execute_eq hbatch]
  apply mapM_eq_ok_iff.mpr
  rw [forall₂_map_right_iff]
  refine h.imp ?_
  intro number sent hsends
  rw [hsends.found]
  rfl

/-- The receipts of a batch, block after block. -/
theorem fetchAllReceipts_ok (hbatch : 0 < batchSize)
    (h : List.Forall₂ (Sends p fetchReceiptsPerTx) calls sents) :
    fetchAllReceipts p fetchReceiptsPerTx batchSize (sents.map Prod.fst) =
      .ok (sents.flatMap Prod.snd) := by
  unfold fetchAllReceipts
  cases fetchReceiptsPerTx with
  | true =>
    rw [if_pos rfl, execute_eq hbatch]
    apply mapM_eq_ok_iff.mpr
    -- the hashes and the receipts of each block correspond, so all of them do
    induction h with
    | nil => exact .nil
    | cons hsends _ ih =>
      refine rel_append ?_ ih
      refine (hsends.perTx rfl).1.imp ?_
      intro txHash r hr
      rw [hr]
      rfl
  | false =>
    have hnumbers : (sents.map Prod.fst).map (·.header.number) = calls := by
      induction h with
      | nil => rfl
      | cons hsends _ ih => rw [map_cons, map_cons, ih, hsends.number_eq]
    have hanswers : calls.mapM (fun number => parsed (p.getBlockReceipts number)) =
        .ok (sents.map Prod.snd) := by
      apply mapM_eq_ok_iff.mpr
      rw [forall₂_map_right_iff]
      refine h.imp ?_
      intro number sent hsends
      rw [hsends.perBlock rfl]
      rfl
    rw [if_neg Bool.false_ne_true, execute_eq hbatch, hnumbers, hanswers, flatMap_def]
    rfl

/-- Each block finds its own receipts at the head of the list. -/
theorem takeReceipts_ok (h : List.Forall₂ (Sends p fetchReceiptsPerTx) calls sents) :
    takeReceipts network (sents.map Prod.fst) (sents.flatMap Prod.snd) =
      calls.map (Evm.unbatchedBlock p network fetchReceiptsPerTx) := by
  induction h with
  | nil => rfl
  | cons hsends _ ih =>
    rw [map_cons, flatMap_cons, takeReceipts, ← hsends.count, take_left,
      drop_left, ih, map_cons, hsends.unbatchedBlock]

theorem takeReceipts_nil (blocks : List RpcBlock) :
    takeReceipts network blocks [] = blocks.map (convert network · []) := by
  induction blocks with
  | nil => rfl
  | cons block blocks ih =>
    rw [takeReceipts, take_nil, drop_nil, ih]
    rfl

/-- There are as many receipts as transactions. -/
theorem totalTxCount_eq (h : List.Forall₂ (Sends p fetchReceiptsPerTx) calls sents) :
    ((sents.map Prod.fst).map (·.transactions.len)).sum = (sents.flatMap Prod.snd).length := by
  induction h with
  | nil => rfl
  | cons hsends _ ih =>
    rw [map_cons, map_cons, sum_cons, ih, flatMap_cons, length_append, hsends.count]

/-- A batch yields what its blocks yield one by one. -/
theorem batch_ok (hbatch : 0 < batchSize)
    (h : List.Forall₂ (Sends p fetchReceiptsPerTx) calls sents) :
    batch p network fetchReceiptsPerTx batchSize calls =
      (calls.map (Evm.unbatchedBlock p network fetchReceiptsPerTx), true) := by
  unfold batch
  simp only [execute_blocks hbatch h, fetchAllReceipts_ok hbatch h, totalTxCount_eq h]
  split
  · -- no block has transactions, so there are no receipts to take
    rename_i hzero
    have hnone : sents.flatMap Prod.snd = [] := length_eq_zero_iff.mp hzero
    rw [← takeReceipts_nil, ← hnone, takeReceipts_ok h]
  · simp [takeReceipts_ok h]

/-- All batches together yield what their blocks yield one by one. -/
theorem batches_ok (hbatch : 0 < batchSize) {pieces : List (List Nat)}
    (h : ∀ calls ∈ pieces, ∀ number ∈ calls, ∃ sent, Sends p fetchReceiptsPerTx number sent) :
    batches p network fetchReceiptsPerTx batchSize pieces =
      pieces.flatten.map (Evm.unbatchedBlock p network fetchReceiptsPerTx) := by
  induction pieces with
  | nil => rfl
  | cons calls rest ih =>
    obtain ⟨sents, hsents⟩ : ∃ sents, List.Forall₂ (Sends p fetchReceiptsPerTx) calls sents := by
      have hcalls := h calls mem_cons_self
      clear h ih
      induction calls with
      | nil => exact ⟨[], .nil⟩
      | cons number calls ih =>
        obtain ⟨sent, hsent⟩ := hcalls number mem_cons_self
        obtain ⟨sents, hsents⟩ := ih fun n hn => hcalls n (mem_cons_of_mem _ hn)
        exact ⟨sent :: sents, .cons hsent hsents⟩
    rw [batches, batch_ok hbatch hsents, flatten_cons, map_append,
      ← ih fun calls hcalls => h calls (mem_cons_of_mem _ hcalls)]
    rfl

end Consistent

theorem blocksPerBatch_pos {batchSize : Nat} (hpos : 1 < batchSize) (hmax : batchSize < 2 ^ 64)
    (h : batchSize ≠ 2 ^ 63) : 0 < blocksPerBatch batchSize := by
  apply Nat.pos_of_ne_zero
  intro hzero
  -- `2^64` divides the product, so `2^63` divides the batch size
  have hdvd : 2 ^ 63 ∣ batchSize * 5 := by
    apply Nat.dvd_of_mul_dvd_mul_right (k := 2) Nat.two_pos
    rw [Nat.mul_assoc, ← Nat.pow_succ]
    exact Nat.dvd_of_mod_eq_zero hzero
  have hcoprime : Nat.Coprime (2 ^ 63) 5 := Nat.Coprime.pow_left 63 (by decide)
  obtain ⟨k, hk⟩ := hcoprime.dvd_of_dvd_mul_right hdvd
  clear hzero hdvd hcoprime
  match k with
  | 0 => omega
  | 1 => omega
  | k + 2 => omega

/-- For a provider that answers consistently for a chain with all blocks of the range, for both
ways to fetch receipts and for every batch size but `2^63`: the stream in batches has the items of
the stream one by one. -/
theorem batched_eq_unbatched (p : Provider) (chain : Chain) (hanswers : p.Answers chain)
    (network : String) (fetchReceiptsPerTx : Bool) (batchSize start stop : Nat)
    (hsize : 1 < batchSize) (hmax : batchSize < 2 ^ 64) (hpanic : batchSize ≠ 2 ^ 63)
    (hrange : start ≤ stop)
    (hblocks : ∀ number, start ≤ number → number ≤ stop → (chain number).isSome) :
    ∃ items, unbatchedBlockStream p network fetchReceiptsPerTx start stop = some items ∧
      batchedBlockStream p network fetchReceiptsPerTx batchSize start stop = some items := by
  refine ⟨_, if_pos hrange, ?_⟩
  have hpieces := blocksPerBatch_pos hsize hmax hpanic
  unfold batchedBlockStream
  rw [if_neg (by omega), batches_ok (by omega), flatten_chunks hpieces]
  intro calls hcalls number hnumber
  have hmem := mem_of_mem_chunks hpieces hcalls hnumber
  obtain ⟨hlow, hhigh⟩ := mem_range'_1.mp hmem
  obtain ⟨⟨block, receipts⟩, hchain⟩ := Option.isSome_iff_exists.mp (hblocks number hlow (by omega))
  have hnumber := hanswers number
  rw [hchain] at hnumber
  exact hnumber.sends fetchReceiptsPerTx

/-- Every block has two transactions, of which the second one fails. -/
def twins : Chain := fun number =>
  some (⟨plainHeader number (.ofNat 256 (number + 1)) (.ofNat 256 number),
      .full [plainTransaction (.ofNat 256 (2 * number)),
        plainTransaction (.ofNat 256 (2 * number + 1))]⟩,
    [⟨plainReceipt (.ofNat 256 (2 * number)) 0 true, some 0⟩,
      ⟨plainReceipt (.ofNat 256 (2 * number + 1)) 1 false, some 1⟩])

/-- The receipts of a block come in the reverse order. -/
def twinsProvider : Provider where
  getBlockByNumber number := .ok ((twins number).map (·.1))
  getTransactionReceipt txHash :=
    .ok (some ⟨plainReceipt txHash (txHash.toNat % 2) (txHash.toNat % 2 == 0),
      some (txHash.toNat % 2)⟩)
  getBlockReceipts number := .ok ((twins number).map (·.2.reverse))

theorem twinsProvider_answers : twinsProvider.Answers twins := by
  intro number
  refine ⟨rfl, rfl, ?_, ⟨_, rfl, List.reverse_perm _⟩, ?_⟩
  · have heven : 2 * number % 2 ^ 256 % 2 = 0 := by omega
    have hodd : (2 * number + 1) % 2 ^ 256 % 2 = 1 := by omega
    simp only [BlockTransactions.txHashes, map_cons, map_nil, twinsProvider, plainTransaction,
      BitVec.toNat_ofNat, heven, hodd]
    rfl
  · simp [AnyTxReceipt.indexKey]

/-- The hashes of the transactions that a stream yields. -/
def yieldedHashes (items : List Item) : List Bytes32 :=
  (items.filterMap (·.toOption)).flatMap (·.transactions.map (·.txHash))

/-- The blocks `0..=24` in batches of 20 and 5 blocks, in requests of two calls. -/
theorem batched_eq_unbatched_twins :
    (batchedBlockStream twinsProvider "eth" true 2 0 24).map yieldedHashes =
        some ((List.range 25).map fun number => .ofNat 256 (2 * number)) ∧
      (batchedBlockStream twinsProvider "eth" false 2 0 24).map yieldedHashes =
        some ((List.range 25).map fun number => .ofNat 256 (2 * number)) := by
  have hstreams (fetchReceiptsPerTx : Bool) := batched_eq_unbatched twinsProvider twins
    twinsProvider_answers "eth" fetchReceiptsPerTx 2 0 24 (by decide) (by decide) (by decide)
    (by decide) (fun _ _ _ => rfl)
  constructor
  · obtain ⟨items, hunbatched, hbatched⟩ := hstreams true
    rw [hbatched, ← hunbatched]
    decide +kernel
  · obtain ⟨items, hunbatched, hbatched⟩ := hstreams false
    rw [hbatched, ← hunbatched]
    decide +kernel

end CampNode.Evm

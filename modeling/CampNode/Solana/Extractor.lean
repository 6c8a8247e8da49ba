import CampNode.Dump.Dataset

/-!
# CampNode.Solana.Extractor — the block stream of the Solana extractor

`SolanaExtractor::block_stream_impl` first forwards the blocks of the Old Faithful archive
and then asks the JSON-RPC provider for the rest of the range. Solana skips slots. So that
block numbers stay consecutive, a skipped slot is delivered as an item of its own.

The stream is that of a `Provider` (`blockStreamImpl_eq`), whose order of tables says which
tables get a batch for a slot. The rows of a skipped slot have no batch for the messages
table (`blockStreamImpl_delivers_iff`).

Transactions and messages are converted to rows by functions that are left open
(`Conversion`). The base-58 texts of hashes are left out as well, and so are blocks with
`2 ^ 32` transactions.
-/

namespace CampNode.Solana

open List Provider

/-! ## Rows -/

inductive Table where
  | blockHeaders
  | transactions
  | messages
deriving DecidableEq, Repr

def Table.all : List Table := [.blockHeaders, .transactions, .messages]

structure BlockHeader where
  slot : Nat
  parentSlot : Nat
  blockHash : BlockHash
  previousBlockHash : BlockHash
  blockHeight : Option Nat
  blockTime : Option Int
deriving DecidableEq, Repr

def BlockHeader.empty (slot : Nat) : BlockHeader := ⟨slot, 0, 0, 0, none, none⟩

/-- A batch of rows. -/
inductive Rows (T M : Type) where
  | blockHeaders (rows : List BlockHeader)
  | transactions (rows : List T)
  | messages (rows : List M)
deriving DecidableEq, Repr

/-- A block of the archive. -/
structure DecodedBlock (O : Type) where
  slot : Nat
  parentSlot : Nat
  blockhash : BlockHash
  prevBlockhash : BlockHash
  blockHeight : Option Nat
  /-- A `u64`. -/
  blocktime : Nat
  /-- The transactions, each with its metadata. -/
  transactions : List O
deriving DecidableEq, Repr

/-- How a transaction of an RPC response is encoded. -/
inductive Encoding where
  | jsonRaw
  | jsonParsed
  | other
deriving DecidableEq, Repr

structure RpcTransaction (R : Type) where
  transaction : R
  encoding : Encoding
  /-- One of the inner instructions is parsed. -/
  parsedInstruction : Bool
deriving DecidableEq, Repr

structure UiConfirmedBlock (R : Type) where
  parentSlot : Nat
  blockhash : BlockHash
  previousBlockhash : BlockHash
  blockHeight : Option Nat
  blockTime : Option Int
  transactions : Option (List (RpcTransaction R))
deriving DecidableEq, Repr

/-- How the transactions of the two sources become rows, from the slot, the index and the
transaction. -/
structure Conversion (O R T M : Type) where
  of1Transaction : Nat → Nat → O → T
  of1Message : Nat → Nat → O → M
  rpcTransaction : Nat → Nat → R → T
  rpcMessage : Nat → Nat → R → M

inductive ExtractError where
  | unexpectedTransactionEncoding (slot index : Nat)
  | unexpectedMessageFormat (slot index : Nat)
  | parsedInnerInstruction (slot index : Nat)
  | rpc (code : Int)
  | archive (message : String)
deriving DecidableEq, Repr

/-- What the row builders make of a slot. -/
structure SlotRows (T M : Type) where
  header : BlockHeader
  transactions : List T
  messages : List M
deriving DecidableEq, Repr

namespace SlotRows

variable {T M : Type}

def batch (d : SlotRows T M) : Table → Rows T M
  | .blockHeaders => .blockHeaders [d.header]
  | .transactions => .transactions d.transactions
  | .messages => .messages d.messages

/-- The previous slot could be skipped, so that the range names no previous hash. -/
def row (network : String) (slot : Nat) (d : SlotRows T M) (t : Table) :
    RawTableRows Table (Rows T M) :=
  ⟨t, d.batch t, ⟨⟨slot, slot⟩, network, d.header.blockHash, none⟩, rfl⟩

end SlotRows

/-- The rows of one slot. -/
abbrev RawDatasetRows (T M : Type) := List (RawTableRows Table (Rows T M))

/-- An item of the stream. -/
abbrev Item (T M : Type) := Except ExtractError (RawDatasetRows T M)

section Convert

variable {O R T M : Type} (c : Conversion O R T M) (network : String)

def BlockHeader.fromOf1Block (block : DecodedBlock O) : BlockHeader :=
  ⟨block.slot, block.parentSlot, block.blockhash, block.prevBlockhash, block.blockHeight,
    some (BitVec.ofNat 64 block.blocktime).toInt⟩

variable (slot index : Nat) (block : UiConfirmedBlock R)

def BlockHeader.fromRpcBlock : BlockHeader :=
  ⟨slot, block.parentSlot, block.blockhash, block.previousBlockhash, block.blockHeight,
    block.blockTime⟩

def of1Rows (block : DecodedBlock O) : SlotRows T M where
  header := .fromOf1Block block
  transactions := block.transactions.zipIdx.map fun (tx, i) => c.of1Transaction block.slot i tx
  messages := block.transactions.zipIdx.map fun (tx, i) => c.of1Message block.slot i tx

def convertOfDataToDbRows (block : DecodedBlock O) : Item T M :=
  let rows := of1Rows c block
  .ok [rows.row network block.slot .blockHeaders, rows.row network block.slot .transactions,
    rows.row network block.slot .messages]

/-- The first check that a transaction of an RPC block fails. -/
def RpcTransaction.unsupported (tx : RpcTransaction R) : Option ExtractError :=
  match tx.encoding with
  | .other => some (.unexpectedTransactionEncoding slot index)
  | .jsonParsed => some (.unexpectedMessageFormat slot index)
  | .jsonRaw => if tx.parsedInstruction then some (.parsedInnerInstruction slot index) else none

def rpcRows : SlotRows T M where
  header := .fromRpcBlock slot block
  transactions := (block.transactions.getD []).zipIdx.map fun (tx, i) =>
    c.rpcTransaction slot i tx.transaction
  messages := (block.transactions.getD []).zipIdx.map fun (tx, i) =>
    c.rpcMessage slot i tx.transaction

def convertRpcBlockToDbRows : Item T M :=
  match (block.transactions.getD []).zipIdx.findSome? fun (tx, i) => tx.unsupported slot i with
  | some e => .error e
  | none =>
      let rows := rpcRows c slot block
      .ok [rows.row network slot .blockHeaders, rows.row network slot .transactions,
        rows.row network slot .messages]

def emptyRows : SlotRows T M := ⟨.empty slot, [], []⟩

/-- There is no batch for the messages table. -/
def emptyDbRows : Item T M :=
  let rows : SlotRows T M := emptyRows slot
  .ok [rows.row network slot .blockHeaders, rows.row network slot .transactions]

end Convert

/-! ## The stream -/

/-- The answer to `getBlock`. -/
inductive RpcResponse (R : Type) where
  | block (block : UiConfirmedBlock R)
  | error (code : Int)
deriving DecidableEq, Repr

def RpcResponse.hasBlock {R : Type} : RpcResponse R → Bool
  | .block _ => true
  | .error _ => false

/-- The error codes for a slot that was skipped, or is missing in long-term storage. -/
def isBlockMissingErr (code : Int) : Bool := code == -32007 || code == -32009

/-- How the stream of archive blocks ends. -/
inductive Ending where
  | exhausted
  | failed (error : ExtractError)
  /-- It has not ended so far. -/
  | pending
deriving DecidableEq, Repr

structure Historical (O : Type) where
  blocks : List (DecodedBlock O)
  ending : Ending

/-- The limit on the number of slots of a `getBlocks` request. -/
def solanaRpcGetBlocksLimit : Nat := 500000

section Stream

variable {O R T M : Type} (c : Conversion O R T M) (network : String)

/-- The items for the blocks of the archive, and the next expected slot unless the end of
the range is reached. -/
def archiveItems (stop : Nat) : Nat → List (DecodedBlock O) → List (Item T M) × Option Nat
  | expectedNextSlot, [] => ([], some expectedNextSlot)
  | expectedNextSlot, block :: rest =>
      let skipped := if block.slot ≠ expectedNextSlot
        then (List.range' expectedNextSlot (min block.slot stop - expectedNextSlot)).map
          (emptyDbRows network)
        else []
      if block.slot = stop then (skipped ++ [convertOfDataToDbRows c network block], none)
      else
        let later := archiveItems stop ((block.slot + 1) % 2 ^ 64) rest
        (skipped ++ convertOfDataToDbRows c network block :: later.1, later.2)

variable (rpc : Nat → RpcResponse R) (start stop chunkStart : Nat)

/-- The item for a slot that the RPC provider is asked for. -/
def rpcItem (slot : Nat) : Item T M :=
  match rpc slot with
  | .block block => convertRpcBlockToDbRows c network slot block
  | .error code => if isBlockMissingErr code then emptyDbRows network slot else .error (.rpc code)

/-- `(start..=stop).step_by(SOLANA_RPC_GET_BLOCKS_LIMIT)`. -/
def chunks : List Nat :=
  List.range' start ((stop + solanaRpcGetBlocksLimit - start) / solanaRpcGetBlocksLimit)
    solanaRpcGetBlocksLimit

/-- The slots of a chunk. The sum wraps around. -/
def chunkSlots : List Nat :=
  let chunkEnd := min ((chunkStart + (solanaRpcGetBlocksLimit - 1)) % 2 ^ 64) stop
  List.range' chunkStart (chunkEnd + 1 - chunkStart)

def rpcItems : List (Item T M) :=
  (chunks start stop).flatMap fun chunkStart =>
    (chunkSlots stop chunkStart).map (rpcItem c network rpc)

def blockStreamImpl (historical : Historical O) : List (Item T M) :=
  let archive := archiveItems c network stop start historical.blocks
  match archive.2 with
  | none => archive.1
  | some expectedNextSlot =>
      archive.1 ++ match historical.ending with
        | .exhausted => rpcItems c network rpc expectedNextSlot stop
        | .failed e => [.error e]
        | .pending => []

end Stream

/-! ## The blocks of the archive -/

section Archive

variable {O R T M : Type} {c : Conversion O R T M} {network : String}

/-- The slots are strictly increasing and lie in the range. -/
structure InOrder (start stop : Nat) (blocks : List (DecodedBlock O)) : Prop where
  increasing : (blocks.map (·.slot)).Pairwise (· < ·)
  bounds : ∀ b ∈ blocks, start ≤ b.slot ∧ b.slot ≤ stop

/-- The slot after the blocks. -/
def nextSlot (start : Nat) : List (DecodedBlock O) → Nat
  | [] => start
  | b :: rest => nextSlot (b.slot + 1) rest

variable (c network) in
/-- What the archive says about a slot before the next one. -/
def archiveItem (blocks : List (DecodedBlock O))
    (slot : Nat) : Item T M :=
  match blocks.find? fun b => b.slot == slot with
  | some block => convertOfDataToDbRows c network block
  | none => emptyDbRows network slot

theorem InOrder.tail {start stop : Nat} {b : DecodedBlock O} {rest : List (DecodedBlock O)}
    (h : InOrder start stop (b :: rest)) : InOrder (b.slot + 1) stop rest := by
  have hpair := pairwise_cons.mp h.increasing
  constructor
  · exact hpair.2
  · intro x hx
    have hlt := hpair.1 x.slot (mem_map_of_mem hx)
    exact ⟨hlt, (h.bounds x (mem_cons_of_mem _ hx)).2⟩

section

variable {start stop : Nat} {blocks : List (DecodedBlock O)} (h : InOrder start stop blocks)
include h

theorem InOrder.le_nextSlot : start ≤ nextSlot start blocks := by
  induction blocks generalizing start with
  | nil => exact Nat.le_refl _
  | cons b rest ih =>
    have hb := h.bounds b mem_cons_self
    have hrest := ih h.tail
    show start ≤ nextSlot (b.slot + 1) rest
    omega

theorem InOrder.nextSlot_le (hstart : start ≤ stop + 1) : nextSlot start blocks ≤ stop + 1 := by
  induction blocks generalizing start with
  | nil => exact hstart
  | cons b rest ih =>
    have hb := h.bounds b mem_cons_self
    exact ih h.tail (by omega)

theorem InOrder.slot_lt {b : DecodedBlock O} (hb : b ∈ blocks) :
    b.slot < nextSlot start blocks := by
  induction blocks generalizing start with
  | nil => cases hb
  | cons a rest ih =>
    rcases mem_cons.mp hb with rfl | hb
    · exact h.tail.le_nextSlot
    · exact ih h.tail hb

end

/-- A slot before the first block. -/
theorem InOrder.find?_of_lt {start stop slot : Nat} {blocks : List (DecodedBlock O)}
    (h : InOrder start stop blocks) (hslot : slot < start) :
    (blocks.find? fun b => b.slot == slot) = none := by
  rw [find?_eq_none]
  intro b hb heq
  have hlow := (h.bounds b hb).1
  rw [beq_iff_eq] at heq
  omega

/-- The archive delivers every slot up to its last block, in order. -/
theorem archiveItems_eq {start stop : Nat} {blocks : List (DecodedBlock O)}
    (h : InOrder start stop blocks) (hstop : stop < 2 ^ 64) :
    (archiveItems c network stop start blocks).1 =
        (range' start (nextSlot start blocks - start)).map (archiveItem c network blocks) ∧
      (archiveItems c network stop start blocks).2 =
        if blocks ≠ [] ∧ nextSlot start blocks = stop + 1 then none
        else some (nextSlot start blocks) := by
  induction blocks generalizing start with
  | nil => simp [archiveItems, nextSlot]
  | cons b rest ih =>
    rcases h.bounds b mem_cons_self with ⟨hlow, hhigh⟩
    have htail := h.tail
    have hnext := htail.le_nextSlot
    -- the slots before the block, which are skipped, the block, and the rest
    have hsplit : range' start (nextSlot (b.slot + 1) rest - start) =
        range' start (b.slot - start) ++
          b.slot :: range' (b.slot + 1) (nextSlot (b.slot + 1) rest - (b.slot + 1)) := by
      have hlen : nextSlot (b.slot + 1) rest - start =
          (b.slot - start) + ((nextSlot (b.slot + 1) rest - (b.slot + 1)) + 1) := by omega
      have hmid : start + (b.slot - start) = b.slot := by omega
      rw [hlen, ← range'_append_1, hmid, range'_succ]
    have hskipped : (if b.slot ≠ start
        then (range' start (min b.slot stop - start)).map (emptyDbRows network)
        else ([] : List (Item T M))) =
        (range' start (b.slot - start)).map (archiveItem c network (b :: rest)) := by
      have hempty : (range' start (b.slot - start)).map (archiveItem c network (b :: rest)) =
          (range' start (b.slot - start)).map (emptyDbRows network) := by
        apply map_congr_left
        intro n hn
        have hlt := (mem_range'_1.mp hn).2
        have hne : ¬ b.slot = n := by omega
        simp [archiveItem, hne, @InOrder.find?_of_lt _ _ _ n _ htail (by omega)]
      rw [hempty, Nat.min_eq_left hhigh]
      split
      · rfl
      rename_i hstart
      have hzero : b.slot - start = 0 := by
        have := not_not.mp hstart
        omega
      rw [hzero]
      rfl
    have hblock : archiveItem c network (b :: rest) b.slot = convertOfDataToDbRows c network b := by
      simp [archiveItem]
    have hlater : (range' (b.slot + 1) (nextSlot (b.slot + 1) rest - (b.slot + 1))).map
          (archiveItem c network (b :: rest)) =
        (range' (b.slot + 1) (nextSlot (b.slot + 1) rest - (b.slot + 1))).map
          (archiveItem c network rest) := by
      apply map_congr_left
      intro n hn
      have hgt := (mem_range'_1.mp hn).1
      have hne : ¬ b.slot = n := by omega
      simp [archiveItem, hne]
    simp only [archiveItems, nextSlot]
    rw [hskipped, hsplit, map_append, map_cons, hblock, hlater]
    by_cases hend : b.slot = stop
    · -- nothing comes after the end of the range
      have hrest : rest = [] := by
        cases rest with
        | nil => rfl
        | cons a rest =>
          have := htail.bounds a mem_cons_self
          omega
      subst hrest
      simp [hend, nextSlot]
    · have hwrap : (b.slot + 1) % 2 ^ 64 = b.slot + 1 := Nat.mod_eq_of_lt (by omega)
      rcases ih htail with ⟨hitems, hexpected⟩
      rw [if_neg hend, hwrap, hitems, hexpected]
      refine ⟨rfl, ?_⟩
      cases rest with
      | nil => simp [nextSlot, hend]
      | cons a rest => simp

end Archive

/-! ## The blocks of the RPC provider -/

/-- Without wrap-around the chunks are the slots of the range. -/
theorem flatMap_chunkSlots {start stop : Nat} (hstop : stop + solanaRpcGetBlocksLimit ≤ 2 ^ 64) :
    (chunks start stop).flatMap (chunkSlots stop) = range' start (stop + 1 - start) := by
  simp only [chunks, solanaRpcGetBlocksLimit] at hstop ⊢
  generalize hcount : (stop + 500000 - start) / 500000 = count
  -- by induction on the number of chunks that are left
  induction count generalizing start with
  | zero =>
    have hlen : stop + 1 - start = 0 := by omega
    rw [hlen]
    rfl
  | succ count ih =>
    have hle : start ≤ stop := by omega
    have hwrap : (start + (500000 - 1)) % 2 ^ 64 = start + (500000 - 1) :=
      Nat.mod_eq_of_lt (by omega)
    rw [range'_succ, flatMap_cons, ih (by omega)]
    simp only [chunkSlots, solanaRpcGetBlocksLimit, hwrap]
    by_cases hlast : start + (500000 - 1) ≤ stop
    · have hfirst : min (start + (500000 - 1)) stop + 1 - start = 500000 := by omega
      have hlen : stop + 1 - start = 500000 + (stop + 1 - (start + 500000)) := by omega
      rw [hfirst, hlen, ← range'_append_1]
    · have hfirst : min (start + (500000 - 1)) stop + 1 - start = stop + 1 - start := by omega
      have hrest : stop + 1 - (start + 500000) = 0 := by omega
      rw [hfirst, hrest]
      simp

section Delivery

variable {O R T M : Type} {c : Conversion O R T M} {network : String}

/-- The provider has no other error than a missing block, and sends blocks in the encoding
that was asked for. -/
def RpcResponse.Answered (response : RpcResponse R) : Prop :=
  match response with
  | .block b => ∀ tx ∈ b.transactions.getD [], tx.encoding = .jsonRaw ∧ tx.parsedInstruction = false
  | .error code => isBlockMissingErr code = true

/-- The rows for a slot, and whether the slot counts as skipped. -/
def slotRows (c : Conversion O R T M) (rpc : Nat → RpcResponse R)
    (start : Nat) (blocks : List (DecodedBlock O)) (slot : Nat) : SlotRows T M × Bool :=
  match blocks.find? fun b => b.slot == slot with
  | some block => (of1Rows c block, false)
  | none =>
      if slot < nextSlot start blocks then (emptyRows slot, true)
      else
        match rpc slot with
        | .block block => (rpcRows c slot block, false)
        | .error _ => (emptyRows slot, true)

variable (c network) in
/-- What a dump sees of the two sources. -/
def provider (rpc : Nat → RpcResponse R) (start : Nat)
    (blocks : List (DecodedBlock O)) : Provider Table (Rows T M) where
  network := network
  hash n := (slotRows c rpc start blocks n).1.header.blockHash
  prevHash _ := none
  linked := nofun
  rows t n := (slotRows c rpc start blocks n).1.batch t
  order n := if (slotRows c rpc start blocks n).2 then [.blockHeaders, .transactions] else Table.all

variable (p : Provider Table (Rows T M)) (available : Nat → Bool) (slot : Nat)

/-- The item of a provider for a slot. -/
def providerItem : Item T M :=
  .ok ((p.order slot).map fun t => p.tableRows t slot)

/-- The slots of a range. -/
def slots (start stop : Nat) : List Nat := List.range' start (stop + 1 - start)

theorem mem_slots {start stop n : Nat} : n ∈ slots start stop ↔ start ≤ n ∧ n ≤ stop := by
  unfold slots
  rw [mem_range'_1]
  omega

variable {blocks : List (DecodedBlock O)} {rpc : Nat → RpcResponse R}

/-- A slot up to the last block of the archive. -/
theorem archiveItem_eq {start slot : Nat} (hslot : slot < nextSlot start blocks) :
    archiveItem c network blocks slot = providerItem (provider c network rpc start blocks) slot := by
  unfold archiveItem
  split
  · rename_i block hfind
    have heq : block.slot = slot := by simpa using find?_some hfind
    subst heq
    simp [providerItem, provider, slotRows, hfind, convertOfDataToDbRows, Table.all,
      SlotRows.row, tableRows, blockRange]
  · rename_i hfind
    simp [providerItem, provider, slotRows, hfind, hslot, emptyDbRows, SlotRows.row,
      tableRows, blockRange]

/-- A slot after the blocks of the archive. -/
theorem rpcItem_eq {start slot : Nat} (hfind : (blocks.find? fun b => b.slot == slot) = none)
    (hslot : ¬ slot < nextSlot start blocks) (hrpc : (rpc slot).Answered) :
    rpcItem c network rpc slot = providerItem (provider c network rpc start blocks) slot := by
  unfold rpcItem
  cases hresponse : rpc slot with
  | block block =>
    rw [hresponse] at hrpc
    have hsupported : ((block.transactions.getD []).zipIdx.findSome? fun (tx, i) =>
        tx.unsupported slot i) = none := by
      rw [findSome?_eq_none_iff]
      rintro ⟨tx, i⟩ hmem
      rcases hrpc tx (fst_mem_of_mem_zipIdx hmem) with ⟨hencoding, hparsed⟩
      simp [RpcTransaction.unsupported, hencoding, hparsed]
    simp only [convertRpcBlockToDbRows, hsupported]
    simp [providerItem, provider, slotRows, hfind, hslot, hresponse, Table.all, SlotRows.row,
      tableRows, blockRange]
  | error code =>
    rw [hresponse] at hrpc
    have hmissing : isBlockMissingErr code = true := hrpc
    simp [hmissing, providerItem, provider, slotRows, hfind, hslot, hresponse, emptyDbRows,
      SlotRows.row, tableRows, blockRange]

/-- The stream is the one of the provider, slot by slot. -/
theorem blockStreamImpl_eq {start stop : Nat} (hle : start ≤ stop)
    (hstop : stop + solanaRpcGetBlocksLimit ≤ 2 ^ 64) (hblocks : InOrder start stop blocks)
    (hrpc : ∀ n, start ≤ n → n ≤ stop → (rpc n).Answered) :
    blockStreamImpl c network rpc start stop ⟨blocks, .exhausted⟩ =
      (slots start stop).map (providerItem (provider c network rpc start blocks)) := by
  have hlow := hblocks.le_nextSlot
  have hhigh := hblocks.nextSlot_le (by omega)
  have hu64 : stop < 2 ^ 64 := by
    simp only [solanaRpcGetBlocksLimit] at hstop
    omega
  rcases @archiveItems_eq _ _ _ _ c network _ _ _ hblocks hu64 with ⟨hitems, hnext⟩
  have harchive : (range' start (nextSlot start blocks - start)).map
        (archiveItem c network blocks) =
      (range' start (nextSlot start blocks - start)).map
        (providerItem (provider c network rpc start blocks)) := by
    apply map_congr_left
    intro n hn
    have := (mem_range'_1.mp hn).2
    exact archiveItem_eq (by omega)
  simp only [blockStreamImpl, hitems, hnext, harchive]
  by_cases hdone : blocks ≠ [] ∧ nextSlot start blocks = stop + 1
  · -- the archive reaches the end of the range
    simp [hdone, slots]
  have hremote : rpcItems c network rpc (nextSlot start blocks) stop =
      (range' (nextSlot start blocks) (stop + 1 - nextSlot start blocks)).map
        (providerItem (provider c network rpc start blocks)) := by
    unfold rpcItems
    rw [← map_flatMap, flatMap_chunkSlots hstop]
    apply map_congr_left
    intro n hn
    have hmem := mem_range'_1.mp hn
    refine rpcItem_eq ?_ (by omega) (hrpc n (by omega) (by omega))
    rw [find?_eq_none]
    intro b hb heq
    have hlt := hblocks.slot_lt hb
    rw [beq_iff_eq] at heq
    omega
  have hlen : stop + 1 - start =
      (nextSlot start blocks - start) + (stop + 1 - nextSlot start blocks) := by omega
  have hmid : start + (nextSlot start blocks - start) = nextSlot start blocks := by omega
  simp only [hdone, if_false, hremote, slots]
  rw [hlen, ← range'_append_1, hmid, map_append]

/-! ## Delivery -/

/-- The block number of an item, which is that of its first batch. -/
def Item.blockNum : Item T M → Option Nat
  | .ok (rows :: _) => some rows.blockNum
  | _ => none

/-- The batches of the items for one table. -/
def received (t : Table) (items : List (Item T M)) : List (RawTableRows Table (Rows T M)) :=
  items.flatMap fun
    | .ok rows => rows.filter fun r => r.table = t
    | .error _ => []

/-- Every slot of the range has one item, in ascending order, with one batch for each table,
so that the writer of each table receives every slot. -/
structure Delivers (start stop : Nat) (items : List (Item T M)) : Prop where
  ascending : items.map Item.blockNum = (slots start stop).map some
  complete : ∀ item ∈ items, ∃ rows, item = .ok rows ∧ (rows.map (·.table)).Perm Table.all
  writers : ∀ t, (received t items).map (·.blockNum) = slots start stop

/-- The slot counts as skipped: the archive has no block for it, and either the archive has
a later block or the RPC provider has no block either. -/
def Skipped (rpc : Nat → RpcResponse R) (start : Nat) (blocks : List (DecodedBlock O))
    (slot : Nat) : Prop :=
  (∀ b ∈ blocks, b.slot ≠ slot) ∧ (slot < nextSlot start blocks ∨ (rpc slot).hasBlock = false)

instance (rpc : Nat → RpcResponse R) (start : Nat) (blocks : List (DecodedBlock O)) (slot : Nat) :
    Decidable (Skipped rpc start blocks slot) :=
  inferInstanceAs (Decidable (_ ∧ _))

theorem slotRows_skipped {start slot : Nat} :
    (slotRows c rpc start blocks slot).2 = true ↔ Skipped rpc start blocks slot := by
  unfold Skipped slotRows
  cases hfind : blocks.find? fun b => b.slot == slot with
  | some block =>
    have hmem := mem_of_find?_eq_some hfind
    have heq : block.slot = slot := by simpa using find?_some hfind
    simp only [Bool.false_eq_true, false_iff, not_and]
    intro hnone
    exact absurd heq (hnone block hmem)
  | none =>
    have hnone : ∀ b ∈ blocks, b.slot ≠ slot := by simpa using hfind
    refine Iff.trans ?_ (and_iff_right hnone).symm
    by_cases hlt : slot < nextSlot start blocks
    · simp [hlt]
    · cases hresponse : rpc slot with
      | block b => simp [hlt, RpcResponse.hasBlock]
      | error code => simp [hlt, RpcResponse.hasBlock]

section Provided

variable {p : Provider Table (Rows T M)} {start stop : Nat}

theorem blockNum_providerItem (horder : ∀ n, ∃ t rest, p.order n = t :: rest) (n : Nat) :
    Item.blockNum (providerItem p n) = some n := by
  rcases horder n with ⟨t, rest, hn⟩
  simp only [providerItem, hn]
  rfl

/-- The batches of one table. -/
theorem received_map_providerItem (t : Table) (l : List Nat) : received t (l.map (providerItem p)) =
      l.flatMap fun n => ((p.order n).filter fun t' => t' = t).map fun t' => p.tableRows t' n := by
  unfold received
  rw [flatMap_map]
  congr 1
  funext n
  exact filter_tableRows (p.order n) t n

/-- If every item has every table, every writer receives every slot. -/
theorem received_complete {l : List Nat} (h : ∀ n ∈ l, (p.order n).Perm Table.all) (t : Table) :
    (received t (l.map (providerItem p))).map (·.blockNum) = l := by
  rw [received_map_providerItem]
  have hone : ∀ n ∈ l, ((p.order n).filter fun t' => t' = t).map (fun t' => p.tableRows t' n) =
      [p.tableRows t n] := by
    intro n hn
    have hnodup : (p.order n).Nodup := (h n hn).nodup_iff.mpr (by decide)
    have hmem : t ∈ p.order n := (h n hn).mem_iff.mpr (by cases t <;> decide)
    rw [filter_eq_singleton hnodup hmem]
    rfl
  rw [flatMap_congr hone, map_flatMap]
  exact flatMap_singleton' l

end Provided

/-- Without wrap-around every slot has one item, in order. The items have a batch for each
table, and the writers receive every slot, if and only if no slot of the range is skipped. -/
theorem blockStreamImpl_delivers_iff (c : Conversion O R T M) (network : String)
    (rpc : Nat → RpcResponse R) (start stop : Nat) (blocks : List (DecodedBlock O))
    (hle : start ≤ stop) (hstop : stop + solanaRpcGetBlocksLimit ≤ 2 ^ 64)
    (hblocks : InOrder start stop blocks)
    (hrpc : ∀ n, start ≤ n → n ≤ stop → (rpc n).Answered) :
    (blockStreamImpl c network rpc start stop ⟨blocks, .exhausted⟩).map Item.blockNum =
        (slots start stop).map some ∧
      (Delivers start stop (blockStreamImpl c network rpc start stop ⟨blocks, .exhausted⟩) ↔
        ∀ n, start ≤ n → n ≤ stop → ¬ Skipped rpc start blocks n) := by
  rw [blockStreamImpl_eq hle hstop hblocks hrpc]
  set p := provider c network rpc start blocks with hp
  have horder : ∀ n, p.order n = if Skipped rpc start blocks n
      then [.blockHeaders, .transactions] else Table.all := by
    intro n
    simp only [← @slotRows_skipped _ _ _ _ c]
    rfl
  have hslots : ((slots start stop).map (providerItem p)).map Item.blockNum =
      (slots start stop).map some := by
    rw [map_map]
    apply map_congr_left
    intro n _
    refine blockNum_providerItem ?_ n
    intro n
    rw [horder n]
    split
    · exact ⟨_, _, rfl⟩
    · exact ⟨_, _, rfl⟩
  refine ⟨hslots, ?_, ?_⟩
  · intro h n hlow hhigh hskipped
    rcases h.complete _ (mem_map_of_mem (mem_slots.mpr ⟨hlow, hhigh⟩)) with ⟨rows, hrows, hperm⟩
    have htables : rows.map (·.table) = [.blockHeaders, .transactions] := by
      have hn := horder n
      rw [if_pos hskipped] at hn
      cases hrows
      rw [hn]
      rfl
    rw [htables] at hperm
    exact absurd hperm.length_eq (by decide)
  · intro h
    have hall : ∀ n ∈ slots start stop, p.order n = Table.all := by
      intro n hn
      rcases mem_slots.mp hn with ⟨hlow, hhigh⟩
      rw [horder n, if_neg (h n hlow hhigh)]
    refine ⟨hslots, ?_, ?_⟩
    · intro item hitem
      rcases mem_map.mp hitem with ⟨n, hn, rfl⟩
      refine ⟨_, rfl, ?_⟩
      rw [hall n hn]
      exact List.Perm.refl _
    · intro t
      refine received_complete ?_ t
      intro n hn
      rw [hall n hn]

/-- Transactions without contents. -/
def unitConversion : Conversion Unit Unit Unit Unit :=
  ⟨fun _ _ _ => (), fun _ _ _ => (), fun _ _ _ => (), fun _ _ _ => ()⟩

/-- An archive block with one transaction. -/
def unitBlock : DecodedBlock Unit :=
  ⟨slot, slot - 1, BitVec.ofNat 256 slot, BitVec.ofNat 256 (slot - 1), none, 0, [()]⟩

/-- An RPC provider that has a block with one transaction for the given slots. -/
def unitRpc : RpcResponse Unit :=
  if available slot then
    .block ⟨slot - 1, BitVec.ofNat 256 slot, BitVec.ofNat 256 (slot - 1), none, none,
      some [⟨(), .jsonRaw, false⟩]⟩
  else .error (-32007)

theorem unitRpc_answered : (unitRpc available slot).Answered := by
  unfold unitRpc
  split
  · intro tx htx
    simp only [Option.getD_some, mem_singleton] at htx
    subst htx
    exact ⟨rfl, rfl⟩
  · exact (by decide : isBlockMissingErr (-32007) = true)

/-- Slots 4 to 6, of which the archive has the first one. -/
theorem blockStreamImpl_delivers_iff_three :
    Delivers 4 6 (blockStreamImpl unitConversion "solana" (unitRpc fun _ => true) 4 6
      ⟨[unitBlock 4], .exhausted⟩) := by
  refine (blockStreamImpl_delivers_iff unitConversion "solana" (unitRpc fun _ => true) 4 6
    [unitBlock 4] (by decide) (by decide) ⟨by decide, by decide⟩
    fun n _ _ => unitRpc_answered _ n).2.mpr ?_
  have hslots : ∀ n ∈ slots 4 6, ¬ Skipped (unitRpc fun _ => true) 4 [unitBlock 4] n := by decide
  intro n hlow hhigh
  exact hslots n (mem_slots.mpr ⟨hlow, hhigh⟩)

/-- Slots 4 to 6. Slot 4 is skipped in the archive and slot 6 at the RPC provider, and the
messages writer receives slot 5 only. -/
theorem skipped_slots_without_messages : InOrder 4 6 [unitBlock 5] ∧
      ¬ Delivers 4 6 (blockStreamImpl unitConversion "solana" (unitRpc fun _ => false) 4 6
        ⟨[unitBlock 5], .exhausted⟩) ∧
      (received .messages (blockStreamImpl unitConversion "solana" (unitRpc fun _ => false) 4 6
        ⟨[unitBlock 5], .exhausted⟩)).map (·.blockNum) = [5] ∧
      (received .transactions (blockStreamImpl unitConversion "solana" (unitRpc fun _ => false) 4 6
        ⟨[unitBlock 5], .exhausted⟩)).map (·.blockNum) = [4, 5, 6] := by
  refine ⟨⟨by decide, by decide⟩, ?_, by decide +kernel, by decide +kernel⟩
  intro h
  exact absurd (h.writers .messages) (by decide +kernel)

/-- The last slot number. The end of its chunk wraps around, and the slot is not delivered
although the RPC provider has its block. -/
example : blockStreamImpl unitConversion "solana" (unitRpc fun _ => true) (2 ^ 64 - 1) (2 ^ 64 - 1)
    ⟨[], .exhausted⟩ = [] := by
  rfl

end Delivery

end CampNode.Solana

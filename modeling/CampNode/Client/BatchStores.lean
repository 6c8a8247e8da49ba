import CampNode.Core.OrderedMap
import CampNode.Core.Radix
import CampNode.Core.Transition

/-!
# CampNode.Client.BatchStores — the batch stores in memory and in LMDB

The batch store in memory is a `BTreeMap` from transaction ids to batches. The one in LMDB is a
database that sorts its keys as bytes: an id is written as eight bytes, the most significant first,
and a batch in the Arrow IPC format.

LMDB holds the map of the other store in another representation (`Stores`), and every call keeps
that. The stores differ in two calls. A range that ends before it starts makes a `BTreeMap` with a
root panic, and pruning up to the greatest id overflows in memory.
-/

namespace CampNode

/-- `u64`. -/
abbrev TransactionId := Fin (2 ^ 64)

/-- A format in which values are stored, and read back unchanged. -/
structure Codec (α W : Type) where
  encode : α → W
  decode : W → Option α
  decode_encode : ∀ a, decode (encode a) = some a

/-- The calls of the trait `BatchStore`. -/
inductive BatchCall (β : Type) where
  | append (batch : β) (id : TransactionId)
  | seek (start stop : TransactionId)
  | load (id : TransactionId)
  | prune (cutoff : TransactionId)

inductive BatchError where
  | invalidTransactionIdKeyLength
  | deserialization
deriving DecidableEq, Repr

inductive BatchAnswer (β : Type) where
  | done
  | ids (ids : List TransactionId)
  | batch (batch : Option β)
  | failed (error : BatchError)
  | panicked
deriving DecidableEq, Repr

/-! ## In memory -/

structure InMemoryBatchStore (β : Type) where
  batches : OrderedMap TransactionId β
  /-- The `BTreeMap` has a root, which may be empty. -/
  root : Bool

namespace InMemoryBatchStore

variable {β : Type} (s : InMemoryBatchStore β)

/-- A new `BTreeMap` has no root. -/
def new : InMemoryBatchStore β := ⟨.empty, false⟩

def append (batch : β) (id : TransactionId) : InMemoryBatchStore β :=
  ⟨s.batches.insert id batch, true⟩

/-- The ids in a range. `none` is the panic of `BTreeMap::range`, which compares the bounds when it
searches from the root. -/
def seek (start stop : TransactionId) : Option (List TransactionId) :=
  if s.root && decide (stop < start) then none
  else some ((s.batches.keep fun id => decide (start ≤ id) && decide (id ≤ stop)).entries.map (·.1))

def load (id : TransactionId) : Option β := s.batches.get id

/-- `split_off`, which keeps the keys from `cutoff + 1` on. The split of a map with entries has a
root, also if no entry is left. -/
def prune (cutoff : TransactionId) : InMemoryBatchStore β :=
  ⟨s.batches.keep fun id => decide (cutoff + 1 ≤ id), !s.batches.entries.isEmpty⟩

def call : BatchCall β → InMemoryBatchStore β × BatchAnswer β
  | .append batch id => (s.append batch id, .done)
  | .seek start stop => (s, match s.seek start stop with
      | none => .panicked
      | some ids => .ids ids)
  | .load id => (s, .batch (s.load id))
  | .prune cutoff => (s.prune cutoff, .done)

end InMemoryBatchStore

/-! ## In LMDB -/

/-- `encode_id`: eight bytes, big-endian. -/
def encodeId (id : TransactionId) : List UInt8 := putBE 8 id.val

/-- `decode_id`. -/
def decodeId (bytes : List UInt8) : Except BatchError TransactionId :=
  if bytes.length = 8 then .ok (Fin.ofNat (2 ^ 64) (ofBE bytes))
  else .error .invalidTransactionIdKeyLength

structure LmdbBatchStore (W : Type) where
  db : OrderedMap (List UInt8) W

namespace LmdbBatchStore

variable {β W : Type} (codec : Codec β W) (s : LmdbBatchStore W)

def append (batch : β) (id : TransactionId) : LmdbBatchStore W :=
  ⟨s.db.insert (encodeId id) (codec.encode batch)⟩

/-- The loop of `seek`: skip the keys before the range, stop after it. -/
def seekLoop (startKey endKey : List UInt8) :
    List (List UInt8 × W) → Except BatchError (List TransactionId)
  | [] => .ok []
  | (key, _) :: rest =>
      if key < startKey then seekLoop startKey endKey rest
      else if endKey < key then .ok []
      else do
        let id ← decodeId key
        let ids ← seekLoop startKey endKey rest
        return id :: ids

def seek (start stop : TransactionId) : Except BatchError (List TransactionId) :=
  seekLoop (encodeId start) (encodeId stop) s.db.entries

def load (id : TransactionId) : Except BatchError (Option β) :=
  match s.db.get (encodeId id) with
  | none => .ok none
  | some bytes =>
      match codec.decode bytes with
      | none => .error .deserialization
      | some batch => .ok (some batch)

/-- The keys are collected up to the first one after the cutoff and then deleted. -/
def prune (cutoff : TransactionId) : LmdbBatchStore W :=
  let keysToDelete := (s.db.entries.takeWhile fun e => decide (e.1 ≤ encodeId cutoff)).map (·.1)
  ⟨keysToDelete.foldl OrderedMap.erase s.db⟩

def call : BatchCall β → LmdbBatchStore W × BatchAnswer β
  | .append batch id => (s.append codec batch id, .done)
  | .seek start stop => (s, match s.seek start stop with
      | .error e => .failed e
      | .ok ids => .ids ids)
  | .load id => (s, match s.load codec id with
      | .error e => .failed e
      | .ok batch => .batch batch)
  | .prune cutoff => (s.prune cutoff, .done)

end LmdbBatchStore

/-! ## Keys -/

theorem encodeId_strictMono : StrictMono encodeId := by
  intro a b hlt
  exact putBE_lt_putBE b.isLt hlt

/-- A key is read back. -/
theorem decodeId_encodeId (id : TransactionId) : decodeId (encodeId id) = .ok id := by
  have hread : ofBE (putBE 8 id.val) = id.val := by
    have hput := ofBE_putBE 8 id.val
    omega
  unfold decodeId encodeId
  rw [if_pos (length_putBE 8 _), hread]
  congr 1
  exact Fin.ofNat_val_eq_self id

/-! ## The stores answer alike -/

section Alike

variable {β W : Type} (codec : Codec β W)

/-- LMDB holds the entries of the other store as bytes. -/
def Stores (memory : InMemoryBatchStore β) (lmdb : LmdbBatchStore W) : Prop :=
  lmdb.db = memory.batches.map encodeId_strictMono codec.encode

/-- Ranges that start before they end, and cutoffs before the greatest id. -/
def BatchCall.Regular : BatchCall β → Prop
  | .append _ _ => True
  | .seek start stop => start ≤ stop
  | .load _ => True
  | .prune cutoff => cutoff.val + 1 < 2 ^ 64

variable {codec} {memory : InMemoryBatchStore β} {lmdb : LmdbBatchStore W}

theorem append_stores (h : Stores codec memory lmdb) (batch : β) (id : TransactionId) :
    Stores codec (memory.append batch id) (lmdb.append codec batch id) := by
  unfold Stores LmdbBatchStore.append InMemoryBatchStore.append
  rw [h]
  exact OrderedMap.insert_map encodeId_strictMono codec.encode memory.batches id batch

/-- The loop finds the ids in the range and decodes each of them. -/
theorem seekLoop_eq (start stop : TransactionId) {entries : List (TransactionId × β)}
    (hsorted : entries.Pairwise fun a b => a.1 < b.1) :
    LmdbBatchStore.seekLoop (encodeId start) (encodeId stop)
        (entries.map fun e => (encodeId e.1, codec.encode e.2)) =
      .ok ((entries.filter fun e => decide (start ≤ e.1) && decide (e.1 ≤ stop)).map (·.1)) := by
  induction entries with
  | nil => rfl
  | cons e rest ih =>
    rcases List.pairwise_cons.mp hsorted with ⟨hlt, hrest⟩
    rw [List.map_cons, LmdbBatchStore.seekLoop, ih hrest]
    split
    · -- before the range
      rename_i hbefore
      have hbefore : e.1 < start := encodeId_strictMono.lt_iff_lt.mp hbefore
      rw [List.filter_cons_of_neg]
      simp only [Bool.and_eq_true, decide_eq_true_eq, not_and, not_le]
      intro hle
      exact absurd hbefore (not_lt.mpr hle)
    rename_i hstart
    have hstart : start ≤ e.1 := not_lt.mp fun hlt => hstart (encodeId_strictMono hlt)
    split
    · -- after the range, as all later keys
      rename_i hafter
      have hafter : stop < e.1 := encodeId_strictMono.lt_iff_lt.mp hafter
      have hnone : ∀ a ∈ e :: rest, ¬ (decide (start ≤ a.1) && decide (a.1 ≤ stop)) = true := by
        intro a ha
        simp only [Bool.and_eq_true, decide_eq_true_eq, not_and, not_le]
        intro _
        rcases List.mem_cons.mp ha with rfl | ha
        · exact hafter
        · exact hafter.trans (hlt a ha)
      rw [List.filter_eq_nil_iff.mpr hnone, List.map_nil]
    · rename_i hstop
      have hstop : e.1 ≤ stop := not_lt.mp fun hlt => hstop (encodeId_strictMono hlt)
      rw [List.filter_cons_of_pos, List.map_cons, decodeId_encodeId]
      · rfl
      · simp only [Bool.and_eq_true, decide_eq_true_eq]
        exact ⟨hstart, hstop⟩

section

variable (h : Stores codec memory lmdb)
include h

theorem seek_eq {start stop : TransactionId} (hrange : start ≤ stop) :
    ∃ ids, memory.seek start stop = some ids ∧ lmdb.seek start stop = .ok ids := by
  unfold InMemoryBatchStore.seek LmdbBatchStore.seek
  have hbounds : ¬ (memory.root && decide (stop < start)) = true := by
    simp only [Bool.and_eq_true, decide_eq_true_eq, not_and]
    exact fun _ => not_lt.mpr hrange
  rw [if_neg hbounds, h]
  exact ⟨_, rfl, seekLoop_eq start stop memory.batches.sorted⟩

theorem load_eq (id : TransactionId) : lmdb.load codec id = .ok (memory.load id) := by
  unfold LmdbBatchStore.load InMemoryBatchStore.load
  rw [h, OrderedMap.get_map]
  cases memory.batches.get id with
  | none => rfl
  | some batch =>
    simp only [Option.map_some, codec.decode_encode]

/-- Both stores keep the ids after the cutoff. -/
theorem prune_stores {cutoff : TransactionId} (hcutoff : cutoff.val + 1 < 2 ^ 64) :
    Stores codec (memory.prune cutoff) (lmdb.prune cutoff) := by
  have hsucc : ∀ id : TransactionId, cutoff + 1 ≤ id ↔ cutoff < id := by
    intro id
    rw [Fin.le_def, Fin.lt_def, Fin.val_add_one_of_lt' hcutoff]
    exact Nat.succ_le_iff
  have hkeep := OrderedMap.foldl_erase_takeWhile_le lmdb.db (encodeId cutoff)
  calc (lmdb.prune cutoff).db
      = lmdb.db.keep _ := hkeep
    _ = (memory.batches.map encodeId_strictMono codec.encode).keep _ := by rw [h]
    _ = (memory.prune cutoff).batches.map encodeId_strictMono codec.encode := by
      refine OrderedMap.keep_map encodeId_strictMono codec.encode memory.batches ?_
      intro id
      exact decide_eq_decide.mpr (encodeId_strictMono.lt_iff_lt.trans (hsucc id).symm)

theorem call_alike {c : BatchCall β} (hc : c.Regular) : (memory.call c).2 = (lmdb.call codec c).2 ∧
      Stores codec (memory.call c).1 (lmdb.call codec c).1 := by
  cases c with
  | append batch id => exact ⟨rfl, append_stores h batch id⟩
  | seek start stop =>
    rcases seek_eq h hc with ⟨ids, hmemory, hlmdb⟩
    refine ⟨?_, h⟩
    simp only [InMemoryBatchStore.call, LmdbBatchStore.call, hmemory, hlmdb]
  | load id =>
    refine ⟨?_, h⟩
    simp only [InMemoryBatchStore.call, LmdbBatchStore.call, load_eq h id]
  | prune cutoff => exact ⟨rfl, prune_stores h hc⟩

end

/-- Empty stores answer every list of regular calls alike. -/
theorem batch_answers_eq (calls : List (BatchCall β)) (hcalls : ∀ c ∈ calls, c.Regular) :
    answers InMemoryBatchStore.call .new calls =
      answers (LmdbBatchStore.call codec) ⟨.empty⟩ calls := by
  have hempty : Stores codec .new ⟨.empty⟩ :=
    (OrderedMap.map_empty encodeId_strictMono codec.encode).symm
  refine answers_eq_of_simulation (Stores codec) BatchCall.Regular ?_ hempty hcalls
  intro memory lmdb c h hc
  exact call_alike h hc

end Alike

end CampNode

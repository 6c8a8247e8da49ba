import CampNode.Client.BatchStores
import CampNode.Client.Commits
import Mathlib.Data.List.Sort
import Mathlib.Data.List.Nodup
import Mathlib.Data.String.Basic

/-!
# CampNode.Client.Stores — the state stores in memory, in LMDB and in Postgres

The store in memory is the snapshot itself, and the one in LMDB holds it under one key. Postgres
has a row for the counter of each stream and a row for each watermark. It compares ids as signed
numbers, skips a watermark whose id is there, and sorts when it loads.

`Issuing` is the state actor with the calls that it has made, over any number of restarts. What it
inserts comes after what is stored, so the rows of Postgres in the order of their ids are the
buffer (`Represents`), as long as ids are the same signed and unsigned.

`stores_agree` is the result for these stores and for the batch stores. `stores_differ` shows why
each of its conditions is needed.
-/

namespace CampNode

open List

/-! ## Calls -/

/-- The calls of the trait `StateStore` that change a store. -/
inductive StoreCall where
  | advance (next : Nat)
  | commit (commit : Commit)
  | truncate (fromId : Nat)

inductive StoreError where
  | json
  | streamNotFound (streamId : String)
  | bufferEntryInsert
  | nextTransactionIdLoad
  | blockRangesDeserialization
deriving DecidableEq, Repr

/-- `InMemoryStateStore`, whose state is the snapshot. -/
def StateSnapshot.call (s : StateSnapshot) : StoreCall → StateSnapshot
  | .advance next => s.advance next
  | .commit commit => s.commit commit
  | .truncate fromId => s.truncate fromId

/-- Snapshots that an actor can start from. -/
structure StateSnapshot.Valid (s : StateSnapshot) : Prop where
  ascending : Ascending s.buffer
  fresh : ∀ e ∈ s.buffer, e.1 < s.next

/-- What an actor keeps to in its calls: ids increase, and inserted watermarks come after those
that are kept. -/
def StoreCall.Issued (s : StateSnapshot) : StoreCall → Prop
  | .advance next => s.next ≤ next
  | .commit c => Ascending (s.commit c).buffer ∧ (∀ e ∈ c.insert, e.1 < s.next) ∧
      ∀ n ∈ c.prune, n < s.next
  | .truncate fromId => fromId = 1 ∨ fromId < s.next

namespace StoreCall

variable {s : StateSnapshot} {calls : List StoreCall}

theorem Issued.next_le {c : StoreCall} (h : c.Issued s) : s.next ≤ (s.call c).next := by
  cases c with
  | advance next => exact h
  | commit c => exact Nat.le_refl _
  | truncate fromId => exact Nat.le_refl _

theorem Issued.valid {c : StoreCall} (h : c.Issued s) (hs : s.Valid) : (s.call c).Valid := by
  cases c with
  | advance next => exact ⟨hs.ascending, fun e he => (hs.fresh e he).trans_le h⟩
  | commit c =>
    refine ⟨h.1, ?_⟩
    intro e he
    rcases mem_append.mp he with he | he
    · exact hs.fresh e ((Client.pruned_sublist _ _).subset he)
    · exact h.2.1 e he
  | truncate fromId =>
    exact ⟨hs.ascending.filter _, fun e he => hs.fresh e (mem_of_mem_filter he)⟩

/-- Every call of a list is issued on the snapshot that those before it leave. -/
def AllIssued : StateSnapshot → List StoreCall → Prop
  | _, [] => True
  | s, c :: calls => c.Issued s ∧ AllIssued (s.call c) calls

theorem allIssued_append {calls later : List StoreCall} : AllIssued s (calls ++ later) ↔
      AllIssued s calls ∧ AllIssued (calls.foldl StateSnapshot.call s) later := by
  induction calls generalizing s with
  | nil => exact (iff_of_eq (true_and _)).symm
  | cons c calls ih =>
    show c.Issued s ∧ AllIssued (s.call c) (calls ++ later) ↔ _
    rw [ih]
    exact and_assoc.symm

theorem AllIssued.next_le (h : AllIssued s calls) :
    s.next ≤ (calls.foldl StateSnapshot.call s).next := by
  induction calls generalizing s with
  | nil => exact Nat.le_refl _
  | cons c calls ih => exact h.1.next_le.trans (ih h.2)

theorem AllIssued.valid (h : AllIssued s calls) (hs : s.Valid) :
    (calls.foldl StateSnapshot.call s).Valid := by
  induction calls generalizing s with
  | nil => exact hs
  | cons c calls ih => exact ih h.2 (h.1.valid hs)

end StoreCall

/-! ## LMDB -/

structure LmdbStateStore (W : Type) where
  db : OrderedMap String W

namespace LmdbStateStore

variable {W : Type} (codec : Codec StateSnapshot W) (s : LmdbStateStore W)

/-- `read_state`, with which a snapshot is also loaded. -/
def readState : Except StoreError StateSnapshot :=
  match s.db.get "snapshot" with
  | none => .ok ⟨[], 0⟩
  | some bytes =>
      match codec.decode bytes with
      | none => .error .json
      | some state => .ok state

def writeState (state : StateSnapshot) : LmdbStateStore W :=
  ⟨s.db.insert "snapshot" (codec.encode state)⟩

/-- Every call reads the snapshot, changes it as in memory and writes it back. -/
def call (c : StoreCall) : Except StoreError (LmdbStateStore W) := do
  let state ← s.readState codec
  return s.writeState codec (state.call c)

theorem readState_writeState (state : StateSnapshot) :
    (s.writeState codec state).readState codec = .ok state := by
  unfold readState writeState
  rw [OrderedMap.get_insert_self]
  simp only [codec.decode_encode]

variable {codec s} in
/-- The snapshot after some calls is the one in memory. -/
theorem readState_calls {state : StateSnapshot} (h : s.readState codec = .ok state) (calls : List StoreCall) :
    ∃ s', calls.foldlM (call codec) s = .ok s' ∧
      s'.readState codec = .ok (calls.foldl StateSnapshot.call state) := by
  induction calls generalizing s state with
  | nil => exact ⟨s, rfl, h⟩
  | cons c calls ih =>
    have hcall : s.call codec c = .ok (s.writeState codec (state.call c)) := by
      unfold call
      rw [h]
      rfl
    rw [foldlM_cons, hcall]
    exact ih (readState_writeState codec s (state.call c))

end LmdbStateStore

/-! ## Postgres -/

/-- `as i64`. -/
def asI64 (n : Nat) : Int := if n < 2 ^ 63 then n else n - 2 ^ 64

/-- `as u64`. -/
def asU64 (x : Int) : Nat := (x % 2 ^ 64).toNat

theorem asI64_eq {n : Nat} (h : n < 2 ^ 63) : asI64 n = n := if_pos h

theorem asU64_asI64 {n : Nat} (h : n < 2 ^ 64) : asU64 (asI64 n) = n := by
  unfold asU64 asI64
  split
  · omega
  · omega

/-- A row of `amp_client_state`. -/
structure StateRow where
  streamId : String
  nextTransactionId : Int
deriving DecidableEq, Repr

/-- A row of `amp_client_buffer_entries`. -/
structure EntryRow (J : Type) where
  streamId : String
  transactionId : Int
  blockRanges : J

/-- The two tables with their primary keys and the reference between them. -/
structure PostgresDb (J : Type) where
  states : List StateRow
  entries : List (EntryRow J)
  stateKey : (states.map (·.streamId)).Nodup
  entryKey : (entries.map fun e => (e.streamId, e.transactionId)).Nodup
  reference : ∀ e ∈ entries, e.streamId ∈ states.map (·.streamId)

namespace PostgresDb

variable {J : Type} (db : PostgresDb J)
variable (streamId : String) (next : Int) (row : StateRow)

/-- `INSERT INTO amp_client_state … ON CONFLICT DO NOTHING`. -/
def insertState : PostgresDb J :=
  if h : streamId ∈ db.states.map (·.streamId) then db
  else
    { db with
      states := db.states ++ [⟨streamId, 0⟩]
      stateKey := by
        rw [List.map_append]
        refine List.nodup_append.mpr ⟨db.stateKey, List.nodup_singleton _, ?_⟩
        intro a ha b hb heq
        rw [heq, List.mem_singleton.mp hb] at ha
        exact h ha
      reference := by
        intro e he
        rw [List.map_append]
        exact List.mem_append_left _ (db.reference e he) }

/-- A row of the stream with another counter. -/
def setNext : StateRow :=
  if row.streamId = streamId then { row with nextTransactionId := next } else row

theorem setNext_streamId : (setNext streamId next row).streamId = row.streamId := by
  unfold setNext
  split
  · rfl
  · rfl

theorem map_setNext (rows : List StateRow) :
    (rows.map (setNext streamId next)).map (·.streamId) = rows.map (·.streamId) := by
  rw [map_map]
  exact map_congr_left fun row _ => setNext_streamId streamId next row

/-- `UPDATE amp_client_state SET next_transaction_id = …`. -/
def updateState : PostgresDb J :=
  { db with
    states := db.states.map (setNext streamId next)
    stateKey := by
      rw [map_setNext]
      exact db.stateKey
    reference := by
      rw [map_setNext]
      exact db.reference }

/-- `DELETE FROM amp_client_buffer_entries WHERE …`. -/
def deleteEntries (p : EntryRow J → Bool) : PostgresDb J :=
  { db with
    entries := db.entries.filter fun e => !p e
    entryKey := db.entryKey.sublist (List.filter_sublist.map _)
    reference := fun e he => db.reference e (List.mem_of_mem_filter he) }

/-- `INSERT INTO amp_client_buffer_entries … ON CONFLICT DO NOTHING`. A row of an unknown stream
violates the reference. -/
def insertEntry (row : EntryRow J) : Except StoreError (PostgresDb J) :=
  if hkey : (row.streamId, row.transactionId) ∈
      db.entries.map fun e => (e.streamId, e.transactionId) then .ok db
  else if hstream : row.streamId ∈ db.states.map (·.streamId) then
    .ok { db with
      entries := db.entries ++ [row]
      entryKey := by
        rw [List.map_append]
        refine List.nodup_append.mpr ⟨db.entryKey, List.nodup_singleton _, ?_⟩
        intro a ha b hb heq
        rw [heq, List.mem_singleton.mp hb] at ha
        exact hkey ha
      reference := by
        intro e he
        rcases List.mem_append.mp he with he | he
        · exact db.reference e he
        · rw [List.mem_singleton.mp he]
          exact hstream }
  else .error .bufferEntryInsert

end PostgresDb

namespace PostgresStateStore

variable {J : Type} (json : Codec (List BlockRange) J) (streamId : String) (db : PostgresDb J)

def advance (next : Nat) : Except StoreError (PostgresDb J) :=
  if streamId ∈ db.states.map (·.streamId) then .ok (db.updateState streamId (asI64 next))
  else .error (.streamNotFound streamId)

def truncate (fromId : Nat) : PostgresDb J :=
  db.deleteEntries fun e => e.streamId == streamId && decide (asI64 fromId ≤ e.transactionId)

def deletePruned : Option Nat → PostgresDb J
  | none => db
  | some prune =>
      db.deleteEntries fun e => e.streamId == streamId && decide (e.transactionId ≤ asI64 prune)

variable (e : BufferEntry)

/-- The row of a watermark. -/
def entryRow : EntryRow J := ⟨streamId, asI64 e.1, json.encode e.2⟩

@[simp]
theorem entryRow_streamId : (entryRow json streamId e).streamId = streamId := rfl

@[simp]
theorem entryRow_transactionId : (entryRow json streamId e).transactionId = asI64 e.1 := rfl

/-- One transaction: an error leaves the tables as they were. -/
def commit (commit : Commit) : Except StoreError (PostgresDb J) :=
  commit.insert.foldlM (fun db e => db.insertEntry (entryRow json streamId e))
    (deletePruned streamId db commit.prune)

def call : StoreCall → Except StoreError (PostgresDb J)
  | .advance next => advance streamId db next
  | .commit c => commit json streamId db c
  | .truncate fromId => .ok (truncate streamId db fromId)

/-- A loaded row. -/
def readRow (row : EntryRow J) : Except StoreError BufferEntry :=
  match json.decode row.blockRanges with
  | none => .error .blockRangesDeserialization
  | some ranges => .ok (asU64 row.transactionId, ranges)

def load : Except StoreError StateSnapshot :=
  match db.states.find? (·.streamId == streamId) with
  | none => .error .nextTransactionIdLoad
  | some row => do
      let rows := (db.entries.filter (·.streamId == streamId)).insertionSort
        fun a b => a.transactionId ≤ b.transactionId
      let buffer ← rows.mapM (readRow json)
      return ⟨buffer, asU64 row.nextTransactionId⟩

/-! ### The rows of a snapshot -/

/-- The rows of the stream are those of the snapshot, in any order. -/
structure Represents (s : StateSnapshot) : Prop where
  state : ⟨streamId, asI64 s.next⟩ ∈ db.states
  entries :
    (db.entries.filter (·.streamId == streamId)).Perm (s.buffer.map (entryRow json streamId))
  ascending : Ascending s.buffer
  small : ∀ e ∈ s.buffer, e.1 < 2 ^ 63
  next : s.next < 2 ^ 64

variable {json streamId db} {s : StateSnapshot}

theorem Represents.mem_states (h : Represents json streamId db s) :
    streamId ∈ db.states.map (·.streamId) :=
  mem_map.mpr ⟨_, h.state, rfl⟩

/-- Watermarks of one id are one watermark. -/
theorem eq_of_id_eq {buffer : List BufferEntry} (h : Ascending buffer) {e e' : BufferEntry}
    (he : e ∈ buffer) (he' : e' ∈ buffer) (hid : e.1 = e'.1) : e = e' := by
  have hnodup : (buffer.map (·.1)).Nodup := pairwise_map.mpr (h.imp Nat.ne_of_lt)
  exact inj_on_of_nodup_map hnodup he he' hid

theorem mapM_readRow {buffer : List BufferEntry} (hsmall : ∀ e ∈ buffer, e.1 < 2 ^ 63) :
    (buffer.map (entryRow json streamId)).mapM (readRow json) = .ok buffer := by
  induction buffer with
  | nil => rfl
  | cons e buffer ih =>
    have hid : asU64 (asI64 e.1) = e.1 := asU64_asI64 ((hsmall e mem_cons_self).trans (by decide))
    have hread : readRow json (entryRow json streamId e) = .ok e := by
      unfold readRow entryRow
      simp only [json.decode_encode, hid]
    rw [map_cons, mapM_cons, hread, ih fun e he => hsmall e (mem_cons_of_mem _ he)]
    rfl

/-- Sorted by their ids, the rows are the buffer. -/
theorem sorted_rows (h : Represents json streamId db s) :
    (db.entries.filter (·.streamId == streamId)).insertionSort
      (fun a b => a.transactionId ≤ b.transactionId) = s.buffer.map (entryRow json streamId) := by
  have hperm := (perm_insertionSort (fun a b : EntryRow J =>
    a.transactionId ≤ b.transactionId) _).trans h.entries
  have hid : ∀ e ∈ s.buffer, (entryRow json streamId e).transactionId = e.1 := by
    intro e he
    rw [entryRow_transactionId, asI64_eq (h.small e he)]
  refine List.Perm.eq_of_pairwise ?_ (@List.pairwise_insertionSort _ _ _ ⟨?_⟩ ⟨?_⟩ _) ?_ hperm
  · intro a b ha hb hab hba
    rcases mem_map.mp (hperm.mem_iff.mp ha) with ⟨e, he, rfl⟩
    rcases mem_map.mp hb with ⟨e', he', rfl⟩
    rw [hid e he, hid e' he'] at hab hba
    rw [eq_of_id_eq h.ascending he he' (by omega)]
  · intro a b
    exact Int.le_total _ _
  · intro a b c
    exact Int.le_trans
  · refine pairwise_map.mpr (List.Pairwise.imp_of_mem ?_ h.ascending)
    intro a b ha hb hlt
    rw [hid a ha, hid b hb]
    omega

theorem Represents.load (h : Represents json streamId db s) : load json streamId db = .ok s := by
  have hfind : db.states.find? (·.streamId == streamId) = some ⟨streamId, asI64 s.next⟩ := by
    have hsome : (db.states.find? (·.streamId == streamId)).isSome = true :=
      find?_isSome.mpr ⟨_, h.state, beq_self_eq_true streamId⟩
    rcases Option.isSome_iff_exists.mp hsome with ⟨row, hrow⟩
    have hstream := find?_some hrow
    rw [hrow, inj_on_of_nodup_map db.stateKey (mem_of_find?_eq_some hrow) h.state
      (beq_iff_eq.mp hstream)]
  unfold PostgresStateStore.load
  rw [hfind]
  simp only
  rw [sorted_rows h, mapM_readRow h.small, asU64_asI64 h.next]
  rfl

/-! ### Calls -/

section

variable (h : Represents json streamId db s)
include h

/-- Deleting rows of the stream is filtering the buffer. -/
theorem Represents.delete {p : EntryRow J → Bool}
    {q : BufferEntry → Bool} (hp : ∀ e ∈ s.buffer, p (entryRow json streamId e) = !q e) :
    Represents json streamId (db.deleteEntries p) { s with buffer := s.buffer.filter q } := by
  refine ⟨h.state, ?_, h.ascending.filter _, fun e he => h.small e (mem_of_mem_filter he), h.next⟩
  have hrows := h.entries.filter fun e => !p e
  rw [filter_filter, filter_map] at hrows
  have hsame : s.buffer.filter ((fun e => !p e) ∘ entryRow json streamId) = s.buffer.filter q := by
    refine filter_congr ?_
    intro e he
    rw [Function.comp_apply, hp e he, Bool.not_not]
  rw [hsame] at hrows
  show ((db.entries.filter fun e => !p e).filter _).Perm _
  rw [filter_filter]
  simp only [Bool.and_comm] at hrows ⊢
  exact hrows

theorem Represents.advance {next : Nat} (hnext : next < 2 ^ 64) :
    ∃ db', advance streamId db next = .ok db' ∧ Represents json streamId db' (s.advance next) := by
  refine ⟨_, if_pos h.mem_states, ?_, h.entries, h.ascending, h.small, hnext⟩
  refine mem_map.mpr ⟨_, h.state, ?_⟩
  exact if_pos rfl

theorem Represents.truncate {fromId : Nat} (hfrom : fromId < 2 ^ 63) :
    Represents json streamId (truncate streamId db fromId) (s.truncate fromId) := by
  refine h.delete ?_
  intro e he
  have hsigned : asI64 fromId ≤ (entryRow json streamId e).transactionId ↔ ¬ e.1 < fromId := by
    rw [entryRow_transactionId, asI64_eq hfrom, asI64_eq (h.small e he)]
    omega
  rw [← decide_not, entryRow_streamId, beq_self_eq_true, Bool.true_and]
  exact decide_eq_decide.mpr hsigned

theorem Represents.deletePruned {prune : Option Nat} (hprune : ∀ n ∈ prune, n < 2 ^ 63) :
    Represents json streamId (deletePruned streamId db prune)
      { s with buffer := pruned prune s.buffer } := by
  cases prune with
  | none => exact h
  | some n =>
    refine h.delete ?_
    intro e he
    have hsigned : (entryRow json streamId e).transactionId ≤ asI64 n ↔ ¬ n < e.1 := by
      rw [entryRow_transactionId, asI64_eq (hprune n rfl), asI64_eq (h.small e he)]
      omega
    rw [← decide_not, entryRow_streamId, beq_self_eq_true, Bool.true_and]
    exact decide_eq_decide.mpr hsigned

/-- A watermark after all others is a new row. -/
theorem Represents.insertEntry {e : BufferEntry}
    (hasc : Ascending (s.buffer ++ [e])) (hsmall : e.1 < 2 ^ 63) :
    ∃ db', db.insertEntry (entryRow json streamId e) = .ok db' ∧
      Represents json streamId db' { s with buffer := s.buffer ++ [e] } := by
  have hnew : ((entryRow json streamId e).streamId, (entryRow json streamId e).transactionId) ∉
      db.entries.map fun row => (row.streamId, row.transactionId) := by
    intro hmem
    rcases mem_map.mp hmem with ⟨row, hrow, hkey⟩
    rcases Prod.mk.inj hkey with ⟨hstream, hid⟩
    rw [entryRow_transactionId] at hid
    have hfiltered : row ∈ db.entries.filter (·.streamId == streamId) :=
      mem_filter.mpr ⟨hrow, beq_iff_eq.mpr hstream⟩
    rcases mem_map.mp (h.entries.mem_iff.mp hfiltered) with ⟨e', he', rfl⟩
    have hlt : e'.1 < e.1 := (pairwise_append.mp hasc).2.2 e' he' e (mem_singleton_self e)
    rw [entryRow_transactionId, asI64_eq (h.small e' he'), asI64_eq hsmall] at hid
    omega
  have hstream : (entryRow json streamId e).streamId ∈ db.states.map (·.streamId) := h.mem_states
  unfold PostgresDb.insertEntry
  rw [dif_neg hnew, dif_pos hstream]
  refine ⟨_, rfl, h.state, ?_, hasc, ?_, h.next⟩
  · rw [filter_append, map_append]
    have hkept : [entryRow json streamId e].filter (·.streamId == streamId) =
        [entryRow json streamId e] :=
      filter_eq_self.mpr fun row hrow => by
        rw [mem_singleton.mp hrow, entryRow_streamId, beq_self_eq_true]
    rw [hkept]
    exact h.entries.append_right _
  · intro e' he'
    rcases mem_append.mp he' with he' | he'
    · exact h.small e' he'
    · rw [mem_singleton.mp he']
      exact hsmall

/-- The loop over the inserted watermarks. -/
theorem Represents.insertEntries {insert : List BufferEntry}
    (hasc : Ascending (s.buffer ++ insert)) (hsmall : ∀ e ∈ insert, e.1 < 2 ^ 63) :
    ∃ db', insert.foldlM (fun db e => db.insertEntry (entryRow json streamId e)) db = .ok db' ∧
      Represents json streamId db' { s with buffer := s.buffer ++ insert } := by
  induction insert generalizing db s with
  | nil =>
    rw [append_nil]
    exact ⟨db, rfl, h⟩
  | cons e insert ih =>
    rw [append_cons] at hasc
    rcases h.insertEntry (pairwise_append.mp hasc).1 (hsmall e mem_cons_self) with
      ⟨db₁, hdb₁, h₁⟩
    rcases ih h₁ hasc fun e he => hsmall e (mem_cons_of_mem _ he) with ⟨db', hdb', h'⟩
    rw [foldlM_cons, hdb₁, append_cons]
    exact ⟨db', hdb', h'⟩

theorem Represents.call {c : StoreCall} (hc : c.Issued s) (hnext : (s.call c).next ≤ 2 ^ 63) :
    ∃ db', call json streamId db c = .ok db' ∧ Represents json streamId db' (s.call c) := by
  cases c with
  | advance next =>
    have hnext : next ≤ 2 ^ 63 := hnext
    exact h.advance (by omega)
  | commit c =>
    rcases hc with ⟨hasc, hinsert, hprune⟩
    exact (h.deletePruned fun n hn => (hprune n hn).trans_le hnext).insertEntries hasc
      fun e he => (hinsert e he).trans_le hnext
  | truncate fromId =>
    refine ⟨_, rfl, h.truncate ?_⟩
    rcases hc with rfl | hlt
    · decide
    · exact hlt.trans_le hnext

/-- The rows after some calls are those of the snapshot in memory. -/
theorem Represents.calls {calls : List StoreCall} (hcalls : StoreCall.AllIssued s calls)
    (hnext : (calls.foldl StateSnapshot.call s).next ≤ 2 ^ 63) :
    ∃ db', calls.foldlM (PostgresStateStore.call json streamId) db = .ok db' ∧
      Represents json streamId db' (calls.foldl StateSnapshot.call s) := by
  induction calls generalizing db s with
  | nil => exact ⟨db, rfl, h⟩
  | cons c calls ih =>
    rcases h.call hcalls.1 (hcalls.2.next_le.trans hnext) with ⟨db₁, hdb₁, h₁⟩
    rw [foldlM_cons, hdb₁]
    exact ih h₁ hcalls.2 hnext

end

/-- A new stream has its counter and no watermarks. -/
theorem represents_new (hnew : streamId ∉ db.states.map (·.streamId)) :
    Represents json streamId (db.insertState streamId) ⟨[], 0⟩ := by
  have hempty : db.entries.filter (·.streamId == streamId) = [] := by
    refine filter_eq_nil_iff.mpr ?_
    intro e he heq
    have hmem := db.reference e he
    rw [beq_iff_eq.mp heq] at hmem
    exact hnew hmem
  unfold PostgresDb.insertState
  rw [dif_neg hnew]
  refine ⟨mem_append_right _ (mem_singleton_self _), ?_, .nil, nofun, by decide⟩
  rw [hempty]
  exact .nil

end PostgresStateStore

/-! ## The state actor -/

namespace Actor

variable {β : Type} (retention : Nat)

/-- The calls of the store that a call of the actor makes, in their order. -/
def issued (a : Actor) : ActorCall β → List StoreCall
  | .execute action =>
      .advance (a.container.next + 1) ::
        match a.taken.execute retention a.container.next action with
        | .error _ => []
        | .ok done => done.truncate.toList.map .truncate
  | .commit id =>
      let compressed := Commit.new (a.pendingUpTo id)
      if (a.pendingUpTo id).isEmpty || compressed.isEmpty then [] else [.commit compressed]

theorem commit_store (a : Actor) (id : Nat) :
    (a.container.commit a.store id).2 = if (a.pendingUpTo id).isEmpty then a.store
      else a.store.commit (Commit.new (a.pendingUpTo id)) := by
  unfold StateContainer.commit pendingUpTo
  simp only
  split
  · rfl
  · rfl

/-- The store of the actor is changed by these calls. -/
theorem store_call (a : Actor) (c : ActorCall β) :
    (a.call retention {} c).1.store = (a.issued retention c).foldl StateSnapshot.call a.store := by
  cases c with
  | execute action =>
    unfold Actor.call Actor.execute issued
    simp only [Bool.false_eq_true, ↓reduceIte, Bool.and_false]
    cases a.taken.execute retention a.container.next action with
    | error e => rfl
    | ok done =>
      simp only [StateSnapshot.after]
      cases done.truncate with
      | none => rfl
      | some n => rfl
  | commit id =>
    have hstore : (a.call (β := β) retention {} (.commit id)).1.store =
        (a.container.commit a.store id).2 := rfl
    rw [hstore, commit_store]
    unfold issued
    simp only
    cases (a.pendingUpTo id).isEmpty with
    | true => rfl
    | false =>
      cases hcompressed : (Commit.new (a.pendingUpTo id)).isEmpty with
      | false => rfl
      | true =>
        -- an empty commit would change nothing
        rcases Bool.and_eq_true_iff.mp hcompressed with ⟨hinsert, hprune⟩
        have hsame : a.store.commit (Commit.new (a.pendingUpTo id)) = a.store := by
          unfold StateSnapshot.commit
          rw [isEmpty_iff.mp hinsert, Option.isNone_iff_eq_none.mp hprune, append_nil]
          rfl
        exact hsame

/-- Only a reorg truncates, to one past a watermark of the buffer. -/
theorem truncate_le {c : StateContainer} {id n : Nat} {action : StreamAction β} {done : Executed β}
    (h : c.execute retention id action = .ok done) (hn : done.truncate = some n) :
    n = 1 ∨ ∃ e ∈ c.buffer, n = e.1 + 1 := by
  cases action with
  | rewind =>
    cases h
    cases hn
  | message m =>
    cases m with
    | data batch ranges =>
      cases h
      cases hn
    | watermark ranges =>
      rcases Client.executeWatermark_ok h with ⟨prune, -, rfl⟩
      cases hn
    | reorg old incoming invalidation =>
      simp only [StateContainer.execute, StateContainer.executeReorg] at h
      split at h
      · split at h
        · cases h
          cases hn
          exact .inl rfl
        · cases h
      · rename_i tx ranges hrecovery
        split at h
        · cases h
        · cases h
          cases hn
          have hmem := mem_of_find?_eq_some hrecovery
          exact .inr ⟨(tx, ranges), mem_reverse.mp hmem, rfl⟩

/-- An actor whose buffer matches its store, with the counter persisted. -/
structure Persisted (a : Actor) : Prop where
  kept : Kept a
  next : a.store.next = a.container.next

variable {a : Actor}

theorem Persisted.valid (h : Persisted a) : a.store.Valid := by
  have hasc := h.kept.ascending
  have hfresh := h.kept.fresh
  rw [h.kept.buffer] at hasc hfresh
  refine ⟨(pairwise_append.mp hasc).1, ?_⟩
  intro e he
  rw [h.next]
  exact hfresh e (mem_append_left _ he)

theorem load_persisted {s : StateSnapshot} (h : s.Valid) : Persisted (load s) :=
  ⟨load_kept h.ascending h.fresh, rfl⟩

/-- The actor keeps to the rules for its calls. -/
theorem Persisted.allIssued (h : Persisted a) (c : ActorCall β) :
    StoreCall.AllIssued a.store (a.issued retention c) := by
  cases c with
  | execute action =>
    refine ⟨Nat.le_succ_of_le (Nat.le_of_eq h.next), ?_⟩
    cases hexecute : a.taken.execute retention a.container.next action with
    | error e => exact trivial
    | ok done =>
      show StoreCall.AllIssued _ (done.truncate.toList.map .truncate)
      cases htruncate : done.truncate with
      | none => exact trivial
      | some n =>
        refine ⟨?_, trivial⟩
        rcases truncate_le retention hexecute htruncate with hone | ⟨e, he, rfl⟩
        · exact .inl hone
        · exact .inr (Nat.succ_lt_succ (h.kept.fresh e he))
  | commit id =>
    unfold issued
    simp only
    split
    · exact trivial
    rename_i hnonempty
    have hne : ¬ (a.pendingUpTo id).isEmpty = true := by
      intro hempty
      rw [hempty, Bool.true_or] at hnonempty
      exact hnonempty rfl
    have hpending : ∀ p ∈ a.pendingUpTo id, p ∈ a.container.uncommitted ∧ p.id < a.store.next := by
      intro p hp
      have hmem : p ∈ a.container.uncommitted := (takeWhile_sublist _).subset hp
      refine ⟨hmem, ?_⟩
      rw [h.next]
      refine h.kept.fresh p.entry ?_
      rw [h.kept.buffer]
      exact mem_append_right _ (mem_map_of_mem hmem)
    refine ⟨⟨?_, ?_, ?_⟩, trivial⟩
    · -- what is stored afterwards is a start of the buffer in memory
      have hkept := h.kept.commit id
      have hasc := hkept.ascending
      rw [hkept.buffer, commit_store, if_neg hne] at hasc
      exact (pairwise_append.mp hasc).1
    · intro e he
      rcases mem_map.mp ((Client.pruned_sublist _ _).subset he) with ⟨p, hp, rfl⟩
      exact (hpending p hp).2
    · intro n hn
      rcases Client.maxPrune_mem hn with ⟨p, hp, hprune⟩
      exact (h.kept.prunes p (hpending p hp).1 n hprune).trans (hpending p hp).2

/-- A call without failures that returns keeps the counter and the buffer persisted. -/
theorem Persisted.call {a a' : Actor} (h : Persisted a) {c : ActorCall β}
    {result : Except CallError Unit} (hcall : a.call retention {} c = (a', result)) :
    Persisted a' := by
  refine ⟨?_, h.kept.call_next h.next hcall⟩
  cases c with
  | execute action =>
    have hexecute : a.execute retention {} action = (a', result) := hcall
    have hharmless : Harmless retention a (.execute action) {} := nofun
    exact execute_kept hexecute hharmless h.kept
  | commit id =>
    have hcommit : a.commit {} id = (a', result) := hcall
    have hharmless : Harmless (β := β) retention a (.commit id) {} := nofun
    exact commit_kept hcommit hharmless h.kept

end Actor

/-- The state actor, and the calls that it and those before it have made to the store. -/
structure Issuing where
  actor : Actor
  calls : List StoreCall

namespace Issuing

variable {β : Type} (retention : Nat)

/-- A new stream. -/
def Init : StatePred Issuing := fun s => s = ⟨Actor.load ⟨[], 0⟩, []⟩

/-- A call of the actor that returns. -/
def Return (c : ActorCall β) : Action Issuing := fun s s' =>
  ∃ a' result, s.actor.call retention {} c = (a', result) ∧
    result ≠ .error (.actor .panicked) ∧ s' = ⟨a', s.calls ++ s.actor.issued retention c⟩

/-- The client stops or panics in a call, and a new actor loads the store. -/
def Restart (c : ActorCall β) : Action Issuing := fun s s' =>
  ∃ made later, s.actor.issued retention c = made ++ later ∧
    s' = ⟨Actor.load (made.foldl StateSnapshot.call s.actor.store), s.calls ++ made⟩

def Next (β : Type) : Action Issuing := fun s s' =>
  ∃ c : ActorCall β, Return retention c s s' ∨ Restart retention c s s'

/-- The calls keep to the rules and lead to the store of the actor. -/
structure Inv (s : Issuing) : Prop where
  persisted : s.actor.Persisted
  store : s.calls.foldl StateSnapshot.call ⟨[], 0⟩ = s.actor.store
  issued : StoreCall.AllIssued ⟨[], 0⟩ s.calls

theorem init_inv : ∀ s, Init s → Inv s := by
  intro s hs
  subst hs
  exact ⟨Actor.load_persisted ⟨.nil, nofun⟩, rfl, trivial⟩

/-- Further calls on the store of the actor. -/
theorem Inv.append {s : Issuing} (h : Inv s) {calls : List StoreCall}
    (hcalls : StoreCall.AllIssued s.actor.store calls) :
    (s.calls ++ calls).foldl StateSnapshot.call ⟨[], 0⟩ =
        calls.foldl StateSnapshot.call s.actor.store ∧
      StoreCall.AllIssued ⟨[], 0⟩ (s.calls ++ calls) := by
  rw [foldl_append, StoreCall.allIssued_append, h.store]
  exact ⟨rfl, h.issued, hcalls⟩

theorem step_inv : ∀ s s', Next retention β s s' → Inv s → Inv s' := by
  rintro s s' ⟨c, ⟨a', result, hcall, -, rfl⟩ | ⟨made, later, hmade, rfl⟩⟩ h
  · rcases h.append (h.persisted.allIssued retention c) with ⟨hstore, hissued⟩
    refine ⟨h.persisted.call retention hcall, ?_, hissued⟩
    have hnew := Actor.store_call retention s.actor c
    rw [hcall] at hnew
    exact hstore.trans hnew.symm
  · have hall := h.persisted.allIssued retention c
    rw [hmade, StoreCall.allIssued_append] at hall
    rcases h.append hall.1 with ⟨hstore, hissued⟩
    exact ⟨Actor.load_persisted (hall.1.valid h.persisted.valid), hstore, hissued⟩

end Issuing

/-! ## The stores agree -/

/-- After the calls of a state actor, over any number of restarts, the stores in memory, in LMDB
and in Postgres load the same snapshot, if ids stay below `2 ^ 63`; and the batch stores in memory
and in LMDB answer alike, if ranges do not end before they start and the greatest id is not
pruned. -/
theorem stores_agree {β W W' J : Type} (retention : Nat) (snapshots : Codec StateSnapshot W)
    (json : Codec (List BlockRange) J) (batches : Codec β W') (streamId : String)
    (db : PostgresDb J) (hnew : streamId ∉ db.states.map (·.streamId)) :
    (∀ s, Reachable Issuing.Init (Issuing.Next retention β) s → s.actor.container.next ≤ 2 ^ 63 →
      ∃ lmdb postgres, s.calls.foldlM (LmdbStateStore.call snapshots) ⟨.empty⟩ = .ok lmdb ∧
        s.calls.foldlM (PostgresStateStore.call json streamId) (db.insertState streamId) =
          .ok postgres ∧ lmdb.readState snapshots = .ok (s.calls.foldl StateSnapshot.call ⟨[], 0⟩) ∧
        PostgresStateStore.load json streamId postgres =
          .ok (s.calls.foldl StateSnapshot.call ⟨[], 0⟩)) ∧
    ∀ calls : List (BatchCall β), (∀ c ∈ calls, c.Regular) →
      answers InMemoryBatchStore.call .new calls =
        answers (LmdbBatchStore.call batches) ⟨.empty⟩ calls := by
  refine ⟨?_, fun calls hcalls => batch_answers_eq calls hcalls⟩
  intro s hs hnext
  have hinv := init_invariant _ _ _ Issuing.init_inv (Issuing.step_inv retention) s hs
  have hempty : (⟨.empty⟩ : LmdbStateStore W).readState snapshots = .ok ⟨[], 0⟩ := rfl
  rcases LmdbStateStore.readState_calls hempty s.calls with ⟨lmdb, hlmdb, hread⟩
  have hbound : (s.calls.foldl StateSnapshot.call ⟨[], 0⟩).next ≤ 2 ^ 63 := by
    rw [hinv.store, hinv.persisted.next]
    exact hnext
  have hrows₀ : PostgresStateStore.Represents json streamId (db.insertState streamId) ⟨[], 0⟩ :=
    PostgresStateStore.represents_new hnew
  rcases hrows₀.calls hinv.issued hbound with ⟨postgres, hpostgres, hrows⟩
  exact ⟨lmdb, postgres, hlmdb, hpostgres, hread, hrows.load⟩

section Examples

def sameText {α : Type} : Codec α α := ⟨id, some, fun _ => rfl⟩

def noTables : PostgresDb (List BlockRange) := ⟨[], [], .nil, .nil, nofun⟩

/-- One watermark is executed and committed, and a new actor loads the store. -/
def oneCommitted : Issuing where
  actor := .load ⟨threeWatermarks.take 1, 1⟩
  calls := [.advance 1, .commit ⟨threeWatermarks.take 1, none⟩]

theorem oneCommitted_reachable : Reachable Issuing.Init (Issuing.Next 0 Unit) oneCommitted := by
  have h : Reachable Issuing.Init (Issuing.Next 0 Unit) ⟨Actor.load ⟨[], 0⟩, []⟩ := .init rfl
  have h := h.step ⟨.execute (.message (.watermark threeWatermarks[0].2)),
    .inl ⟨_, .ok (), rfl, nofun, rfl⟩⟩
  exact h.step ⟨.commit 0, .inr ⟨[.commit ⟨[threeWatermarks[0]], none⟩], [], rfl, rfl⟩⟩

/-- The stores of a watermark, and a batch that is appended, found and pruned. -/
theorem stores_agree_one_watermark :
    (∃ lmdb postgres, oneCommitted.calls.foldlM (LmdbStateStore.call sameText) ⟨.empty⟩ = .ok lmdb ∧
      oneCommitted.calls.foldlM (PostgresStateStore.call sameText "stream")
        (noTables.insertState "stream") = .ok postgres ∧
      lmdb.readState sameText = .ok ⟨[threeWatermarks[0]], 1⟩ ∧
      PostgresStateStore.load sameText "stream" postgres = .ok ⟨[threeWatermarks[0]], 1⟩) ∧
    answers InMemoryBatchStore.call .new [.append () 5, .seek 1 9, .prune 5, .load 5] =
      answers (LmdbBatchStore.call sameText) ⟨.empty⟩
        [.append () 5, .seek 1 9, .prune 5, .load 5] := by
  rcases stores_agree 0 sameText sameText (sameText (α := Unit)) "stream" noTables nofun with
    ⟨hstate, hbatch⟩
  refine ⟨hstate oneCommitted oneCommitted_reachable (by decide), hbatch _ ?_⟩
  intro c hc
  simp only [mem_cons, not_mem_nil, or_false] at hc
  rcases hc with rfl | rfl | rfl | rfl
  · exact trivial
  · show (1 : TransactionId) ≤ 9
    decide
  · show (5 : TransactionId).val + 1 < 2 ^ 64
    decide
  · exact trivial

/-- The batch store in memory keeps a batch that it should prune, and panics for a range that ends
before it starts. Postgres takes the id `2 ^ 63` for a negative number and returns its watermark
first. -/
theorem stores_differ :
    (answers InMemoryBatchStore.call .new [.append () 5, .prune (Fin.last _), .load 5] =
        [.done, .done, .batch (some ())] ∧
      answers (LmdbBatchStore.call (sameText (α := Unit))) ⟨.empty⟩
        [.append () 5, .prune (Fin.last _), .load 5] = [.done, .done, .batch none]) ∧
    (answers InMemoryBatchStore.call .new [.append () 5, .seek 2 1] = [.done, .panicked] ∧
      answers (LmdbBatchStore.call (sameText (α := Unit))) ⟨.empty⟩ [.append () 5, .seek 2 1] =
        [.done, .ids []]) ∧
    ([.advance (2 ^ 63), .advance (2 ^ 63 + 1),
        .commit ⟨[(2 ^ 63 - 1, []), (2 ^ 63, [])], none⟩].foldl StateSnapshot.call ⟨[], 0⟩ =
        ⟨[(2 ^ 63 - 1, []), (2 ^ 63, [])], 2 ^ 63 + 1⟩ ∧
      ∃ db, [.advance (2 ^ 63), .advance (2 ^ 63 + 1),
          .commit ⟨[(2 ^ 63 - 1, []), (2 ^ 63, [])], none⟩].foldlM
            (PostgresStateStore.call sameText "stream") (noTables.insertState "stream") = .ok db ∧
        PostgresStateStore.load sameText "stream" db =
          .ok ⟨[(2 ^ 63, []), (2 ^ 63 - 1, [])], 2 ^ 63 + 1⟩) := by
  refine ⟨⟨?_, ?_⟩, ⟨?_, ?_⟩, ?_, _, rfl, ?_⟩
  · decide
  · decide
  · decide
  · decide
  · rfl
  · rfl

end Examples

end CampNode

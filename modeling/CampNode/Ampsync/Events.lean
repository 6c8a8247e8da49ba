import CampNode.Ampsync.Engine
import Mathlib.Data.List.Nodup

/-!
# CampNode.Ampsync.Events — the rows that some events leave

What the table of a task is for: it holds the rows of the data events that no undo
takes back (`LiveRow`). An event that is sent after a watermark was persisted does not
change what lies before that watermark (`Pending`), and a rewind takes back everything
after it (`Rewinds`).
-/

namespace CampNode.Ampsync

variable {ρ : Type} {event : TransactionEvent (List ρ)}
  {events older : List (TransactionEvent (List ρ))} {r r' : Row ρ}

/-! ## The rows of the events -/

/-- A row of a data event. -/
def RowOf (event : TransactionEvent (List ρ)) (r : Row ρ) : Prop :=
  match event with
  | .data id batch _ => r.txId = id ∧ batch[r.rowIndex]? = some r.row
  | _ => False

/-- The event takes the row back. -/
def Undoes (event : TransactionEvent (List ρ)) (r : Row ρ) : Prop :=
  match event with
  | .undo _ _ range => range.start ≤ r.txId ∧ r.txId ≤ range.stop
  | _ => False

/-- The rows of some events, the latest first, that no later event takes back. -/
def LiveRow : List (TransactionEvent (List ρ)) → Row ρ → Prop
  | [], _ => False
  | event :: older, r => RowOf event r ∨ (LiveRow older r ∧ ¬ Undoes event r)

def DeliveredRow (events : List (TransactionEvent (List ρ))) (r : Row ρ) : Prop :=
  ∃ event ∈ events, RowOf event r

theorem RowOf.txId (h : RowOf event r) : r.txId = event.id := by
  cases event with
  | data id batch ranges => exact h.1
  | undo id cause range => exact h.elim
  | watermark id ranges prune => exact h.elim

/-- A batch has one row for each key. -/
theorem RowOf.unique (h : RowOf event r) (h' : RowOf event r') (hkey : r.key = r'.key) : r = r' := by
  have htx : r.txId = r'.txId := congrArg Prod.fst hkey
  have hindex : r.rowIndex = r'.rowIndex := congrArg Prod.snd hkey
  cases event with
  | data id batch ranges =>
    have hrow : some r.row = some r'.row := by rw [← h.2, ← h'.2, hindex]
    cases r
    cases r'
    simp_all
  | undo id cause range => exact h.elim
  | watermark id ranges prune => exact h.elim

theorem DeliveredRow.cons (h : DeliveredRow older r) : DeliveredRow (event :: older) r := by
  rcases h with ⟨e, he, hrow⟩
  exact ⟨e, List.mem_cons_of_mem _ he, hrow⟩

theorem LiveRow.delivered (h : LiveRow events r) : DeliveredRow events r := by
  induction events with
  | nil => exact h.elim
  | cons event older ih =>
    rcases h with h | ⟨h, -⟩
    · exact ⟨event, List.mem_cons_self, h⟩
    · exact (ih h).cons

/-- Every event has an id of its own, so that a key belongs to one delivered row. -/
theorem DeliveredRow.unique
    (hids : events.Pairwise fun later earlier => earlier.id < later.id)
    (h : DeliveredRow events r) (h' : DeliveredRow events r') (hkey : r.key = r'.key) : r = r' := by
  rcases h with ⟨e, he, hrow⟩
  rcases h' with ⟨e', he', hrow'⟩
  have htx : r.txId = r'.txId := congrArg Prod.fst hkey
  have hid : e.id = e'.id := by rw [← hrow.txId, ← hrow'.txId, htx]
  have hnodup : (events.map TransactionEvent.id).Nodup := by
    rw [List.Nodup, List.pairwise_map]
    exact hids.imp fun hlt heq => absurd heq (Nat.ne_of_gt hlt)
  have heq : e = e' := List.inj_on_of_nodup_map hnodup he he' hid
  rw [← heq] at hrow'
  exact hrow.unique hrow' hkey

/-! ## Events and persisted watermarks -/

variable (store : StateSnapshot)

/-- The last persisted watermark. -/
def lastWatermark : Option Nat := store.buffer.getLast?.map (·.1)

/-- The event comes after the persisted watermarks and takes back nothing before them. -/
def Pending (event : TransactionEvent (List ρ)) : Prop :=
  ∀ e ∈ store.buffer, e.1 < event.id ∧ ∀ r : Row ρ, r.txId ≤ e.1 → ¬ Undoes event r

/-- A rewind that takes back everything after the persisted watermarks. -/
def Rewinds (event : TransactionEvent (List ρ)) : Prop :=
  (∃ id range, event = .undo id .rewind range) ∧
    ∀ r : Row ρ, r.txId < event.id → (∀ e ∈ store.buffer, e.1 < r.txId) → Undoes event r

/-- The table is right up to the persisted watermarks. -/
def Settled (events : List (TransactionEvent (List ρ))) (table : Table ρ) : Prop :=
  ∀ e ∈ store.buffer, ∀ r : Row ρ, r.txId ≤ e.1 → (r ∈ table ↔ LiveRow events r)

section Watermarks

variable {store : StateSnapshot} {e : BufferEntry}

/-- Up to a persisted watermark a pending event makes no difference. -/
theorem Pending.live (h : Pending store event) (he : e ∈ store.buffer) (hr : r.txId ≤ e.1) :
    LiveRow (event :: older) r ↔ LiveRow older r := by
  rcases h e he with ⟨hid, hundo⟩
  constructor
  · rintro (hrow | ⟨hlive, -⟩)
    · have := hrow.txId
      omega
    · exact hlive
  · intro hlive
    exact .inr ⟨hlive, hundo r hr⟩

theorem le_lastWatermark (hasc : Ascending store.buffer) (he : e ∈ store.buffer) :
    ∃ w ∈ lastWatermark store, e.1 ≤ w := by
  have hne : store.buffer ≠ [] := List.ne_nil_of_mem he
  have hlast := List.getLast?_eq_some_getLast hne
  refine ⟨(store.buffer.getLast hne).1, by simp [lastWatermark, hlast], ?_⟩
  rcases hasc.last hlast he with heq | hlt
  · rw [← heq]
  · exact Nat.le_of_lt hlt

/-- Without a rewind all ids were used up to the last watermark. -/
theorem watermark_of_not_needsRewind (h : Client.needsRewind store = false) {i : Nat}
    (hi : i < store.next) : ∃ e ∈ store.buffer, i ≤ e.1 := by
  unfold Client.needsRewind at h
  split at h
  · rename_i last hlast
    have hle := of_decide_eq_false h
    exact ⟨last, List.mem_of_mem_getLast? hlast, by omega⟩
  · have hle := of_decide_eq_false h
    omega

/-- What an executed action sends is pending afterwards. -/
theorem execute_pending {retention id : Nat} {c : StateContainer}
    {action : StreamAction (List ρ)} {done : Executed (List ρ)}
    (h : c.execute retention id action = .ok done)
    (hbuffer : c.buffer = store.buffer ++ c.uncommitted.map PendingCommit.entry)
    (hasc : Ascending c.buffer) (hfresh : ∀ e ∈ c.buffer, e.1 < id)
    (hsub : (store.after done).buffer ⊆ store.buffer) :
    Pending (store.after done) done.event := by
  intro e he
  have hmem : e ∈ c.buffer := by
    rw [hbuffer]
    exact List.mem_append_left _ (hsub he)
  rw [(Client.execute_cases h).1]
  refine ⟨hfresh e hmem, ?_⟩
  intro r hr hundo
  cases hevent : done.event with
  | data id batch ranges => rw [hevent] at hundo; exact hundo
  | watermark id ranges prune => rw [hevent] at hundo; exact hundo
  | undo id' cause range =>
    rw [hevent] at hundo
    have hlt := Client.kept_before_undo h hevent hbuffer hasc (.inl he)
    exact absurd hundo.1 (by omega)

/-- An executed rewind takes back everything after the watermarks. -/
theorem rewind_rewinds {retention id : Nat} {c : StateContainer} {done : Executed (List ρ)}
    (h : c.execute retention id .rewind = .ok done) (hbuffer : c.buffer = store.buffer)
    (hasc : Ascending c.buffer) : Rewinds store done.event := by
  have hevent : done.event = .undo id .rewind (c.rewindRange id) := by
    cases h
    rfl
  rcases Client.execute_undo h hevent hasc with ⟨hstop, -, hstart⟩
  refine ⟨⟨id, _, hevent⟩, ?_⟩
  rw [hevent]
  intro r hlt hafter
  refine ⟨hstart rfl r.txId ?_, ?_⟩
  · rw [hbuffer]
    exact hafter
  · have hid : r.txId < id := hlt
    omega

end Watermarks

end CampNode.Ampsync

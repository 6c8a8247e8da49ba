import CampNode.Ampsync.Events
import CampNode.Ampsync.Task

/-!
# CampNode.Ampsync.Recovery — the table of a task across crashes

The table of a task comes to hold the live rows of the delivered events in two stages.

* Whatever happened before, the rows up to the last persisted watermark are right
  (`Settled`), because an undo never reaches back to a watermark that is kept.
* The rewind at the start of a connection deletes everything after that watermark,
  also the first chunks of a batch that a crash cut short. From then on the table
  follows the events (`Content`).
-/

namespace CampNode.Ampsync

open Client List

variable {ρ : Type} {event : TransactionEvent (List ρ)}
  {older : List (TransactionEvent (List ρ))} {r : Row ρ}

namespace StreamTask

/-! ## The invariant -/

/-- What the table holds after the rewind, in each phase. -/
def Content (c : Client (List ρ)) (table : Table ρ) : Phase ρ → Prop
  | .idle => ∀ r, r ∈ table ↔ LiveRow c.delivered r
  -- rows that the event takes back may be gone already
  | .handling event => ∃ older, c.delivered = event :: older ∧ Pending c.store event ∧
      ∀ r, ¬ Undoes event r → (r ∈ table ↔ LiveRow older r)
  -- a chunk more than the position says is there if an answer was lost
  | .inserting id rows _ start => ∃ batch ranges older k,
      c.delivered = .data id batch ranges :: older ∧ Pending c.store (.data id batch ranges) ∧
      (∀ r, r ∈ rows ↔ RowOf (.data id batch ranges) r) ∧ start ≤ k ∧
      ∀ r, r ∈ table ↔ LiveRow older r ∨ r ∈ rows.take k
  | .committing _ => ∀ r, r ∈ table ↔ LiveRow c.delivered r

/-- Before the rewind nothing else is sent or handled. -/
def Starting (c : Client (List ρ)) (resumed : Option Nat) : Phase ρ → Prop
  | .idle => ∀ x ∈ c.session, resumed = lastWatermark c.store ∧
      ((x.queue = [.rewind] ∧ x.outbox = none ∧ x.container.buffer = c.store.buffer) ∨
        ∃ event ∈ x.outbox, Rewinds c.store event)
  | .handling event => resumed = lastWatermark c.store ∧ Rewinds c.store event ∧
      Pending c.store event ∧ ∃ older, c.delivered = event :: older
  | _ => False

/-- The row is not above the last watermark that was persisted when the task connected,
or it came since. -/
def Kept (s : StreamTask ρ) (r : Row ρ) : Prop :=
  (∃ w ∈ s.resumed, r.txId ≤ w) ∨ s.opened ≤ r.txId

def Since (s : StreamTask ρ) : Prop := ∀ r, LiveRow s.client.delivered r → s.Kept r

structure SessionInv (s : StreamTask ρ) (x : Session (List ρ)) : Prop where
  allocated : ∀ id ∈ x.allocated, s.opened ≤ id
  outbox : ∀ event ∈ x.outbox, s.phase = .idle ∧ s.opened ≤ event.id ∧ Pending s.client.store event

structure Inv (s : StreamTask ρ) : Prop where
  book : Client.Book s.client
  keys : (s.table.map Row.key).Nodup
  source : ∀ r ∈ s.table, DeliveredRow s.client.delivered r
  opened : s.opened ≤ s.client.store.next
  session : ∀ x ∈ s.client.session, SessionInv s x
  content : s.recovered = true → Content s.client s.table s.phase ∧ Since s
  starting : s.recovered = false → Starting s.client s.resumed s.phase ∧
    Settled s.client.store s.client.delivered s.table

section Lemmas

variable {s s' : StreamTask ρ}

theorem Content.settled {c : Client (List ρ)} {table : Table ρ} {phase : Phase ρ}
    (h : Content c table phase) : Settled c.store c.delivered table := by
  intro e he r hr
  cases phase with
  | idle => exact h r
  | committing id => exact h r
  | handling event =>
    rcases h with ⟨older, hdelivered, hpending, hrows⟩
    rw [hdelivered, hpending.live he hr]
    exact hrows r ((hpending e he).2 r hr)
  | inserting id rows size start =>
    rcases h with ⟨batch, ranges, older, k, hdelivered, hpending, hof, -, hrows⟩
    rw [hdelivered, hpending.live he hr, hrows]
    constructor
    · rintro (hlive | hrow)
      · exact hlive
      · have htx := ((hof r).mp (mem_of_mem_take hrow)).txId
        have hlt := (hpending e he).1
        omega
    · exact .inl

theorem Inv.settled (h : Inv s) : Settled s.client.store s.client.delivered s.table := by
  cases hrec : s.recovered with
  | true => exact (h.content hrec).1.settled
  | false => exact (h.starting hrec).2

theorem Inv.ids (h : Inv s) :
    s.client.delivered.Pairwise fun later earlier => earlier.id < later.id :=
  (pairwise_append.mp h.book.ids).2.1

theorem Inv.delivered_lt (h : Inv s) (hr : DeliveredRow s.client.delivered r) :
    r.txId < s.client.store.next := by
  rcases hr with ⟨event, hevent, hrow⟩
  rw [hrow.txId]
  exact h.book.fresh event (mem_append_right _ hevent)

/-- Only an idle task can be about to start, or the rewind is in hand. While another event is
handled the table follows the events. -/
theorem Inv.busy (h : Inv s) {phase : Phase ρ} (hphase : s.phase = phase) (hidle : phase ≠ .idle)
    (hrewind : ∀ id range, phase ≠ .handling (.undo id .rewind range)) :
    s.phase ≠ .idle ∧ s.recovered = true ∧ Content s.client s.table phase ∧ Since s := by
  have hrec : s.recovered = true := by
    by_contra hnot
    have hstarting := (h.starting (Bool.eq_false_of_not_eq_true hnot)).1
    rw [hphase] at hstarting
    cases phase with
    | idle => exact hidle rfl
    | handling event =>
      rcases hstarting with ⟨-, ⟨⟨id, range, rfl⟩, -⟩, -⟩
      exact hrewind id range rfl
    | inserting id rows size start => exact hstarting
    | committing id => exact hstarting
  rcases h.content hrec with ⟨hcontent, hsince⟩
  rw [hphase] at hcontent
  exact ⟨hphase ▸ hidle, hrec, hcontent, hsince⟩

/-- A step of the stream, which leaves the events and the table alone. -/
theorem Inv.polled (h : Inv s) (hphase : s.phase = .idle) {c : Client (List ρ)}
    (hbook : Client.Book c) (hdelivered : c.delivered = s.client.delivered)
    (hsub : c.store.buffer ⊆ s.client.store.buffer) (hnext : s.client.store.next ≤ c.store.next)
    (hsession : ∀ x ∈ c.session, SessionInv { s with client := c } x)
    (hstarting : Starting s.client s.resumed .idle → Starting c s.resumed .idle) :
    Inv { s with client := c } := by
  refine ⟨hbook, h.keys, ?_, h.opened.trans hnext, hsession, ?_, ?_⟩
  · rw [hdelivered]
    exact h.source
  · intro hrec
    rcases h.content hrec with ⟨hcontent, hsince⟩
    rw [hphase] at hcontent
    unfold Since
    rw [hphase, hdelivered]
    refine ⟨?_, hsince⟩
    show ∀ r, r ∈ s.table ↔ LiveRow c.delivered r
    rw [hdelivered]
    exact hcontent
  · intro hrec
    rcases h.starting hrec with ⟨hstart, hsettled⟩
    rw [hphase] at hstart
    rw [hphase, hdelivered]
    exact ⟨hstarting hstart, fun e he => hsettled e (hsub he)⟩

/-- A step of the handling of an event, after which the table follows the events. -/
theorem Inv.handled (h : Inv s) (hbusy : s.phase ≠ .idle) (hclient : s'.client = s.client)
    (hopened : s'.opened = s.opened) (hrec : s'.recovered = true)
    (hkeys : (s'.table.map Row.key).Nodup)
    (hsource : ∀ r ∈ s'.table, DeliveredRow s.client.delivered r)
    (hcontent : Content s.client s'.table s'.phase) (hsince : Since s') : Inv s' := by
  refine ⟨?_, hkeys, ?_, ?_, ?_, ?_, ?_⟩
  · rw [hclient]
    exact h.book
  · rw [hclient]
    exact hsource
  · rw [hclient, hopened]
    exact h.opened
  · intro x hx
    rw [hclient] at hx
    refine ⟨?_, ?_⟩
    · rw [hopened]
      exact (h.session x hx).allocated
    · intro event hevent
      exact absurd ((h.session x hx).outbox event hevent).1 hbusy
  · intro _
    rw [hclient]
    exact ⟨hcontent, hsince⟩
  · intro hfalse
    rw [hrec] at hfalse
    cases hfalse

end Lemmas

/-! ## Steps -/

section Steps

variable {s s' : StreamTask ρ}

theorem connect_inv (hstep : Connect s s') (h : Inv s) : Inv s' := by
  rcases hstep with ⟨hphase, c, hconnect, rfl⟩
  have hbook := connect_book hconnect h.book
  rcases hconnect with ⟨-, rfl⟩
  refine ⟨hbook, h.keys, h.source, Nat.le_refl _, ?_, ?_, ?_⟩
  · intro x hx
    cases hx
    exact ⟨nofun, nofun⟩
  · intro hrec
    have hneeds : needsRewind s.client.store = false := by simpa using hrec
    constructor
    · rw [hphase]
      intro r
      -- every row that was delivered lies before a persisted watermark
      have hdelivered : DeliveredRow s.client.delivered r →
          (r ∈ s.table ↔ LiveRow s.client.delivered r) := by
        intro hr
        rcases watermark_of_not_needsRewind hneeds (h.delivered_lt hr) with ⟨e, he, hle⟩
        exact h.settled e he r hle
      constructor
      · intro hr
        exact (hdelivered (h.source r hr)).mp hr
      · intro hr
        exact (hdelivered hr.delivered).mpr hr
    · intro r hr
      rcases watermark_of_not_needsRewind hneeds (h.delivered_lt hr.delivered) with ⟨e, he, hle⟩
      rcases le_lastWatermark h.book.ascending he with ⟨w, hw, hew⟩
      exact .inl ⟨w, hw, hle.trans hew⟩
  · intro hrec
    have hneeds : needsRewind s.client.store = true := by simpa using hrec
    refine ⟨?_, h.settled⟩
    rw [hphase]
    intro x hx
    cases hx
    exact ⟨rfl, .inl ⟨by simp [openSession, hneeds], rfl, rfl⟩⟩

theorem respond_inv {response : ResponseBatch (List ρ)}
    (hstep : Polls (Client.Respond response) s s') (h : Inv s) : Inv s' := by
  rcases hstep with ⟨hphase, c, hrespond, rfl⟩
  have hbook := respond_book hrespond h.book
  rcases hrespond with ⟨x, hx, -, hqueue, -, hout, hc⟩
  have hsession := h.session x hx
  -- a task that is about to rewind takes no response
  have hnot : ¬ Starting s.client s.resumed .idle := by
    intro hstarting
    rcases (hstarting x hx).2 with ⟨hrewind, -⟩ | ⟨event, hevent, -⟩
    · rw [hqueue] at hrewind
      cases hrewind
    · rw [hout] at hevent
      cases hevent
  split at hc
  · subst hc
    refine h.polled hphase hbook rfl (List.Subset.refl _) (Nat.le_refl _) ?_ (absurd · hnot)
    intro x' hx'
    cases hx'
    exact ⟨hsession.allocated, hsession.outbox⟩
  · subst hc
    refine h.polled hphase hbook rfl (List.Subset.refl _) (Nat.le_refl _) ?_ (absurd · hnot)
    intro x' hx'
    cases hx'
    exact ⟨hsession.allocated, hsession.outbox⟩

theorem allocate_inv (hstep : Polls Client.Allocate s s') (h : Inv s) : Inv s' := by
  rcases hstep with ⟨hphase, c, hallocate, rfl⟩
  have hbook := allocate_book hallocate h.book
  rcases hallocate with ⟨x, hx, -, -, -, hout, rfl⟩
  have hnext := (h.book.session x hx).next
  have hopened := h.opened
  refine h.polled hphase hbook rfl (List.Subset.refl _) ?_ ?_ ?_
  · show s.client.store.next ≤ x.container.next + 1
    omega
  · intro x' hx'
    cases hx'
    refine ⟨?_, (h.session x hx).outbox⟩
    intro id hid
    cases hid
    show s.opened ≤ x.container.next
    omega
  · intro hstarting x' hx'
    cases hx'
    exact hstarting x hx

theorem execute_inv {retention : Nat} (hstep : Polls (Client.Execute retention) s s')
    (h : Inv s) : Inv s' := by
  rcases hstep with ⟨hphase, c, hexecute, rfl⟩
  have hbook := execute_inv_book hexecute h.book
  rcases execute_inversion hexecute with
    ⟨x, id, action, rest, hx, -, halloc, hqueue, rfl | ⟨done, hdone, rfl⟩⟩
  · refine h.polled hphase hbook rfl (List.Subset.refl _) (Nat.le_refl _) ?_ ?_
    · intro x' hx'
      cases hx'
      exact ⟨nofun, (h.session x hx).outbox⟩
    · intro hstarting x' hx'
      cases hx'
      exact hstarting x hx
  have hxbook := h.book.session x hx
  rcases hxbook.allocated id halloc with ⟨-, hout, -, hfresh⟩
  rcases execute_book hdone hxbook.buffer hxbook.ascending hfresh hxbook.prunes with
    ⟨hnext, hsub, -⟩
  refine h.polled hphase hbook rfl hsub.subset (Nat.le_of_eq hnext.symm) ?_ ?_
  · intro x' hx'
    cases hx'
    refine ⟨nofun, ?_⟩
    intro event hevent
    cases hevent
    refine ⟨hphase, ?_, ?_⟩
    · rw [(execute_cases hdone).1]
      exact (h.session x hx).allocated id halloc
    · exact execute_pending hdone hxbook.buffer hxbook.ascending hfresh hsub.subset
  · intro hstarting x' hx'
    cases hx'
    rcases hstarting x hx with ⟨hresumed, ⟨hrewind, -, hbuffer⟩ | ⟨event, hevent, -⟩⟩
    · rw [hqueue] at hrewind
      cases hrewind
      have hrewinds := rewind_rewinds hdone hbuffer hxbook.ascending
      cases hdone
      exact ⟨hresumed, .inr ⟨_, rfl, hrewinds⟩⟩
    · rw [hout] at hevent
      cases hevent

theorem take_inv (hstep : Take s s') (h : Inv s) : Inv s' := by
  rcases hstep with ⟨hphase, x, event, c, hx, hout, hdeliver, rfl⟩
  have hbook := deliver_book hdeliver h.book
  rcases hdeliver with ⟨x', event', hx', hout', rfl⟩
  rw [hx] at hx'
  cases hx'
  rw [hout] at hout'
  cases hout'
  rcases (h.session x hx).outbox event hout with ⟨-, hopened, hpending⟩
  refine ⟨hbook, h.keys, fun r hr => (h.source r hr).cons, h.opened, ?_, ?_, ?_⟩
  · intro x' hx'
    cases hx'
    exact ⟨(h.session x hx).allocated, nofun⟩
  · intro hrec
    rcases h.content hrec with ⟨hcontent, hsince⟩
    rw [hphase] at hcontent
    refine ⟨⟨s.client.delivered, rfl, hpending, fun r _ => hcontent r⟩, ?_⟩
    rintro r (hrow | ⟨hlive, -⟩)
    · exact .inr (hopened.trans_eq hrow.txId.symm)
    · exact hsince r hlive
  · intro hrec
    rcases h.starting hrec with ⟨hstarting, hsettled⟩
    rw [hphase] at hstarting
    rcases hstarting x hx with ⟨hresumed, ⟨-, hnone, -⟩ | ⟨event', hevent, hrewinds⟩⟩
    · rw [hout] at hnone
      cases hnone
    rw [hout] at hevent
    cases hevent
    refine ⟨⟨hresumed, hrewinds, hpending, _, rfl⟩, ?_⟩
    intro e he r hr
    rw [hsettled e he r hr]
    exact (hpending.live he hr).symm

theorem prepare_inv {limits : BatchLimits} {current rowBytes : Nat}
    (hstep : Prepare limits current rowBytes s s') (h : Inv s) : Inv s' := by
  rcases hstep with ⟨id, batch, ranges, rows, hphase, hrows, rfl⟩
  rcases h.busy hphase nofun nofun with ⟨hbusy, hrec, hcontent, hsince⟩
  rcases hcontent with ⟨older, hdelivered, hpending, htable⟩
  split
  · rename_i hempty
    refine h.handled hbusy rfl rfl hrec h.keys h.source ?_ hsince
    -- an empty batch has no rows to add
    intro r
    rw [htable r (by simp [Undoes]), hdelivered]
    constructor
    · intro hlive
      exact .inr ⟨hlive, by simp [Undoes]⟩
    · rintro (hrow | ⟨hlive, -⟩)
      · rw [isEmpty_iff.mp hempty] at hrows
        exact absurd ((mem_addTransactionMetadata hrows r).mpr hrow) not_mem_nil
      · exact hlive
  · refine h.handled hbusy rfl rfl hrec h.keys h.source ?_ hsince
    refine ⟨batch, ranges, older, 0, hdelivered, hpending, mem_addTransactionMetadata hrows,
      Nat.le_refl _, ?_⟩
    intro r
    rw [htable r (by simp [Undoes])]
    simp

theorem insert_inv {lost : Bool} (hstep : Insert lost s s') (h : Inv s) : Inv s' := by
  rcases hstep with ⟨id, rows, size, start, hphase, rfl⟩
  rcases h.busy hphase nofun nofun with ⟨hbusy, hrec, hcontent, hsince⟩
  rcases hcontent with ⟨batch, ranges, older, k, hdelivered, hpending, hof, hstart, htable⟩
  have hsource : ∀ r, (r ∈ s.table ∨ r ∈ chunk rows size start) →
      DeliveredRow s.client.delivered r := by
    rintro r (hr | hr)
    · exact h.source r hr
    · rw [hdelivered]
      exact ⟨_, mem_cons_self, (hof r).mp (mem_of_mem_drop (mem_of_mem_take hr))⟩
  have hmem := @Table.mem_insertChunk _ s.table (chunk rows size start) fun r hr x hx hkey =>
    DeliveredRow.unique h.ids (hsource x hx) (hsource r (.inr hr)) hkey
  -- the table now holds the rows up to the end of the chunk, or more
  have htable' : ∀ r, r ∈ s.table.insertChunk (chunk rows size start) ↔
      LiveRow older r ∨ r ∈ rows.take (max k (chunkEnd rows size start)) := by
    intro r
    rw [hmem, htable, mem_take_max_chunkEnd size hstart, or_assoc]
  refine h.handled hbusy rfl rfl hrec (Table.nodup_insertChunk _ h.keys)
    (fun r hr => hsource r ((hmem r).mp hr)) ?_ hsince
  split
  · rw [hphase]
    exact ⟨batch, ranges, older, _, hdelivered, hpending, hof, hstart.trans (Nat.le_max_left _ _),
      htable'⟩
  unfold afterChunk
  split
  · exact ⟨batch, ranges, older, _, hdelivered, hpending, hof, Nat.le_max_right _ _, htable'⟩
  have hall : rows.take (max k (chunkEnd rows size start)) = rows := take_of_length_le (by omega)
  intro r
  rw [htable' r, hall, hof r, hdelivered]
  simp [LiveRow, Undoes, or_comm]

/-- After a rewind only rows up to a persisted watermark are left. -/
theorem Inv.watermark_of_rewinds (h : Inv s) (hdelivered : s.client.delivered = event :: older)
    (hrewinds : Rewinds s.client.store event) (hr : DeliveredRow s.client.delivered r)
    (hnot : ¬ Undoes event r) : ∃ e ∈ s.client.store.buffer, r.txId ≤ e.1 := by
  rcases hrewinds with ⟨⟨id, range, rfl⟩, hreach⟩
  have hlt : r.txId < id := by
    have hids := h.ids
    rw [hdelivered] at hr hids
    rcases hr with ⟨e, he, hrow⟩
    rcases mem_cons.mp he with rfl | he
    · exact hrow.elim
    · rw [hrow.txId]
      exact rel_of_pairwise_cons hids he
  by_contra hnone
  push Not at hnone
  exact hnot (hreach r hlt hnone)

theorem delete_inv {lost : Bool} (hstep : Delete lost s s') (h : Inv s) : Inv s' := by
  rcases hstep with ⟨id, cause, range, hphase, rfl⟩
  have hbusy : s.phase ≠ .idle := by simp [hphase]
  have hmem : ∀ r, r ∈ s.table.deleteByTxRange range ↔
      r ∈ s.table ∧ ¬ Undoes (.undo id cause range) r := fun r => Table.mem_deleteByTxRange
  have hkeys := Table.nodup_deleteByTxRange range h.keys
  have hsource : ∀ r ∈ s.table.deleteByTxRange range, DeliveredRow s.client.delivered r :=
    fun r hr => h.source r ((hmem r).mp hr).1
  cases hrec : s.recovered with
  | true =>
    rcases h.content hrec with ⟨hcontent, hsince⟩
    rw [hphase] at hcontent
    rcases hcontent with ⟨older, hdelivered, hpending, htable⟩
    refine h.handled hbusy rfl rfl rfl hkeys hsource ?_ hsince
    split
    · rw [hphase]
      refine ⟨older, hdelivered, hpending, ?_⟩
      intro r hnot
      rw [hmem, htable r hnot, and_iff_left hnot]
    · intro r
      rw [hmem, and_congr_left fun hnot => htable r hnot, hdelivered]
      simp [LiveRow, RowOf]
  | false =>
    rcases h.starting hrec with ⟨hstarting, hsettled⟩
    rw [hphase] at hstarting
    rcases hstarting with ⟨hresumed, hrewinds, hpending, older, hdelivered⟩
    cases lost with
    | true =>
      refine ⟨h.book, hkeys, hsource, h.opened, ?_, nofun, ?_⟩
      · intro x hx
        exact ⟨(h.session x hx).allocated, (h.session x hx).outbox⟩
      intro _
      rw [hphase]
      refine ⟨⟨hresumed, hrewinds, hpending, older, hdelivered⟩, ?_⟩
      intro e he r hr
      rw [hmem, and_iff_left ((hpending e he).2 r hr)]
      exact hsettled e he r hr
    | false =>
      rcases hrewinds.1 with ⟨id', range', hevent⟩
      cases hevent
      have hlive : ∀ {r}, LiveRow s.client.delivered r → ¬ Undoes (.undo id .rewind range) r := by
        intro r hr
        rw [hdelivered] at hr
        exact hr.elim False.elim And.right
      refine h.handled hbusy rfl rfl rfl hkeys hsource ?_ ?_
      · intro r
        rw [hmem]
        constructor
        · rintro ⟨hr, hnot⟩
          rcases h.watermark_of_rewinds hdelivered hrewinds (h.source r hr) hnot with ⟨e, he, hle⟩
          exact (hsettled e he r hle).mp hr
        · intro hr
          rcases h.watermark_of_rewinds hdelivered hrewinds hr.delivered (hlive hr) with
            ⟨e, he, hle⟩
          exact ⟨(hsettled e he r hle).mpr hr, hlive hr⟩
      · intro r hr
        rcases h.watermark_of_rewinds hdelivered hrewinds hr.delivered (hlive hr) with ⟨e, he, hle⟩
        rcases le_lastWatermark h.book.ascending he with ⟨w, hw, hew⟩
        exact .inl ⟨w, hresumed ▸ hw, hle.trans hew⟩

theorem pass_inv (hstep : Pass s s') (h : Inv s) : Inv s' := by
  rcases hstep with ⟨id, ranges, prune, hphase, rfl⟩
  rcases h.busy hphase nofun nofun with ⟨hbusy, hrec, hcontent, hsince⟩
  rcases hcontent with ⟨older, hdelivered, -, htable⟩
  refine h.handled hbusy rfl rfl hrec h.keys h.source ?_ hsince
  intro r
  rw [htable r (by simp [Undoes]), hdelivered]
  simp [LiveRow, RowOf, Undoes]

theorem commit_inv (hstep : Commit s s') (h : Inv s) : Inv s' := by
  rcases hstep with ⟨x, id, hphase, hx, halloc, hid, rfl⟩
  rcases h.busy hphase nofun nofun with ⟨hbusy, hrec, hcontent, hsince⟩
  have hxbook := h.book.session x hx
  refine ⟨commitHandle_book ⟨x, id, hx, halloc, hid, rfl⟩ h.book, h.keys, h.source, ?_, ?_,
    fun _ => ⟨hcontent, hsince⟩, ?_⟩
  · rw [(commit_book hxbook.buffer hxbook.ascending hxbook.prunes).2.1]
    exact h.opened
  · intro x' hx'
    cases hx'
    refine ⟨(h.session x hx).allocated, ?_⟩
    -- the stream is not polled before the commit
    intro event hevent
    exact absurd ((h.session x hx).outbox event hevent).1 hbusy
  · intro hfalse
    exact absurd (hrec.symm.trans hfalse) nofun

theorem crash_inv (hstep : Crash s s') (h : Inv s) : Inv s' := by
  cases hstep
  exact ⟨crash_book rfl h.book, h.keys, h.source, h.opened, nofun, nofun,
    fun _ => ⟨nofun, h.settled⟩⟩

end Steps

/-! ## Runs -/

section Runs

variable {limits : BatchLimits} {retention : Nat} {admits : ResponseBatch (List ρ) → Prop}

theorem init_inv : ∀ s : StreamTask ρ, Init s → Inv s := by
  rintro s rfl
  exact ⟨init_book _ rfl, nodup_nil, nofun, Nat.le_refl _, nofun, nofun, fun _ => ⟨nofun, nofun⟩⟩

theorem step_inv : ∀ s s' : StreamTask ρ, Next limits retention admits s s' → Inv s → Inv s' := by
  rintro s s' ⟨i, -, hstep⟩ h
  cases i with
  | connect => exact connect_inv hstep h
  | respond response => exact respond_inv hstep h
  | allocate => exact allocate_inv hstep h
  | execute => exact execute_inv hstep h
  | take => exact take_inv hstep h
  | prepare current rowBytes => exact prepare_inv hstep h
  | insert lost => exact insert_inv hstep h
  | delete lost => exact delete_inv hstep h
  | pass => exact pass_inv hstep h
  | commit => exact commit_inv hstep h
  | crash => exact crash_inv hstep h

theorem reachable_inv (s : StreamTask ρ) (hs : Reachable Init (Next limits retention admits) s) :
    Inv s :=
  init_invariant Init (Next limits retention admits) Inv init_inv step_inv s hs

/-- No two rows of the table have the same key, and every row is one of a delivered
batch. After the rewind the table holds exactly the rows of the data events that were
not undone and are not above the last persisted watermark or came since; while a
batch is inserted, with a first part of its rows. -/
theorem table_exact (s : StreamTask ρ) (hs : Reachable Init (Next limits retention admits) s) :
    (s.table.map Row.key).Nodup ∧ (∀ r ∈ s.table, DeliveredRow s.client.delivered r) ∧
    (s.recovered = true → ((s.phase = .idle ∨ ∃ id, s.phase = .committing id) →
        ∀ r, r ∈ s.table ↔ LiveRow s.client.delivered r ∧ s.Kept r) ∧
      (∀ event, s.phase = .handling event → ∃ older, s.client.delivered = event :: older ∧
        ∀ r, ¬ Undoes event r → (r ∈ s.table ↔ LiveRow older r ∧ s.Kept r)) ∧
      ∀ id rows size start, s.phase = .inserting id rows size start →
        ∃ batch ranges older k, s.client.delivered = .data id batch ranges :: older ∧
          (∀ r, r ∈ rows ↔ RowOf (.data id batch ranges) r) ∧ start ≤ k ∧
          ∀ r, r ∈ s.table ↔ (LiveRow older r ∧ s.Kept r) ∨ r ∈ rows.take k) := by
  have h := reachable_inv s hs
  refine ⟨h.keys, h.source, ?_⟩
  intro hrec
  rcases h.content hrec with ⟨hcontent, hsince⟩
  refine ⟨?_, ?_, ?_⟩
  · intro hphase r
    have hexact : r ∈ s.table ↔ LiveRow s.client.delivered r := by
      rcases hphase with hphase | ⟨id, hphase⟩
      · rw [hphase] at hcontent
        exact hcontent r
      · rw [hphase] at hcontent
        exact hcontent r
    rw [hexact, and_iff_left_of_imp (hsince r)]
  · intro event hphase
    rw [hphase] at hcontent
    rcases hcontent with ⟨older, hdelivered, -, htable⟩
    refine ⟨older, hdelivered, ?_⟩
    intro r hnot
    rw [htable r hnot, and_iff_left_of_imp]
    intro hlive
    apply hsince
    rw [hdelivered]
    exact .inr ⟨hlive, hnot⟩
  · intro id rows size start hphase
    rw [hphase] at hcontent
    rcases hcontent with ⟨batch, ranges, older, k, hdelivered, -, hof, hstart, htable⟩
    refine ⟨batch, ranges, older, k, hdelivered, hof, hstart, ?_⟩
    intro r
    rw [htable r, and_iff_left_of_imp]
    intro hlive
    apply hsince
    rw [hdelivered]
    exact .inr ⟨hlive, nofun⟩

end Runs

/-! ## A crash between two chunks -/

/-- A response with the rows of a batch. -/
def rowsOf (rows : List Nat) (start stop : Nat) (hash : BlockHash) (prevHash : Option BlockHash) :
    ResponseBatch (List Nat) :=
  ⟨rows, [⟨⟨start, stop⟩, "eth", hash, prevHash⟩], false⟩

/-- The events of blocks 0 to 5 are committed. The task stops after the first chunk of
the next batch, rewinds and receives the batch again. -/
def crashInputs : List (Input Nat) :=
  [.connect, .respond (rowsOf [1, 2] 0 5 5 none), .allocate, .execute, .take, .prepare 0 8,
    .insert false, .commit,
    .respond ⟨[], [⟨⟨0, 5⟩, "eth", 5, none⟩], true⟩, .allocate, .execute, .take, .pass, .commit,
    .respond (rowsOf [3, 4, 5] 6 9 9 (some 5)), .allocate, .execute, .take, .prepare 0 8,
    .insert false, .crash, .connect, .allocate, .execute, .take, .delete false, .commit,
    .respond (rowsOf [3, 4, 5] 6 9 9 (some 5)), .allocate, .execute, .take, .prepare 0 8,
    .insert true, .insert false, .insert false, .commit]

theorem run_reachable {limits : BatchLimits} {retention : Nat} {inputs : List (Input ρ)}
    {s : StreamTask ρ}
    (hrun : CampNode.run (perform limits retention) (fun _ _ => true) initial inputs = some s) :
    Reachable Init (Next limits retention fun _ => True) s := by
  refine Reachable.run ?_ (.init rfl) hrun
  intro a b i _ _ hperform
  exact ⟨i, fun _ _ => trivial, perform_action hperform⟩

theorem table_exact_crash : ∃ s : StreamTask Nat,
    Reachable Init (Next ⟨2, 0⟩ 100 fun _ => True) s ∧ s.recovered = true ∧ s.resumed = some 1 ∧
      s.opened = 3 ∧ s.table = [⟨0, 0, 1⟩, ⟨0, 1, 2⟩, ⟨4, 0, 3⟩, ⟨4, 1, 4⟩, ⟨4, 2, 5⟩] ∧
      ∀ r, r ∈ s.table ↔ LiveRow s.client.delivered r ∧ s.Kept r := by
  obtain ⟨s, hrun, hrec, hresumed, hopened, htable, hphase⟩ :
      ∃ s, CampNode.run (perform ⟨2, 0⟩ 100) (fun _ _ => true) initial crashInputs = some s ∧
        s.recovered = true ∧ s.resumed = some 1 ∧ s.opened = 3 ∧
        s.table = [⟨0, 0, 1⟩, ⟨0, 1, 2⟩, ⟨4, 0, 3⟩, ⟨4, 1, 4⟩, ⟨4, 2, 5⟩] ∧ s.phase = .idle :=
    ⟨_, rfl, rfl, rfl, rfl, rfl, rfl⟩
  have hs := run_reachable hrun
  have hexact := ((table_exact s hs).2.2 hrec).1 (.inl hphase)
  exact ⟨s, hs, hrec, hresumed, hopened, htable, hexact⟩

end StreamTask

end CampNode.Ampsync

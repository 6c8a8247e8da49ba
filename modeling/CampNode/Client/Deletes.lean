import CampNode.Client.Cdc

/-!
# CampNode.Client.Deletes — deletes of a CDC stream are complete

In a careful run (`Cdc.Careful`) every insert that an undo takes back is still in the
batch store, so that its delete reaches the consumer, and what the consumer holds is
live data.

The invariant follows an insert from the moment it is forwarded. Its batch is stored,
or a watermark at or after it is persisted and the batch store was pruned. The data
is live, or it lies above every watermark that is kept and its delete is still to
come: an undo is on its way, the consumer is reading its deletes, or the client has
not rewound yet after a crash.
-/

namespace CampNode

open List Client

variable {β : Type}

namespace Cdc

/-- An undo is on its way to the batch store. -/
def Undoing (s : Cdc β) (range : RangeInclusive) : Prop :=
  (∃ session ∈ s.client.session, ∃ id cause, session.outbox = some (.undo id cause range)) ∨
    ∃ id cause, s.phase = .handling (.undo id cause range)

/-- The delete of an id is still to come. -/
inductive Condemned (s : Cdc β) (id : Nat) : Prop where
  | undoing (range : RangeInclusive) : Undoing s range → range.start ≤ id → id ≤ range.stop →
      Condemned s id
  | deleting (ids : List Nat) : s.phase = .deleting ids → id ∈ ids → Condemned s id
  | crashed : s.client.session = none → Condemned s id
  | rewinding (session : Session β) : s.client.session = some session →
      session.queue = [.rewind] → Condemned s id

/-- The event that is being handled is the last one, it is new to the consumer, and
its handle exists. -/
def Current (s : Cdc β) (event : TransactionEvent β) : Prop :=
  s.client.delivered.head? = some event ∧ (∀ i ∈ net s.log, i.id < event.id) ∧
    ∃ session ∈ s.client.session, event.id ∈ session.handles

def PhaseInv (s : Cdc β) : Phase β → Prop
  | .idle => True
  | .handling event => Current s event
  | .inserting i => Current s (.data i.id i.batch i.ranges) ∧ (i.id, i.batch) ∈ s.batches
  | .deleting ids => ∀ id ∈ ids, ∃ batch, (id, batch) ∈ s.batches

structure Inv (network : String) (s : Cdc β) : Prop where
  book : s.client.Book
  inner : s.client.Inv network
  handles : ∀ id ∈ s.handles, ∃ session ∈ s.client.session, id ∈ session.handles
  polled : s.phase ≠ .idle → ∃ session, s.client.session = some session ∧ session.outbox = none
  rewinding : ∀ session ∈ s.client.session, session.queue = [.rewind] →
    s.phase = .idle ∧ session.outbox = none
  inserted : ∀ i ∈ net s.log, .data i.id i.batch i.ranges ∈ s.client.delivered
  batches : ∀ b ∈ s.batches, ∃ ranges, .data b.1 b.2 ranges ∈ s.client.delivered
  kept : ∀ i ∈ net s.log, (i.id, i.batch) ∈ s.batches ∨
    (∃ e ∈ s.client.store.buffer, i.id ≤ e.1) ∧ ∃ cutoff ∈ cutoffs s.client.delivered, i.id ≤ cutoff
  cut : ∀ range, Undoing s range → ∀ e, s.client.Holds e → e.1 < range.start
  undone : ∀ i ∈ net s.log, (i.id, i.ranges) ∈ live s.client.emitted ∨
    (∀ e, s.client.Holds e → e.1 < i.id) ∧ Condemned s i.id
  ordered : Ordered ((net s.log).map fun i => (i.id, i.ranges))
  phase : PhaseInv s s.phase

/-! ## Consequences -/

section Consequences

variable {network : String} {s : Cdc β} {range : RangeInclusive}

/-- The inserts in the range of an undo are still stored. -/
theorem Inv.stored (h : s.Inv network) (hundoing : Undoing s range) {i : Inserted β}
    (hi : i ∈ net s.log) (hstart : range.start ≤ i.id) :
    (i.id, i.batch) ∈ s.batches := by
  rcases h.kept i hi with hmem | ⟨⟨e, he, hle⟩, -⟩
  · exact hmem
  · have := h.cut range hundoing e (.inl he)
    omega

variable {id : Nat}

theorem mem_seek {batches : Batches β} : id ∈ batches.seek range ↔
      (∃ batch, (id, batch) ∈ batches) ∧ range.start ≤ id ∧ id ≤ range.stop := by
  unfold Batches.seek
  simp only [mem_map, mem_filter, Bool.and_eq_true, decide_eq_true_eq, Prod.exists,
    exists_and_right, exists_eq_right]

/-- Two data events of one id are the same. -/
theorem data_unique {events : List (TransactionEvent β)} {a b : β} {ra rb : List BlockRange}
    (hids : events.Pairwise fun later earlier => earlier.id < later.id)
    (ha : .data id a ra ∈ events) (hb : .data id b rb ∈ events) : a = b ∧ ra = rb := by
  have hnodup : (events.map TransactionEvent.id).Nodup :=
    pairwise_map.mpr (hids.imp fun hlt => (Nat.ne_of_lt hlt).symm)
  have heq := inj_on_of_nodup_map hnodup ha hb rfl
  exact ⟨(TransactionEvent.data.inj heq).2.1, (TransactionEvent.data.inj heq).2.2⟩

section

variable (h : s.Inv network)
include h

theorem Inv.ids : s.client.delivered.Pairwise fun later earlier => earlier.id < later.id :=
  (pairwise_append.mp h.book.ids).2.1

/-- A stored batch is found under its id. -/
theorem Inv.load {batch : β} (hmem : (id, batch) ∈ s.batches) : s.batches.load id = some batch := by
  unfold Batches.load
  cases hfind : s.batches.find? (·.1 == id) with
  | none =>
    have := find?_eq_none.mp hfind (id, batch) hmem
    simp at this
  | some b =>
    have hid : b.1 = id := by simpa using find?_some hfind
    rcases h.batches b (mem_of_find?_eq_some hfind) with ⟨rb, hb⟩
    rcases h.batches (id, batch) hmem with ⟨ra, ha⟩
    rw [hid] at hb
    have heq : batch = b.2 := (data_unique h.ids ha hb).1
    rw [heq]
    rfl

/-- While the stream is busy, deletes are still to come only from the undo that it
handles or from the iterator that the consumer reads. -/
theorem Inv.condemned_cases (hbusy : s.phase ≠ .idle) (hcondemned : Condemned s id) :
    (∃ u cause range, s.phase = .handling (.undo u cause range) ∧ range.start ≤ id ∧
      id ≤ range.stop) ∨ ∃ ids, s.phase = .deleting ids ∧ id ∈ ids := by
  rcases h.polled hbusy with ⟨session, hsession, hout⟩
  cases hcondemned with
  | undoing range hundoing hstart hstop =>
    rcases hundoing with ⟨session', hs', u, cause, hundo⟩ | ⟨u, cause, hundo⟩
    · rw [hsession] at hs'
      cases hs'
      rw [hout] at hundo
      cases hundo
    · exact .inl ⟨u, cause, range, hundo, hstart, hstop⟩
  | deleting ids hdeleting hmem => exact .inr ⟨ids, hdeleting, hmem⟩
  | crashed hnone =>
    rw [hsession] at hnone
    cases hnone
  | rewinding session' hs' hqueue => exact absurd (h.rewinding session' hs' hqueue).1 hbusy

/-- While the consumer reads deletes from the iterator, no others are still to come. -/
theorem Inv.mem_of_deleting {ids : List Nat} (hphase : s.phase = .deleting ids)
    (hcondemned : Condemned s id) : id ∈ ids := by
  rcases h.condemned_cases (by simp [hphase]) hcondemned with
    ⟨_, _, _, hundo, -⟩ | ⟨ids', hdel, hmem⟩
  · rw [hphase] at hundo
    cases hundo
  · rw [hphase] at hdel
    cases hdel
    exact hmem

/-- While an insert is handed out, no delete is still to come. -/
theorem Inv.not_condemned {i : Inserted β} (hphase : s.phase = .inserting i)
    (id : Nat) : ¬ Condemned s id := by
  intro hcondemned
  rcases h.condemned_cases (by simp [hphase]) hcondemned with ⟨_, _, _, hundo, -⟩ | ⟨_, hdel, -⟩
  · rw [hphase] at hundo
    cases hundo
  · rw [hphase] at hdel
    cases hdel

/-- While an event is handled none is on its way. -/
theorem Inv.emitted_eq (hphase : s.phase ≠ .idle) : s.client.emitted = s.client.delivered := by
  rcases h.polled hphase with ⟨session, hsession, hout⟩
  simp [emitted, hsession, hout]

theorem Inv.consistent : Consistent s := by
  refine ⟨?_, ?_, h.ordered⟩
  · intro id cause range hphase i hi hstart hstop
    have hmem := h.stored (.inr ⟨id, cause, hphase⟩) hi hstart
    exact ⟨mem_seek.mpr ⟨⟨i.batch, hmem⟩, hstart, hstop⟩, h.load hmem⟩
  · intro i hphase j hj
    rw [← h.emitted_eq (by simp [hphase])]
    rcases h.undone j hj with hlive | ⟨-, hcondemned⟩
    · exact hlive
    · exact absurd hcondemned (h.not_condemned hphase j.id)

end

end Consequences

/-! ## Steps of the stream itself -/

section OwnSteps

variable {network : String} {s s' : Cdc β}

/-- A step of a busy stream that leaves the transactional stream alone. -/
theorem Inv.own (h : s.Inv network) (hbusy : s.phase ≠ .idle) (hclient : s'.client = s.client)
    (hundo : ∀ id cause range, s'.phase ≠ .handling (.undo id cause range))
    (hhandles : ∀ id ∈ s'.handles, ∃ session ∈ s.client.session, id ∈ session.handles)
    (hinserted : ∀ i ∈ net s'.log, .data i.id i.batch i.ranges ∈ s.client.delivered)
    (hbatches : ∀ b ∈ s'.batches, ∃ ranges, .data b.1 b.2 ranges ∈ s.client.delivered)
    (hkept : ∀ i ∈ net s'.log, (i.id, i.batch) ∈ s'.batches ∨
      (∃ e ∈ s.client.store.buffer, i.id ≤ e.1) ∧
        ∃ cutoff ∈ cutoffs s.client.delivered, i.id ≤ cutoff)
    (hundone : ∀ i ∈ net s'.log, (i.id, i.ranges) ∈ live s.client.emitted ∨
      (∀ e, s.client.Holds e → e.1 < i.id) ∧ Condemned s' i.id)
    (hordered : Ordered ((net s'.log).map fun i => (i.id, i.ranges)))
    (hphase : PhaseInv s' s'.phase) : s'.Inv network := by
  rw [← hclient] at hhandles hinserted hbatches hkept hundone
  refine ⟨?_, ?_, hhandles, ?_, ?_, hinserted, hbatches, hkept, ?_, hundone, hordered, hphase⟩
  · rw [hclient]
    exact h.book
  · rw [hclient]
    exact h.inner
  · intro _
    rw [hclient]
    exact h.polled hbusy
  · intro session hs hqueue
    rw [hclient] at hs
    exact absurd (h.rewinding session hs hqueue).1 hbusy
  · rintro range (hout | ⟨id, cause, hphase⟩)
    · rw [hclient] at hout ⊢
      exact h.cut range (.inl hout)
    · exact absurd hphase (hundo id cause range)

/-- The consumer holds only live data while data or a watermark is handled. -/
theorem Inv.live_of_handling (h : s.Inv network) {event : TransactionEvent β}
    (hphase : s.phase = .handling event) (hundo : ∀ id cause range, event ≠ .undo id cause range) :
    ∀ i ∈ net s.log, (i.id, i.ranges) ∈ live s.client.emitted := by
  intro i hi
  rcases h.undone i hi with hlive | ⟨-, hcondemned⟩
  · exact hlive
  rcases h.condemned_cases (by simp [hphase]) hcondemned with ⟨u, cause, range, hu, -⟩ | ⟨_, hdel, -⟩
  · rw [hphase] at hu
    exact absurd (Phase.handling.inj hu) (hundo u cause range)
  · rw [hphase] at hdel
    cases hdel

theorem Inv.current (h : s.Inv network) {event : TransactionEvent β}
    (hphase : s.phase = .handling event) : Current s event := by
  have := h.phase
  rw [hphase] at this
  exact this

theorem append_inv (hstep : Append s s') (h : s.Inv network) : s'.Inv network := by
  rcases hstep with ⟨id, batch, ranges, hphase, rfl⟩
  have hcurrent := h.current hphase
  refine h.own (by simp [hphase]) rfl (by simp) h.handles h.inserted ?_ ?_ ?_ h.ordered ?_
  · intro b hb
    rcases mem_append.mp hb with hb | hb
    · exact h.batches b (mem_of_mem_filter hb)
    · rw [mem_singleton.mp hb]
      exact ⟨ranges, mem_of_mem_head? hcurrent.1⟩
  · intro i hi
    rcases h.kept i hi with hmem | hpruned
    · refine .inl (mem_append_left _ (mem_filter.mpr ⟨hmem, ?_⟩))
      exact bne_iff_ne.mpr (Nat.ne_of_lt (hcurrent.2.1 i hi))
    · exact .inr hpruned
  · exact fun i hi => .inl (h.live_of_handling hphase nofun i hi)
  · exact ⟨hcurrent, mem_append_right _ mem_cons_self⟩

theorem insert_inv (hstep : Insert s s') (h : s.Inv network) : s'.Inv network := by
  rcases hstep with ⟨i, hphase, rfl⟩
  have hbusy : s.phase ≠ .idle := by simp [hphase]
  have hphaseInv := h.phase
  rw [hphase] at hphaseInv
  rcases hphaseInv with ⟨⟨hhead, hnew, hhandle⟩, hstored⟩
  have hfresh : ∀ j ∈ net s.log, (j.id, j.ranges) ∈ live s.client.emitted := by
    intro j hj
    rcases h.undone j hj with hlive | ⟨-, hcondemned⟩
    · exact hlive
    · exact absurd hcondemned (h.not_condemned hphase j.id)
  rcases head?_eq_some_iff.mp hhead with ⟨older, holder⟩
  have hemitted : s.client.emitted = .data i.id i.batch i.ranges :: older := by
    rw [h.emitted_eq hbusy, holder]
  refine h.own hbusy rfl (by simp) ?_ ?_ h.batches ?_ ?_ ?_ trivial
  · intro id hid
    rcases mem_cons.mp hid with rfl | hid
    · exact hhandle
    · exact h.handles id hid
  · intro j hj
    rcases mem_cons.mp hj with rfl | hj
    · exact mem_of_mem_head? hhead
    · exact h.inserted j hj
  · intro j hj
    rcases mem_cons.mp hj with rfl | hj
    · exact .inl hstored
    · exact h.kept j hj
  · intro j hj
    rcases mem_cons.mp hj with rfl | hj
    · refine .inl ?_
      rw [hemitted]
      exact mem_cons_self
    · exact .inl (hfresh j hj)
  · -- everything the consumer holds is live, and live data is ordered
    refine pairwise_cons.mpr ⟨?_, h.ordered⟩
    intro d hd
    rcases mem_map.mp hd with ⟨j, hj, rfl⟩
    have hlive := hfresh j hj
    have hpending := h.inner.pending
    rw [hemitted] at hlive hpending
    have hlt : j.id < i.id := hnew j hj
    rcases mem_cons.mp hlive with heq | hlive
    · have : j.id = i.id := congrArg Prod.fst heq
      omega
    · exact (pairwise_cons.mp hpending).1 _ hlive

theorem seek_inv (hstep : Seek s s') (h : s.Inv network) : s'.Inv network := by
  rcases hstep with ⟨id, cause, range, hphase, rfl⟩
  have hbusy : s.phase ≠ .idle := by simp [hphase]
  have hcurrent := h.current hphase
  -- the deletes that are still to come are those of the range
  have hcondemned : ∀ i ∈ net s.log, Condemned s i.id → i.id ∈ s.batches.seek range := by
    intro i hi hc
    rcases h.condemned_cases hbusy hc with ⟨_, _, _, hundo, hstart, hstop⟩ | ⟨_, hdel, -⟩
    · rw [hphase] at hundo
      cases hundo
      have hmem := h.stored (.inr ⟨id, cause, hphase⟩) hi hstart
      exact mem_seek.mpr ⟨⟨i.batch, hmem⟩, hstart, hstop⟩
    · rw [hphase] at hdel
      cases hdel
  split
  · rename_i hempty
    refine h.own hbusy rfl (by simp) h.handles h.inserted h.batches h.kept ?_ h.ordered trivial
    intro i hi
    rcases h.undone i hi with hlive | ⟨-, hc⟩
    · exact .inl hlive
    · have := hcondemned i hi hc
      rw [isEmpty_iff.mp hempty] at this
      cases this
  · refine h.own hbusy rfl (by simp) ?_ h.inserted h.batches h.kept ?_ h.ordered ?_
    · intro id' hid
      rcases mem_cons.mp hid with rfl | hid
      · exact hcurrent.2.2
      · exact h.handles id' hid
    · intro i hi
      rcases h.undone i hi with hlive | ⟨howed, hc⟩
      · exact .inl hlive
      · exact .inr ⟨howed, .deleting _ rfl (hcondemned i hi hc)⟩
    · intro id' hid
      exact (mem_seek.mp hid).1

theorem load_inv (hstep : Load s s') (h : s.Inv network) : s'.Inv network := by
  rcases hstep with ⟨id, rest, hphase, rfl⟩
  have hbusy : s.phase ≠ .idle := by simp [hphase]
  have hids : ∀ id' ∈ id :: rest, ∃ batch, (id', batch) ∈ s.batches := by
    have := h.phase
    rw [hphase] at this
    exact this
  rcases hids id mem_cons_self with ⟨batch, hbatch⟩
  rw [h.load hbatch]
  have hsub : ∀ i ∈ net (.delete id batch :: s.log), i ∈ net s.log ∧ i.id ≠ id := by
    intro i hi
    rcases mem_filter.mp hi with ⟨hi, hne⟩
    exact ⟨hi, bne_iff_ne.mp hne⟩
  refine h.own hbusy rfl (by simp) h.handles (fun i hi => h.inserted i (hsub i hi).1) h.batches
    (fun i hi => h.kept i (hsub i hi).1) ?_ ?_ (fun id' hid => hids id' (mem_cons_of_mem _ hid))
  · intro i hi
    rcases hsub i hi with ⟨hi, hne⟩
    rcases h.undone i hi with hlive | ⟨howed, hc⟩
    · exact .inl hlive
    · have hmem := h.mem_of_deleting hphase hc
      exact .inr ⟨howed, .deleting rest rfl ((mem_cons.mp hmem).resolve_left hne)⟩
  · exact h.ordered.sublist (filter_sublist.map _)

theorem finish_inv (hstep : Finish s s') (h : s.Inv network) : s'.Inv network := by
  rcases hstep with ⟨hphase, rfl⟩
  have hbusy : s.phase ≠ .idle := by simp [hphase]
  refine h.own hbusy rfl (by simp) h.handles h.inserted h.batches h.kept ?_ h.ordered trivial
  intro i hi
  rcases h.undone i hi with hlive | ⟨-, hc⟩
  · exact .inl hlive
  · -- the iterator is at its end
    cases h.mem_of_deleting hphase hc

theorem prune_inv (hstep : Prune s s') (hallowed : (Input.prune : Input β).Allowed s)
    (h : s.Inv network) : s'.Inv network := by
  rcases hstep with ⟨id, ranges, cutoff, hphase, rfl⟩
  have hcutoff : cutoff ∈ cutoffs s.client.delivered :=
    mem_filterMap.mpr ⟨_, mem_of_mem_head? (h.current hphase).1, rfl⟩
  rcases hallowed cutoff (by simp [hphase, Phase.cutoff]) with ⟨e, he, hle⟩
  refine h.own (by simp [hphase]) rfl (by simp) h.handles h.inserted
    (fun b hb => h.batches b (mem_of_mem_filter hb)) ?_
    (fun i hi => .inl (h.live_of_handling hphase nofun i hi)) h.ordered trivial
  intro i hi
  rcases h.kept i hi with hmem | hpruned
  · by_cases hlt : cutoff < i.id
    · exact .inl (mem_filter.mpr ⟨hmem, decide_eq_true hlt⟩)
    · exact .inr ⟨⟨e, he, by omega⟩, cutoff, hcutoff, by omega⟩
  · exact .inr hpruned

theorem pass_inv (hstep : Pass s s') (h : s.Inv network) : s'.Inv network := by
  rcases hstep with ⟨id, ranges, cutoff, hphase, rfl⟩
  exact h.own (by simp [hphase]) rfl (by simp) h.handles h.inserted h.batches h.kept
    (fun i hi => .inl (h.live_of_handling hphase nofun i hi)) h.ordered trivial

end OwnSteps

/-! ## Steps of the transactional stream -/

section ClientSteps

variable {network : String} {s s' : Cdc β} {c : Client β}

/-- A step of the transactional stream that changes neither the event on its way nor
the handles, and neither asks for a rewind nor executes one. -/
theorem Inv.quiet {session session' : Session β} (h : s.Inv network) (hbook : c.Book)
    (hinner : c.Inv network) (hquiet : Client.Quiet s.client c)
    (hdelivered : c.delivered = s.client.delivered)
    (hgrows : ∀ e ∈ s.client.store.buffer, ∃ e' ∈ c.store.buffer, e.1 ≤ e'.1)
    (hs : s.client.session = some session) (hs' : c.session = some session')
    (hout : session'.outbox = session.outbox) (hhandles : session'.handles = session.handles)
    (hqueue : session'.queue = [.rewind] ↔ session.queue = [.rewind]) :
    Inv network { s with client := c } := by
  have hhandle : ∀ {id}, (∃ x ∈ s.client.session, id ∈ x.handles) →
      ∃ x ∈ c.session, id ∈ x.handles := by
    rintro id ⟨x, hx, hid⟩
    rw [hs] at hx
    cases hx
    rw [← hhandles] at hid
    exact ⟨session', hs', hid⟩
  have hcurrent : ∀ {event}, Current s event → Current { s with client := c } event := by
    rintro event ⟨hhead, hnew, hid⟩
    refine ⟨?_, hnew, hhandle hid⟩
    rw [hdelivered]
    exact hhead
  have hundoing : ∀ range, Undoing { s with client := c } range ↔ Undoing s range := by
    intro range
    unfold Undoing
    simp only [hs, hs', Option.mem_some_iff, exists_eq_left', hout]
  refine ⟨hbook, hinner, fun id hid => hhandle (h.handles id hid), ?_, ?_, ?_, ?_, ?_, ?_, ?_,
    h.ordered, ?_⟩
  · intro hbusy
    rcases h.polled hbusy with ⟨x, hx, hnone⟩
    rw [hs] at hx
    cases hx
    exact ⟨session', hs', hout.trans hnone⟩
  · intro x hx hq
    have hx' : some session' = some x := hs'.symm.trans hx
    cases hx'
    rw [hout]
    exact h.rewinding session hs (hqueue.mp hq)
  · intro i hi
    rw [hdelivered]
    exact h.inserted i hi
  · intro b hb
    rw [hdelivered]
    exact h.batches b hb
  · intro i hi
    refine (h.kept i hi).imp_right ?_
    rintro ⟨⟨e, he, hle⟩, hcutoff⟩
    rcases hgrows e he with ⟨e', he', hle'⟩
    refine ⟨⟨e', he', by omega⟩, ?_⟩
    rw [hdelivered]
    exact hcutoff
  · intro range hrange e he
    exact h.cut range ((hundoing range).mp hrange) e (hquiet.holds e he)
  · intro i hi
    rw [hquiet.emitted]
    refine (h.undone i hi).imp_right (And.imp (fun howed e he => howed e (hquiet.holds e he)) ?_)
    intro hcondemned
    cases hcondemned with
    | undoing range hrange hstart hstop =>
      exact .undoing range ((hundoing range).mpr hrange) hstart hstop
    | deleting ids hdel hmem => exact .deleting ids hdel hmem
    | crashed hnone =>
      rw [hs] at hnone
      cases hnone
    | rewinding x hx hq =>
      rw [hs] at hx
      cases hx
      exact .rewinding session' hs' (hqueue.mpr hq)
  · have hphase := h.phase
    cases hp : s.phase with
    | idle => trivial
    | handling event =>
      rw [hp] at hphase
      exact hcurrent hphase
    | inserting i =>
      rw [hp] at hphase
      exact ⟨hcurrent hphase.1, hphase.2⟩
    | deleting ids =>
      rw [hp] at hphase
      exact hphase

theorem connect_inv (hstep : Polls Client.Connect s s') (h : s.Inv network) : s'.Inv network := by
  rcases hstep with ⟨hidle, c, hc, rfl⟩
  have hquiet := connect_quiet hc
  have hbook := connect_book hc h.book
  have hinner := connect_inv hc h.book h.inner
  rcases hc with ⟨hnone, rfl⟩
  refine ⟨hbook, hinner, ?_, fun hbusy => absurd hidle hbusy, ?_, h.inserted, h.batches, h.kept, ?_,
    ?_, h.ordered, by rw [hidle]; trivial⟩
  · intro id hid
    rcases h.handles id hid with ⟨x, hx, -⟩
    rw [hnone] at hx
    cases hx
  · rintro x ⟨⟩ -
    exact ⟨hidle, rfl⟩
  · rintro range (⟨x, ⟨⟩, _, _, hundo⟩ | ⟨_, _, hundo⟩)
    · cases hundo
    · rw [show s.phase = _ from hidle] at hundo
      cases hundo
  intro i hi
  rw [hquiet.emitted]
  refine (h.undone i hi).imp_right ?_
  rintro ⟨howed, -⟩
  refine ⟨fun e he => howed e (hquiet.holds e he), ?_⟩
  by_cases hrewind : needsRewind s.client.store = true
  · exact .rewinding _ rfl (by simp [openSession, hrewind])
  -- no id was used after the last watermark, so the insert is not above it
  exfalso
  have hlt := h.book.fresh _ (mem_append_right _ (h.inserted i hi))
  have hid : i.id < s.client.store.next := hlt
  cases hlast : s.client.store.buffer.getLast? with
  | none =>
    have hzero : s.client.store.next = 0 := by simpa [needsRewind, hlast] using hrewind
    omega
  | some last =>
    have hnext : s.client.store.next ≤ last.1 + 1 := by
      simpa [needsRewind, hlast] using hrewind
    have := howed last (.inl (mem_of_mem_getLast? hlast))
    omega

theorem respond_inv {response : ResponseBatch β} (hresponse : SingleNetwork network response)
    (hstep : Polls (Client.Respond response) s s') (h : s.Inv network) : s'.Inv network := by
  rcases hstep with ⟨-, c, hc, rfl⟩
  have hquiet := respond_quiet hc
  have hbook := respond_book hc h.book
  have hinner := respond_inv hresponse hc h.inner
  rcases hc with ⟨session, hs, -, hqueue, -, -, hc'⟩
  split at hc'
  · subst hc'
    exact h.quiet hbook hinner hquiet rfl (fun e he => ⟨e, he, Nat.le_refl _⟩) hs rfl rfl rfl Iff.rfl
  subst hc'
  refine h.quiet hbook hinner hquiet rfl (fun e he => ⟨e, he, Nat.le_refl _⟩) hs rfl rfl rfl ?_
  rw [hqueue]
  constructor
  · -- a response never asks for a rewind
    intro hq
    rcases map_eq_singleton_iff.mp hq with ⟨m, -, hm⟩
    cases hm
  · intro hq
    cases hq

theorem allocate_inv (hstep : Polls Client.Allocate s s') (h : s.Inv network) : s'.Inv network := by
  rcases hstep with ⟨-, c, hc, rfl⟩
  have hquiet := allocate_quiet hc
  have hbook := allocate_book hc h.book
  have hinner := allocate_inv hc h.inner
  rcases hc with ⟨session, hs, -, -, -, -, rfl⟩
  exact h.quiet hbook hinner hquiet rfl (fun e he => ⟨e, he, Nat.le_refl _⟩) hs rfl rfl rfl Iff.rfl

theorem commit_inv {id : Nat} (hstep : Commit id s s') (h : s.Inv network) : s'.Inv network := by
  rcases hstep with ⟨session, hs, halloc, hid, rfl⟩
  have hhandle : id ∈ session.handles := by
    rcases h.handles id hid with ⟨x, hx, hidx⟩
    rw [hs] at hx
    cases hx
    exact hidx
  have hcommit : Client.CommitHandle s.client _ := ⟨session, id, hs, halloc, hhandle, rfl⟩
  have hsbook := h.book.session session hs
  refine h.quiet (commitHandle_book hcommit h.book)
    (commitHandle_inv hcommit h.book h.inner) (commitHandle_quiet hcommit h.book) rfl
    ?_ hs rfl rfl rfl Iff.rfl
  intro e he
  exact commit_grows hsbook.buffer hsbook.ascending hsbook.prunes he

theorem take_inv (hstep : Take s s') (h : s.Inv network) : s'.Inv network := by
  rcases hstep with ⟨hidle, session, event, c, hs, hout, hc, rfl⟩
  have hquiet := deliver_quiet hc
  have hbook := deliver_book hc h.book
  have hinner := deliver_inv hc h.inner
  rcases hc with ⟨session', event', hs', hout', rfl⟩
  rw [hs] at hs'
  cases hs'
  rw [hout] at hout'
  cases hout'
  have hemitted : s.client.emitted = event :: s.client.delivered := by
    simp [emitted, hs, hout]
  refine ⟨hbook, hinner, ?_, fun _ => ⟨_, rfl, rfl⟩, ?_, ?_, ?_, ?_, ?_, ?_, h.ordered, ?_⟩
  · intro id hid
    rcases h.handles id hid with ⟨x, hx, hidx⟩
    rw [hs] at hx
    cases hx
    exact ⟨_, rfl, mem_cons_of_mem _ hidx⟩
  · rintro x ⟨⟩ hqueue
    have := (h.rewinding session hs hqueue).2
    rw [hout] at this
    cases this
  · intro i hi
    exact mem_cons_of_mem _ (h.inserted i hi)
  · intro b hb
    rcases h.batches b hb with ⟨ranges, hdata⟩
    exact ⟨ranges, mem_cons_of_mem _ hdata⟩
  · intro i hi
    refine (h.kept i hi).imp_right (And.imp_right ?_)
    rintro ⟨cutoff, hcutoff, hle⟩
    rcases mem_filterMap.mp hcutoff with ⟨x, hx, hxcutoff⟩
    exact ⟨cutoff, mem_filterMap.mpr ⟨x, mem_cons_of_mem _ hx, hxcutoff⟩, hle⟩
  · rintro range hrange e he
    refine h.cut range ?_ e (hquiet.holds e he)
    rcases hrange with ⟨x, ⟨⟩, _, _, hundo⟩ | ⟨id, cause, hundo⟩
    · cases hundo
    · cases hundo
      exact .inl ⟨session, hs, id, cause, hout⟩
  · intro i hi
    rw [hquiet.emitted]
    refine (h.undone i hi).imp_right (And.imp (fun howed e he => howed e (hquiet.holds e he)) ?_)
    intro hcondemned
    cases hcondemned with
    | undoing range hrange hstart hstop =>
      refine .undoing range (.inr ?_) hstart hstop
      rcases hrange with ⟨x, hx, id, cause, hundo⟩ | ⟨id, cause, hundo⟩
      · rw [hs] at hx
        cases hx
        rw [hout] at hundo
        cases hundo
        exact ⟨id, cause, rfl⟩
      · rw [hidle] at hundo
        cases hundo
    | deleting ids hdel =>
      rw [hidle] at hdel
      cases hdel
    | crashed hnone =>
      rw [hs] at hnone
      cases hnone
    | rewinding x hx hqueue =>
      have := (h.rewinding x hx hqueue).2
      rw [hs] at hx
      cases hx
      rw [hout] at this
      cases this
  · refine ⟨rfl, ?_, _, rfl, mem_cons_self⟩
    intro i hi
    have hids := h.book.ids
    rw [hemitted] at hids
    exact (pairwise_cons.mp hids).1 _ (h.inserted i hi)

theorem crash_inv (hstep : Crash s s') (h : s.Inv network) : s'.Inv network := by
  cases hstep
  have hcrash : Client.Crash s.client { s.client with session := none } := rfl
  refine ⟨crash_book hcrash h.book, crash_inv hcrash h.inner, nofun,
    fun hbusy => absurd rfl hbusy, by simp, h.inserted, h.batches, h.kept, ?_, ?_, h.ordered, trivial⟩
  · rintro range (⟨x, hx, -⟩ | ⟨_, _, hundo⟩)
    · cases hx
    · cases hundo
  intro i hi
  rcases h.undone i hi with hlive | ⟨howed, -⟩
  · -- the event that is lost is later than everything the consumer holds
    refine .inl ?_
    unfold emitted at hlive
    have hids := h.book.ids
    unfold emitted at hids
    cases hout : s.client.session.bind (·.outbox) with
    | none =>
      rw [hout] at hlive
      exact hlive
    | some event =>
      rw [hout] at hlive hids
      rcases mem_live_cons hlive with hlive | hid
      · exact hlive
      · have hlt : i.id < event.id := (pairwise_cons.mp hids).1 _ (h.inserted i hi)
        omega
  · refine .inr ⟨?_, .crashed rfl⟩
    rintro e (he | ⟨x, hx, -⟩)
    · exact howed e (.inl he)
    · cases hx

variable {session : Session β} {action : StreamAction β} {rest : List (StreamAction β)}

/-- Only a reorg truncates, and it keeps a persisted watermark at or after everything
up to its recovery point. -/
theorem stored_after {retention id n : Nat} {done : Executed β}
    (hbook : Client.SessionBook c session) (hs : c.session = some session)
    (hqueue : session.queue = action :: rest)
    (hdone : session.container.execute retention id action = .ok done)
    (hrecovery : ∀ e ∈ recovery c, n ≤ e.1) (hstored : ∃ e ∈ c.store.buffer, n ≤ e.1) :
    ∃ e ∈ (c.store.after done).buffer, n ≤ e.1 := by
  rcases hstored with ⟨e, he, hle⟩
  unfold StateSnapshot.after
  cases action with
  | rewind =>
    cases hdone
    exact ⟨e, he, hle⟩
  | message m =>
    cases m with
    | data batch ranges =>
      cases hdone
      exact ⟨e, he, hle⟩
    | watermark ranges =>
      rcases executeWatermark_ok hdone with ⟨prune, -, rfl⟩
      exact ⟨e, he, hle⟩
    | reorg old incoming invalidation =>
      rcases executeReorg_ok hdone with ⟨e₀, hfound, -, htruncate, -⟩ | ⟨hnil, -⟩
      · rw [htruncate]
        have hn : n ≤ e₀.1 := hrecovery e₀ (by simp [recovery, hs, hqueue, hfound])
        by_cases hcut : e.1 < e₀.1 + 1
        · exact ⟨e, mem_filter.mpr ⟨he, decide_eq_true hcut⟩, hle⟩
        -- the recovery point is before a persisted watermark, so it is persisted
        have hmem := (findRecoveryPoint_some hfound).1
        have hasc := hbook.ascending
        rw [hbook.buffer] at hmem hasc
        rcases mem_append.mp hmem with hmem | hmem
        · exact ⟨e₀, mem_filter.mpr ⟨hmem, decide_eq_true (Nat.lt_succ_self _)⟩, hn⟩
        · have := (pairwise_append.mp hasc).2.2 e he e₀ hmem
          omega
      · have hempty := hbook.buffer
        rw [hnil] at hempty
        rw [(append_eq_nil_iff.mp hempty.symm).1] at he
        cases he

/-- While an action is executed deletes are still to come only if it is the rewind. -/
theorem Condemned.rewind {id : Nat} (h : Condemned s id) (hidle : s.phase = .idle)
    (hs : s.client.session = some session) (hout : session.outbox = none)
    (hqueue : session.queue = action :: rest) : action = .rewind := by
  cases h with
  | undoing range hundoing =>
    rcases hundoing with ⟨x, hx, _, _, hundo⟩ | ⟨_, _, hundo⟩
    · rw [hs] at hx
      cases hx
      rw [hout] at hundo
      cases hundo
    · rw [hidle] at hundo
      cases hundo
  | deleting ids hdel =>
    rw [hidle] at hdel
    cases hdel
  | crashed hnone =>
    rw [hs] at hnone
    cases hnone
  | rewinding x hx hq =>
    rw [hs] at hx
    cases hx
    rw [hqueue] at hq
    exact (cons.inj hq).1

/-- A rewind is the first action of a connection. -/
theorem rest_ne_rewind (hstage : Stage network c session) (hqueue : session.queue = action :: rest) :
    rest ≠ [.rewind] := by
  rintro rfl
  cases hstage with
  | ready hq => simp [hqueue] at hq
  | message m hq => simp [hqueue] at hq
  | reorg old q stop m hq => simp [hqueue] at hq
  | rewind hq => simp [hqueue] at hq

/-- What an executed action leaves of an insert: it is live, or its delete is still to
come. -/
theorem executed_undone {retention id : Nat} {done : Executed β} {i : Inserted β}
    (h : s.Inv network) (hidle : s.phase = .idle) (hs : s.client.session = some session)
    (halloc : session.allocated = some id) (hqueue : session.queue = action :: rest)
    (hdone : session.container.execute retention id action = .ok done) (hi : i ∈ net s.log)
    (hcut : ∀ {u cause range}, done.event = .undo u cause range →
      ∀ e, (s.client.executed session rest done).Holds e → e.1 < range.start) :
    (i.id, i.ranges) ∈ live (done.event :: s.client.delivered) ∨
      (∀ e, (s.client.executed session rest done).Holds e → e.1 < i.id) ∧
        Condemned { s with client := s.client.executed session rest done } i.id := by
  have hsbook := h.book.session session hs
  rcases hsbook.allocated id halloc with ⟨-, hout, hids, -⟩
  have hid : i.id < id := hids _ (h.inserted i hi)
  have hundone := h.undone i hi
  have hemitted : s.client.emitted = s.client.delivered := by simp [emitted, hs, hout]
  rw [hemitted] at hundone
  cases hevent : done.event with
  | data u batch ranges =>
    rcases hundone with hlive | ⟨-, hc⟩
    · exact .inl (mem_cons_of_mem _ hlive)
    · cases hc.rewind hidle hs hout hqueue
      cases hdone
      cases hevent
  | watermark u ranges prune =>
    rcases hundone with hlive | ⟨-, hc⟩
    · exact .inl hlive
    · cases hc.rewind hidle hs hout hqueue
      cases hdone
      cases hevent
  | undo u cause range =>
    rcases execute_undo hdone hevent hsbook.ascending with ⟨hstop, -, habove⟩
    -- an insert in the range is above the watermarks that remain
    have hinside : range.start ≤ i.id →
        (∀ e, (s.client.executed session rest done).Holds e → e.1 < i.id) ∧
          Condemned { s with client := s.client.executed session rest done } i.id := by
      intro hstart
      refine ⟨fun e he => (hcut hevent e he).trans_le hstart, ?_⟩
      exact .undoing range (.inl ⟨_, rfl, u, cause, congrArg some hevent⟩) hstart (by omega)
    rcases hundone with hlive | ⟨howed, hc⟩
    · by_cases hstart : range.start ≤ i.id
      · exact .inr (hinside hstart)
      · refine .inl (mem_filter.mpr ⟨hlive, ?_⟩)
        simp [hstart]
    · refine .inr (hinside (habove (hc.rewind hidle hs hout hqueue) i.id ?_))
      intro e he
      exact howed e (.inr ⟨session, hs, he⟩)

theorem execute_inv {retention : Nat} (hstep : Polls (Client.Execute retention) s s')
    (hallowed : (Input.execute : Input β).Allowed s) (h : s.Inv network) : s'.Inv network := by
  rcases hstep with ⟨hidle, c, hc, rfl⟩
  have hbook := execute_inv_book hc h.book
  have hinner := execute_inv hc h.book h.inner
  rcases execute_inversion hc with
    ⟨session, id, action, rest, hs, hfailed, halloc, hqueue, rfl | ⟨done, hdone, rfl⟩⟩
  · exact h.quiet hbook hinner (.session hs rfl rfl rfl rfl rfl) rfl
      (fun e he => ⟨e, he, Nat.le_refl _⟩) hs rfl rfl rfl Iff.rfl
  have hsbook := h.book.session session hs
  have hcut : ∀ {u cause range}, done.event = .undo u cause range →
      ∀ e, (s.client.executed session rest done).Holds e → e.1 < range.start := by
    rintro u cause range hundo e (he | ⟨x, ⟨⟩, he⟩)
    · exact kept_before_undo hdone hundo hsbook.buffer hsbook.ascending (.inl he)
    · exact kept_before_undo hdone hundo hsbook.buffer hsbook.ascending (.inr he)
  refine ⟨hbook, hinner, ?_, fun hbusy => absurd hidle hbusy, ?_, h.inserted, h.batches, ?_, ?_, ?_,
    h.ordered, by rw [hidle]; trivial⟩
  · intro id' hid
    rcases h.handles id' hid with ⟨x, hx, hidx⟩
    rw [hs] at hx
    cases hx
    exact ⟨_, rfl, hidx⟩
  · rintro x ⟨⟩ hq
    exact absurd hq (rest_ne_rewind ((h.inner.session session hs).stage hfailed) hqueue)
  · intro i hi
    refine (h.kept i hi).imp_right ?_
    rintro ⟨hstored, cutoff, hcutoff, hle⟩
    refine ⟨stored_after hsbook hs hqueue hdone ?_ hstored, cutoff, hcutoff, hle⟩
    intro e he
    exact hle.trans (hallowed e he cutoff hcutoff)
  · rintro range (⟨x, ⟨⟩, u, cause, hundo⟩ | ⟨_, _, hundo⟩)
    · exact hcut (Option.some.inj hundo)
    · rw [show s.phase = _ from hidle] at hundo
      cases hundo
  · intro i hi
    exact executed_undone h hidle hs halloc hqueue hdone hi hcut

end ClientSteps

/-! ## Runs -/

variable {network : String}

theorem init_inv : ∀ s : Cdc β, Init s → s.Inv network := by
  rintro s rfl
  refine ⟨Client.init_book _ rfl, Client.init_inv _ rfl, nofun, fun hbusy => absurd rfl hbusy, nofun,
    nofun, nofun, nofun, ?_, nofun, List.Pairwise.nil, trivial⟩
  rintro range (⟨x, hx, -⟩ | ⟨_, _, hundo⟩)
  · cases hx
  · cases hundo

theorem step_inv {retention : Nat} :
    ∀ s s' : Cdc β, Careful retention (SingleNetwork network) s s' → s.Inv network →
      s'.Inv network := by
  rintro s s' ⟨i, hadmits, hallowed, hstep⟩ h
  cases i with
  | connect => exact connect_inv hstep h
  | respond response => exact respond_inv (hadmits response rfl) hstep h
  | allocate => exact allocate_inv hstep h
  | execute => exact execute_inv hstep hallowed h
  | take => exact take_inv hstep h
  | append => exact append_inv hstep h
  | insert => exact insert_inv hstep h
  | seek => exact seek_inv hstep h
  | load => exact load_inv hstep h
  | finish => exact finish_inv hstep h
  | prune => exact prune_inv hstep hallowed h
  | pass => exact pass_inv hstep h
  | commit id => exact commit_inv hstep h
  | crash => exact crash_inv hstep h

/-- In a careful run of one network, with crashes anywhere, no delete is lost. -/
theorem deletes_complete {network : String} {retention : Nat} {s : Cdc β}
    (hs : Reachable Init (Careful retention (SingleNetwork network)) s) : Consistent s :=
  (init_invariant Init (Careful retention (SingleNetwork network)) (Inv network) init_inv step_inv s
    hs).consistent

/-! ### A careful run with a crash -/

instance (s : Cdc β) : (i : Input β) → Decidable (i.Allowed s)
  | .prune => inferInstanceAs
      (Decidable (∀ cutoff ∈ s.phase.cutoff, ∃ e ∈ s.client.store.buffer, cutoff ≤ e.1))
  | .execute => inferInstanceAs (Decidable (∀ e ∈ recovery s.client,
      ∀ cutoff ∈ cutoffs s.client.delivered, cutoff ≤ e.1))
  | .connect | .respond _ | .allocate | .take | .append | .insert | .seek | .load | .finish
  | .pass | .commit _ | .crash => .isTrue trivial

/-- A response has one range of the network. -/
def Input.admitted (network : String) : Input β → Bool
  | .respond response => decide (SingleNetwork network response)
  | _ => true

theorem Input.admitted_respond {i : Input β} (h : i.admitted network = true) :
    ∀ response, i = .respond response → SingleNetwork network response := by
  rintro response rfl
  exact of_decide_eq_true h

/-- The stream before its first connection. -/
def initial : Cdc β := ⟨Client.initial, [], .idle, [], []⟩

/-- The inputs that bring one event of the transactional stream to the CDC stream. -/
def oneEvent : List (Input Unit) := [.allocate, .execute, .take]

/-- The inputs for data that the consumer receives and commits. -/
def oneInsert (id : Nat) : List (Input Unit) := oneEvent ++ [Input.append, .insert, .commit id]

/-- The third watermark prunes the first batch when the second watermark is already
persisted; then a crash, the delete of the last insert, and the insert again. -/
def carefulInputs : List (Input Unit) :=
  [Input.connect, .respond (Client.oneRange false 0 5 5 none)] ++ oneInsert 0 ++
  [Input.respond (Client.oneRange true 0 5 5 none)] ++ oneEvent ++ [Input.pass] ++
  [Input.respond (Client.oneRange false 6 10 10 (some 5))] ++ oneInsert 2 ++
  [Input.respond (Client.oneRange true 6 10 10 (some 5))] ++ oneEvent ++ [Input.pass] ++
  [Input.respond (Client.oneRange false 11 20 20 (some 10))] ++ oneInsert 4 ++
  [Input.respond (Client.oneRange true 11 20 20 (some 10))] ++ oneEvent ++ [Input.prune, .crash, .connect] ++
  oneEvent ++ [Input.seek, .load, .finish] ++
  [Input.respond (Client.oneRange false 11 20 20 (some 10))] ++ oneInsert 7

theorem deletes_complete_crashed : ∃ s : Cdc Unit,
    Reachable Init (Careful 5 (SingleNetwork "eth")) s ∧ (net s.log).map (·.id) = [7, 2, 0] ∧
      s.batches.map (·.1) = [2, 4, 7] ∧ Consistent s := by
  obtain ⟨s, hrun, hnet, hbatches⟩ : ∃ s ∈ CampNode.run (perform 5)
      (fun s i => decide (i.Allowed s) && i.admitted "eth") (initial : Cdc Unit) carefulInputs,
        (net s.log).map (·.id) = [7, 2, 0] ∧ s.batches.map (·.1) = [2, 4, 7] := by
    decide +kernel
  have hs : Reachable Init (Careful 5 (SingleNetwork "eth")) s := by
    refine Reachable.run ?_ (.init rfl) hrun
    intro a b i _ hcheck hperform
    rcases Bool.and_eq_true_iff.mp hcheck with ⟨hallowed, hadmitted⟩
    exact ⟨i, Input.admitted_respond hadmitted, of_decide_eq_true hallowed, perform_action hperform⟩
  exact ⟨s, hs, hnet, hbatches, deletes_complete hs⟩

/-! ### Pruning before the watermark is persisted -/

/-- The consumer commits its insert, three watermarks pass, and the client crashes
and rewinds. -/
def prunedInputs : List (Input Unit) :=
  [Input.connect, .respond (Client.oneRange false 0 5 5 none)] ++ oneInsert 0 ++
  [Input.respond (Client.oneRange true 0 5 5 none)] ++ oneEvent ++ [Input.pass] ++
  [Input.respond (Client.oneRange true 6 20 20 (some 5))] ++ oneEvent ++ [Input.pass] ++
  [Input.respond (Client.oneRange true 21 40 40 (some 20))] ++ oneEvent ++ [Input.prune, .crash, .connect] ++
  oneEvent

/-- The stream starts again from the first block. -/
def repeatedInputs : List (Input Unit) :=
  prunedInputs ++ [Input.seek, .respond (Client.oneRange false 0 5 5 none)] ++ oneInsert 5

theorem run_reachable {retention : Nat} {inputs : List (Input β)} {s : Cdc β}
    (hrun : CampNode.run (perform retention) (fun _ i => i.admitted network) initial inputs =
      some s) : Reachable Init (Next retention (SingleNetwork network)) s := by
  refine Reachable.run ?_ (.init rfl) hrun
  intro a b i _ hadmitted hperform
  exact ⟨i, Input.admitted_respond hadmitted, perform_action hperform⟩

/-- The undo of the rewind covers the insert, whose batch is gone, so that there is no
delete; the consumer then receives the same blocks again. -/
theorem pruned_insert_repeats : (∃ s : Cdc Unit, Reachable Init (Next 5 (SingleNetwork "eth")) s ∧
      s.phase = .handling (.undo 4 .rewind ⟨0, 3⟩) ∧ (net s.log).map (·.id) = [0] ∧
      s.batches.seek ⟨0, 3⟩ = []) ∧
    ∃ s : Cdc Unit, Reachable Init (Next 5 (SingleNetwork "eth")) s ∧
      (net s.log).map (fun i => (i.id, i.ranges.map (·.numbers))) = [(5, [⟨0, 5⟩]), (0, [⟨0, 5⟩])] ∧
      (live s.client.delivered).map (·.1) = [5] := by
  constructor
  · obtain ⟨s, hrun, hphase, hnet, hseek⟩ : ∃ s, CampNode.run (perform 5)
        (fun _ i => i.admitted "eth") (initial : Cdc Unit) prunedInputs = some s ∧
          s.phase = .handling (.undo 4 .rewind ⟨0, 3⟩) ∧ (net s.log).map (·.id) = [0] ∧
          s.batches.seek ⟨0, 3⟩ = [] := ⟨_, rfl, rfl, rfl, rfl⟩
    exact ⟨s, run_reachable hrun, hphase, hnet, hseek⟩
  · obtain ⟨s, hrun, hnet, hlive⟩ : ∃ s ∈ CampNode.run (perform 5)
        (fun _ i => i.admitted "eth") (initial : Cdc Unit) repeatedInputs,
          (net s.log).map (fun i => (i.id, i.ranges.map (·.numbers))) =
            [(5, [⟨0, 5⟩]), (0, [⟨0, 5⟩])] ∧
          (live s.client.delivered).map (·.1) = [5] := by
      decide +kernel
    exact ⟨s, run_reachable hrun, hnet, hlive⟩

end Cdc

end CampNode

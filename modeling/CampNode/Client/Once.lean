import CampNode.Client.Deletes

/-!
# CampNode.Client.Once — how often a batch is deleted

Without crashes the stream follows the events of the transactional stream one by one. Batches stay
in the store after they were deleted, so every undo whose range holds a batch deletes it
(`Counted`), and an undo whose batches were pruned deletes nothing.

* `deleted_once`: if no data lies in the ranges of two undos, no batch is deleted twice, and if no
  undo takes back pruned data, the inserts without the deletes are the live data after every event.
* `reorgs_delete_again`: two reorgs that go back to one watermark delete the same batch twice, and
  a reorg that goes back further than batches are kept deletes nothing.
-/

namespace CampNode

open List

variable {β : Type}

/-- The ids of the batches in deletes, the latest first. -/
def deleted : List (Change β) → List Nat
  | [] => []
  | .insert _ :: older => deleted older
  | .delete id _ :: older => id :: deleted older

/-- The event takes back what has the id. -/
def TransactionEvent.undoes (id : Nat) : TransactionEvent β → Bool
  | .undo _ _ range => decide (range.start ≤ id) && decide (id ≤ range.stop)
  | _ => false

/-- The number of undos whose range holds the id. -/
def undos (id : Nat) (events : List (TransactionEvent β)) : Nat := events.countP (·.undoes id)

/-- The ids of data, the latest first. -/
def dataIds : List (TransactionEvent β) → List Nat
  | [] => []
  | .data id _ _ :: older => id :: dataIds older
  | _ :: older => dataIds older

theorem mem_dataIds {id : Nat} {batch : β} {ranges : List BlockRange}
    {events : List (TransactionEvent β)} (h : .data id batch ranges ∈ events) :
    id ∈ dataIds events := by
  induction events with
  | nil => cases h
  | cons event older ih =>
    rcases mem_cons.mp h with rfl | hmem
    · exact mem_cons_self
    · cases event with
      | data other _ _ => exact mem_cons_of_mem _ (ih hmem)
      | undo _ _ _ => exact ih hmem
      | watermark _ _ _ => exact ih hmem

/-- No data lies in the ranges of two undos. -/
def UndoneOnce (events : List (TransactionEvent β)) : Prop :=
  ∀ id ∈ dataIds events, undos id events ≤ 1

/-- No undo takes back live data at or before a pruning point that has passed. -/
def Unpruned : List (TransactionEvent β) → Prop
  | [] => True
  | .undo _ _ range :: older => Unpruned older ∧ ∀ d ∈ live older, range.start ≤ d.1 →
      d.1 ≤ range.stop → ∀ cutoff ∈ Cdc.cutoffs older, cutoff < d.1
  | _ :: older => Unpruned older

/-- The inserts without the deletes, the latest first. -/
def held (log : List (Change β)) : List (Nat × List BlockRange) :=
  (net log).map fun i => (i.id, i.ranges)

theorem held_delete (id : Nat) (batch : β) (log : List (Change β)) :
    held (.delete id batch :: log) = (held log).filter (·.1 != id) := by
  unfold held
  rw [filter_map]
  rfl

theorem filter_not_mem_nil (l : List (Nat × List BlockRange)) :
    l.filter (fun d => decide (d.1 ∉ ([] : List Nat))) = l :=
  filter_eq_self.mpr fun _ _ => decide_eq_true not_mem_nil

/-- The event that the stream is busy with before it has changed anything for it. -/
def Phase.event : Phase β → Option (TransactionEvent β)
  | .handling event => some event
  | .inserting i => some (.data i.id i.batch i.ranges)
  | _ => none

/-- The deletes that the consumer has still to read. -/
def Phase.pending : Phase β → List Nat
  | .deleting ids => ids
  | _ => []

namespace Cdc

/-- A step without a crash. -/
def Uninterrupted (retention : Nat) (admits : ResponseBatch β → Prop) : Action (Cdc β) :=
  fun s s' => ∃ i : Input β, i ≠ .crash ∧ (∀ response, i = .respond response → admits response) ∧
    i.action retention s s'

/-- The deletes of a batch are at most the handled undos that take it back, and what the consumer
holds is the live data of the handled events. -/
structure Counted (s : Cdc β) (handled : List (TransactionEvent β)) : Prop where
  delivered : s.client.delivered = s.phase.event.toList ++ handled
  keys : (s.batches.map (·.1)).Nodup
  batches : ∀ b ∈ s.batches, ∃ ranges, .data b.1 b.2 ranges ∈ s.client.delivered
  inserting : ∀ i, s.phase = .inserting i → ∃ batch, (i.id, batch) ∈ s.batches
  pending : ∀ id ∈ s.phase.pending, ∃ batch, (id, batch) ∈ s.batches
  deleted : ∀ id ∈ deleted s.log, ∃ batch ranges, .data id batch ranges ∈ s.client.delivered
  count : ∀ id, (CampNode.deleted s.log).count id + s.phase.pending.count id ≤ undos id handled
  kept : ∀ i ∈ net s.log, (∃ batch, (i.id, batch) ∈ s.batches) ∨
    ∃ cutoff ∈ cutoffs handled, i.id ≤ cutoff
  live : Unpruned handled →
    live handled = (held s.log).filter fun d => decide (d.1 ∉ s.phase.pending)

/-! ## Steps -/

section Steps

variable {s s' : Cdc β} {handled : List (TransactionEvent β)}

/-- What the invariant says in a phase. -/
theorem Counted.at_phase (h : Counted s handled) {phase : Phase β} (hphase : s.phase = phase) :
    s.client.delivered = phase.event.toList ++ handled ∧
      (∀ id, (CampNode.deleted s.log).count id + phase.pending.count id ≤ undos id handled) ∧
      (Unpruned handled → CampNode.live handled =
        (held s.log).filter fun d => decide (d.1 ∉ phase.pending)) := by
  rw [← hphase]
  exact ⟨h.delivered, h.count, h.live⟩

/-- Between deletes the consumer holds the live data. -/
theorem Counted.held_eq (h : Counted s handled) {phase : Phase β} (hphase : s.phase = phase)
    (hpending : phase.pending = []) (hunpruned : Unpruned handled) :
    CampNode.live handled = held s.log := by
  have hlive := (h.at_phase hphase).2.2 hunpruned
  rw [hpending, filter_not_mem_nil] at hlive
  exact hlive

/-- A step of the transactional stream that delivers nothing. -/
theorem Counted.withClient (h : Counted s handled) {c : Client β}
    (hdelivered : c.delivered = s.client.delivered) : Counted { s with client := c } handled := by
  refine ⟨hdelivered.trans h.delivered, h.keys, ?_, h.inserting, h.pending, ?_, h.count, h.kept,
    h.live⟩
  · rw [hdelivered]
    exact h.batches
  · rw [hdelivered]
    exact h.deleted

theorem take_counted (hstep : Take s s') (h : Counted s handled) : Counted s' handled := by
  rcases hstep with ⟨hphase, session, event, c, hsession, hout, hdeliver, rfl⟩
  rcases hdeliver with ⟨session', event', hsession', hout', rfl⟩
  rw [hsession] at hsession'
  cases hsession'
  rw [hout] at hout'
  cases hout'
  rcases h.at_phase hphase with ⟨hdelivered, hcount, hlive⟩
  refine ⟨?_, h.keys, ?_, nofun, nofun, ?_, hcount, h.kept, hlive⟩
  · rw [hdelivered]
    rfl
  · intro b hb
    rcases h.batches b hb with ⟨ranges, hmem⟩
    exact ⟨ranges, mem_cons_of_mem _ hmem⟩
  · intro id hid
    rcases h.deleted id hid with ⟨batch, ranges, hmem⟩
    exact ⟨batch, ranges, mem_cons_of_mem _ hmem⟩

/-- The batch of the event that is handled is stored. -/
theorem append_counted (hstep : Append s s') (h : Counted s handled) : Counted s' handled := by
  rcases hstep with ⟨id, batch, ranges, hphase, rfl⟩
  rcases h.at_phase hphase with ⟨hdelivered, hcount, hlive⟩
  have hcurrent : .data id batch ranges ∈ s.client.delivered := by
    rw [hdelivered]
    exact mem_cons_self
  have hmem : ∀ other, (∃ b, (other, b) ∈ s.batches) →
      ∃ b, (other, b) ∈ s.batches.append id batch := by
    rintro other ⟨b, hb⟩
    by_cases heq : other = id
    · rw [heq]
      exact ⟨batch, mem_append_right _ (mem_singleton_self _)⟩
    · exact ⟨b, mem_append_left _ (mem_filter.mpr ⟨hb, bne_iff_ne.mpr heq⟩)⟩
  refine ⟨hdelivered, ?_, ?_, ?_, nofun, h.deleted, hcount, ?_, hlive⟩
  · show ((s.batches.filter (·.1 != id) ++ [(id, batch)]).map (·.1)).Nodup
    rw [map_append]
    refine nodup_append.mpr
      ⟨h.keys.sublist (filter_sublist.map _), nodup_singleton _, ?_⟩
    intro a ha b hb heq
    rw [mem_singleton.mp hb] at heq
    rcases mem_map.mp ha with ⟨stored, hstored, rfl⟩
    exact bne_iff_ne.mp (mem_filter.mp hstored).2 heq
  · intro b hb
    rcases mem_append.mp hb with hb | hb
    · exact h.batches b (mem_of_mem_filter hb)
    · rw [mem_singleton.mp hb]
      exact ⟨ranges, hcurrent⟩
  · rintro i ⟨⟩
    exact ⟨batch, mem_append_right _ (mem_singleton_self _)⟩
  · intro i hi
    rcases h.kept i hi with hstored | hcutoff
    · exact .inl (hmem i.id hstored)
    · exact .inr hcutoff

theorem insert_counted (hstep : Insert s s') (h : Counted s handled) :
    ∃ handled', Counted s' handled' := by
  rcases hstep with ⟨i, hphase, rfl⟩
  rcases h.at_phase hphase with ⟨hdelivered, hcount, -⟩
  refine ⟨.data i.id i.batch i.ranges :: handled, hdelivered, h.keys, h.batches, nofun, nofun,
    h.deleted, ?_, ?_, ?_⟩
  · intro id
    unfold undos
    exact hcount id
  · intro j hj
    rcases mem_cons.mp hj with rfl | hj
    · exact .inl (h.inserting j hphase)
    · exact h.kept j hj
  · intro hunpruned
    show (i.id, i.ranges) :: CampNode.live handled = _
    rw [h.held_eq hphase rfl hunpruned]
    exact (filter_not_mem_nil _).symm

/-- An undo is handled: the batches in its range are deleted once more. -/
theorem Counted.count_undo (h : Counted s handled) (id : Nat) (cause : Cause)
    (range : RangeInclusive) {other : Nat}
    (hcount : (CampNode.deleted s.log).count other ≤ undos other handled) :
    (CampNode.deleted s.log).count other + (s.batches.seek range).count other ≤
      undos other (.undo id cause range :: handled) := by
  unfold undos
  rw [countP_cons]
  have hnodup : (s.batches.seek range).Nodup := h.keys.sublist (filter_sublist.map _)
  have hle := nodup_iff_count_le_one.mp hnodup other
  by_cases hmem : other ∈ s.batches.seek range
  · have hundoes : (TransactionEvent.undo id cause range : TransactionEvent β).undoes other =
        true := by
      simp only [TransactionEvent.undoes, Bool.and_eq_true, decide_eq_true_eq]
      exact (mem_seek.mp hmem).2
    rw [if_pos hundoes]
    exact Nat.add_le_add hcount hle
  · rw [count_eq_zero_of_not_mem hmem]
    exact Nat.le_add_right_of_le hcount

/-- What an undo takes back is what the store finds in its range, unless it was pruned. -/
theorem Counted.live_undo (h : Counted s handled) (hlive : CampNode.live handled = held s.log)
    {id : Nat} {cause : Cause} {range : RangeInclusive}
    (hunpruned : Unpruned (.undo id cause range :: handled)) :
    CampNode.live (.undo id cause range :: handled) =
      (held s.log).filter fun d => decide (d.1 ∉ s.batches.seek range) := by
  rw [← hlive]
  refine filter_congr ?_
  intro d hd
  have hstored : range.start ≤ d.1 → d.1 ≤ range.stop → ∃ batch, (d.1, batch) ∈ s.batches := by
    intro hstart hstop
    have hheld := hd
    rw [hlive] at hheld
    rcases mem_map.mp hheld with ⟨i, hi, rfl⟩
    rcases h.kept i hi with hstored | ⟨cutoff, hcutoff, hle⟩
    · exact hstored
    · exact absurd (hunpruned.2 _ hd hstart hstop cutoff hcutoff) (Nat.not_lt.mpr hle)
  rw [← Bool.decide_and, ← decide_not]
  refine decide_eq_decide.mpr (not_congr ?_)
  rw [mem_seek]
  exact ⟨fun hin => ⟨hstored hin.1 hin.2, hin⟩, fun hin => hin.2⟩

/-- The batches in the range of an undo are to be deleted. -/
theorem seek_counted (hstep : Seek s s') (h : Counted s handled) :
    ∃ handled', Counted s' handled' := by
  rcases hstep with ⟨id, cause, range, hphase, hs'⟩
  rcases h.at_phase hphase with ⟨hdelivered, hcount, -⟩
  -- without any batches the stream is idle, with nothing to delete
  have hpending : s'.phase.pending = s.batches.seek range := by
    rw [hs']
    split
    · rename_i hempty
      exact (isEmpty_iff.mp hempty).symm
    · rfl
  have hevent : s'.phase.event = none := by
    rw [hs']
    split
    · rfl
    · rfl
  have hsame : s'.client = s.client ∧ s'.batches = s.batches ∧ s'.log = s.log := by
    rw [hs']
    split
    · exact ⟨rfl, rfl, rfl⟩
    · exact ⟨rfl, rfl, rfl⟩
  rcases hsame with ⟨hclient, hbatches, hlog⟩
  refine ⟨.undo id cause range :: handled, ?_, ?_, ?_, ?_, ?_, ?_, ?_, ?_, ?_⟩
  · rw [hclient, hevent]
    exact hdelivered
  · rw [hbatches]
    exact h.keys
  · rw [hbatches, hclient]
    exact h.batches
  · intro i hi
    rw [hi] at hevent
    cases hevent
  · rw [hpending, hbatches]
    intro other hother
    exact (mem_seek.mp hother).1
  · rw [hlog, hclient]
    exact h.deleted
  · intro other
    rw [hlog, hpending]
    exact h.count_undo id cause range (hcount other)
  · rw [hlog, hbatches]
    intro i hi
    exact h.kept i hi
  · intro hunpruned
    rw [hlog, hpending]
    exact h.live_undo (h.held_eq hphase rfl hunpruned.1) hunpruned

/-- The next batch is found and delivered. -/
theorem load_counted (hstep : Load s s') (h : Counted s handled) : Counted s' handled := by
  rcases hstep with ⟨id, rest, hphase, rfl⟩
  rcases h.at_phase hphase with ⟨hdelivered, hcount, hlive⟩
  have hids := h.pending
  rw [hphase] at hids
  rcases hids id mem_cons_self with ⟨stored, hstored⟩
  rcases h.batches _ hstored with ⟨ranges, hdata⟩
  have hfound : ∃ batch, s.batches.load id = some batch := by
    unfold Batches.load
    have hsome : (s.batches.find? (·.1 == id)).isSome = true :=
      find?_isSome.mpr ⟨_, hstored, beq_self_eq_true id⟩
    rcases Option.isSome_iff_exists.mp hsome with ⟨b, hb⟩
    exact ⟨b.2, by rw [hb]; rfl⟩
  rcases hfound with ⟨batch, hbatch⟩
  rw [hbatch]
  refine ⟨hdelivered, h.keys, h.batches, nofun, ?_, ?_, ?_, ?_, ?_⟩
  · intro other hother
    exact hids other (mem_cons_of_mem _ hother)
  · intro other hother
    rcases mem_cons.mp hother with rfl | hother
    · exact ⟨stored, ranges, hdata⟩
    · exact h.deleted other hother
  · intro other
    have hcount : (CampNode.deleted s.log).count other + (id :: rest).count other ≤ _ :=
      hcount other
    show (id :: CampNode.deleted s.log).count other + rest.count other ≤ _
    rw [count_cons] at hcount ⊢
    omega
  · intro i hi
    exact h.kept i (mem_of_mem_filter hi)
  · intro hunpruned
    rw [hlive hunpruned, held_delete, filter_filter]
    refine filter_congr ?_
    intro d _
    show decide (d.1 ∉ id :: rest) = _
    rw [Bool.eq_iff_iff, Bool.and_eq_true, decide_eq_true_eq, decide_eq_true_eq, bne_iff_ne,
      mem_cons, not_or]
    exact And.comm

theorem finish_counted (hstep : Finish s s') (h : Counted s handled) : Counted s' handled := by
  rcases hstep with ⟨hphase, rfl⟩
  rcases h.at_phase hphase with ⟨hdelivered, hcount, hlive⟩
  exact ⟨hdelivered, h.keys, h.batches, nofun, nofun, h.deleted, hcount, h.kept, hlive⟩

/-- A watermark passes: the batches up to its pruning point may be gone. -/
theorem Counted.passed (h : Counted s handled) {id : Nat} {ranges : List BlockRange}
    {prune : Option Nat} (hphase : s.phase = .handling (.watermark id ranges prune))
    {batches : Batches β} (hsub : batches.Sublist s.batches)
    (hkept : ∀ b ∈ s.batches, b ∈ batches ∨ ∃ cutoff ∈ prune, b.1 ≤ cutoff) :
    Counted { s with batches := batches, phase := .idle }
      (.watermark id ranges prune :: handled) := by
  rcases h.at_phase hphase with ⟨hdelivered, hcount, hlive⟩
  have hcutoffs : ∀ cutoff, cutoff ∈ prune ∨ cutoff ∈ cutoffs handled →
      cutoff ∈ cutoffs (.watermark id ranges prune :: handled) := by
    intro cutoff hcutoff
    refine mem_filterMap.mpr ?_
    rcases hcutoff with hcutoff | hcutoff
    · exact ⟨_, mem_cons_self, hcutoff⟩
    · rcases mem_filterMap.mp hcutoff with ⟨event, hevent, heq⟩
      exact ⟨event, mem_cons_of_mem _ hevent, heq⟩
  refine ⟨hdelivered, h.keys.sublist (hsub.map _), fun b hb => h.batches b (hsub.subset hb), nofun,
    nofun, h.deleted, ?_, ?_, hlive⟩
  · intro other
    unfold undos
    exact hcount other
  · intro i hi
    rcases h.kept i hi with ⟨batch, hbatch⟩ | ⟨cutoff, hcutoff, hle⟩
    · rcases hkept _ hbatch with hstays | ⟨cutoff, hcutoff, hle⟩
      · exact .inl ⟨batch, hstays⟩
      · exact .inr ⟨cutoff, hcutoffs cutoff (.inl hcutoff), hle⟩
    · exact .inr ⟨cutoff, hcutoffs cutoff (.inr hcutoff), hle⟩

theorem prune_counted (hstep : Prune s s') (h : Counted s handled) :
    ∃ handled', Counted s' handled' := by
  rcases hstep with ⟨id, ranges, cutoff, hphase, rfl⟩
  refine ⟨_, h.passed hphase filter_sublist ?_⟩
  intro b hb
  rcases Nat.lt_or_ge cutoff b.1 with hlt | hle
  · exact .inl (mem_filter.mpr ⟨hb, decide_eq_true hlt⟩)
  · exact .inr ⟨cutoff, rfl, hle⟩

theorem pass_counted (hstep : Pass s s') (h : Counted s handled) :
    ∃ handled', Counted s' handled' := by
  rcases hstep with ⟨id, ranges, prune, hphase, rfl⟩
  exact ⟨_, h.passed hphase (List.Sublist.refl _) fun b hb => .inl hb⟩

/-- Between the events that it yields the transactional stream delivers nothing. -/
theorem polls_counted {action : Action (Client β)} (hstep : Polls action s s')
    (hquiet : ∀ c c', action c c' → c'.delivered = c.delivered) (h : Counted s handled) :
    Counted s' handled := by
  rcases hstep with ⟨-, c, hc, rfl⟩
  exact h.withClient (hquiet _ _ hc)

theorem respond_quiet {response : ResponseBatch β} {c c' : Client β}
    (hstep : Client.Respond response c c') : c'.delivered = c.delivered := by
  rcases hstep with ⟨session, -, -, -, -, -, hstep⟩
  split at hstep
  · rw [hstep]
  · rw [hstep]

theorem execute_quiet {retention : Nat} {c c' : Client β} (hstep : Client.Execute retention c c') :
    c'.delivered = c.delivered := by
  rcases hstep with ⟨session, id, action, rest, -, -, -, -, hstep⟩
  split at hstep
  · rw [hstep]
  · rw [hstep]

end Steps

/-! ## Runs -/

theorem init_counted : ∀ s : Cdc β, Init s → ∃ handled, Counted s handled := by
  intro s hs
  subst hs
  exact ⟨[], rfl, .nil, nofun, nofun, nofun, nofun, fun _ => Nat.le_refl _, nofun, fun _ => rfl⟩

theorem step_counted {retention : Nat} {admits : ResponseBatch β → Prop} :
    ∀ s s' : Cdc β, Uninterrupted retention admits s s' → (∃ handled, Counted s handled) →
      ∃ handled, Counted s' handled := by
  rintro s s' ⟨i, hcrash, -, hstep⟩ ⟨handled, h⟩
  cases i with
  | connect =>
    refine ⟨handled, polls_counted hstep ?_ h⟩
    rintro c c' ⟨-, rfl⟩
    rfl
  | respond response => exact ⟨handled, polls_counted hstep (fun _ _ => respond_quiet) h⟩
  | allocate =>
    refine ⟨handled, polls_counted hstep ?_ h⟩
    rintro c c' ⟨session, -, -, -, -, -, rfl⟩
    rfl
  | execute => exact ⟨handled, polls_counted hstep (fun _ _ => execute_quiet) h⟩
  | take => exact ⟨handled, take_counted hstep h⟩
  | append => exact ⟨handled, append_counted hstep h⟩
  | insert => exact insert_counted hstep h
  | seek => exact seek_counted hstep h
  | load => exact ⟨handled, load_counted hstep h⟩
  | finish => exact ⟨handled, finish_counted hstep h⟩
  | prune => exact prune_counted hstep h
  | pass => exact pass_counted hstep h
  | commit id =>
    rcases hstep with ⟨session, -, -, -, rfl⟩
    exact ⟨handled, h.withClient rfl⟩
  | crash => exact absurd rfl hcrash

/-- In every run without crashes: if no data lies in the ranges of two undos, every batch is
delivered in at most one delete; and if no undo takes back data that was pruned, the inserts without
the deletes are the live data after every event. -/
theorem deleted_once {retention : Nat} {admits : ResponseBatch β → Prop} {s : Cdc β}
    (hs : Reachable Init (Uninterrupted retention admits) s) :
    (UndoneOnce s.client.delivered → (deleted s.log).Nodup) ∧
    (Unpruned s.client.delivered → s.phase = .idle → held s.log = live s.client.delivered) := by
  rcases init_invariant Init _ _ init_counted step_counted s hs with ⟨handled, h⟩
  refine ⟨?_, ?_⟩
  · intro honce
    refine nodup_iff_count_le_one.mpr ?_
    intro id
    by_cases hmem : id ∈ deleted s.log
    · rcases h.deleted id hmem with ⟨batch, ranges, hdata⟩
      calc (deleted s.log).count id
          ≤ (deleted s.log).count id + s.phase.pending.count id := Nat.le_add_right _ _
        _ ≤ undos id handled := h.count id
        _ ≤ undos id s.client.delivered := by
          rw [h.delivered]
          exact (sublist_append_right _ _).countP_le
        _ ≤ 1 := honce id (mem_dataIds hdata)
    · rw [count_eq_zero_of_not_mem hmem]
      exact Nat.zero_le 1
  · intro hunpruned hphase
    have hdelivered : s.client.delivered = handled := (h.at_phase hphase).1
    rw [hdelivered] at hunpruned ⊢
    exact (h.held_eq hphase rfl hunpruned).symm

/-! ### Reorgs that go back to one watermark -/

/-- The inputs for data that the consumer receives. -/
def onlyInsert : List (Input Unit) := oneEvent ++ [Input.append, .insert]

/-- A watermark, data, and a reorg of the data. -/
def oneReorg : List (Input Unit) :=
  [Input.connect, .respond (Client.oneRange true 0 5 5 none)] ++ oneEvent ++ [Input.pass] ++
  [Input.respond (Client.oneRange false 6 10 10 (some 5))] ++ onlyInsert ++
  [Input.respond (Client.oneRange false 6 8 8 (some 5))] ++ oneEvent ++
  [Input.seek, .load, .finish] ++ onlyInsert

/-- Another reorg, of the data that replaced the first. -/
def twoReorgs : List (Input Unit) :=
  oneReorg ++ [Input.respond (Client.oneRange false 6 9 9 (some 5))] ++ oneEvent ++
  [Input.seek, .load, .load, .finish]

/-- The third watermark prunes the data, which is then reorged. -/
def prunedReorg : List (Input Unit) :=
  [Input.connect, .respond (Client.oneRange true 0 5 5 none)] ++ oneEvent ++ [Input.pass] ++
  [Input.respond (Client.oneRange false 6 10 10 (some 5))] ++ onlyInsert ++
  [Input.respond (Client.oneRange true 6 10 10 (some 5))] ++ oneEvent ++ [Input.pass] ++
  [Input.respond (Client.oneRange true 11 40 40 (some 10))] ++ oneEvent ++ [Input.prune] ++
  [Input.respond (Client.oneRange false 6 9 9 (some 5))] ++ oneEvent ++ [Input.seek]

/-- Not a crash, and a response has one range of the network. -/
def Input.uninterrupted (network : String) : Input β → Bool
  | .crash => false
  | i => i.admitted network

theorem uninterrupted_reachable {network : String} {retention : Nat} {inputs : List (Input β)}
    {s : Cdc β} (hrun : CampNode.run (perform retention)
      (fun _ i => i.uninterrupted network) initial inputs = some s) :
    Reachable Init (Uninterrupted retention (SingleNetwork network)) s := by
  refine Reachable.run ?_ (.init rfl) hrun
  intro a b i _ hcheck hperform
  refine ⟨i, ?_, ?_, perform_action hperform⟩
  · rintro rfl
    cases hcheck
  · rintro response rfl
    have hadmitted : (Input.respond response).admitted network = true := hcheck
    exact Input.admitted_respond hadmitted response rfl

/-- One reorg deletes the batch once. -/
theorem deleted_once_reorg :
    ∃ s : Cdc Unit, Reachable Init (Uninterrupted 0 (SingleNetwork "eth")) s ∧
      UndoneOnce s.client.delivered ∧ Unpruned s.client.delivered ∧ s.phase = .idle ∧
      deleted s.log = [1] ∧ (deleted s.log).Nodup ∧ held s.log = live s.client.delivered := by
  obtain ⟨s, hrun, honce, hunpruned, hphase, hdeleted⟩ : ∃ s, CampNode.run (perform 0)
      (fun _ i => i.uninterrupted "eth") (initial : Cdc Unit) oneReorg = some s ∧
        UndoneOnce s.client.delivered ∧ Unpruned s.client.delivered ∧ s.phase = .idle ∧
        deleted s.log = [1] := by
    refine ⟨_, rfl, ?_, ⟨trivial, ?_⟩, rfl, rfl⟩
    · show ∀ id ∈ [3, 1], _
      decide
    · intro d _ _ _ cutoff hcutoff
      cases hcutoff
  have hs := uninterrupted_reachable hrun
  rcases deleted_once hs with ⟨hnodup, hheld⟩
  exact ⟨s, hs, honce, hunpruned, hphase, hdeleted, hnodup honce, hheld hunpruned hphase⟩

/-- The second reorg deletes the first batch again, and the batch that was pruned is not deleted
although it is no longer live. -/
theorem reorgs_delete_again :
    (∃ s : Cdc Unit, Reachable Init (Uninterrupted 0 (SingleNetwork "eth")) s ∧
      s.phase = .idle ∧ deleted s.log = [3, 1, 1]) ∧
    ∃ s : Cdc Unit, Reachable Init (Uninterrupted 0 (SingleNetwork "eth")) s ∧
      s.phase = .idle ∧ (held s.log).map (·.1) = [1] ∧ live s.client.delivered = [] := by
  constructor
  · obtain ⟨s, hrun, hphase, hdeleted⟩ : ∃ s, CampNode.run (perform 0)
        (fun _ i => i.uninterrupted "eth") (initial : Cdc Unit) twoReorgs = some s ∧
          s.phase = .idle ∧ deleted s.log = [3, 1, 1] := ⟨_, rfl, rfl, rfl⟩
    exact ⟨s, uninterrupted_reachable hrun, hphase, hdeleted⟩
  · obtain ⟨s, hrun, hphase, hheld, hlive⟩ : ∃ s, CampNode.run (perform 0)
        (fun _ i => i.uninterrupted "eth") (initial : Cdc Unit) prunedReorg = some s ∧
          s.phase = .idle ∧ (held s.log).map (·.1) = [1] ∧ live s.client.delivered = [] :=
      ⟨_, rfl, rfl, rfl, rfl⟩
    exact ⟨s, uninterrupted_reachable hrun, hphase, hheld, hlive⟩

end Cdc

end CampNode

import CampNode.Client.Retention

/-!
# CampNode.Client.Undo — what a reorg takes back

A reorg recovers to the last watermark that it leaves unaffected and takes back the ids after
it, up to its own. If no id was used since that watermark the range would be empty.

This does not happen. A reorg jumps back on some network of the response before. If that
response is the recovery watermark itself, then its range on this network starts at or after
the first invalid block, and the watermark is affected, or it contains this block, and the
reorg is refused. In all other cases an id was used in between.

All of this has to hold across crashes, where a connection starts with the ranges of the last
persisted watermark. The same bookkeeping shows that the networks of the watermarks in the
buffer never change, so that the search for a pruning point finds all of its cutoffs.
-/

namespace CampNode

open List

namespace Client

variable {β : Type}

/-! ## The buffer and the responses -/

/-- Watermarks without ranges apart, a watermark has the networks of those before. -/
def SameNetworks (buffer : List BufferEntry) : Prop :=
  buffer.Pairwise fun a b => a.2 = [] ∨ (networks a.2).Perm (networks b.2)

/-- Watermarks without ranges apart, all have the networks of the given ranges. -/
def HasNetworks (buffer : List BufferEntry) (ranges : List BlockRange) : Prop :=
  ∀ e ∈ buffer, e.2 = [] ∨ (networks e.2).Perm (networks ranges)

/-- The ranges are those of the last watermark, unless an id was used since. -/
def UpToDate (s : Session β) (ranges : List BlockRange) : Prop :=
  ∀ last ∈ s.container.buffer.getLast?,
    last.1 + 1 < s.allocated.getD s.container.next ∨ last.2 = ranges

/-- What can be in the queue of a connection. -/
inductive Queued (s : Session β) : List (StreamAction β) → Prop where
  | idle : UpToDate s s.previous → Queued s []
  | rewind : Queued s [.rewind]
  | response (response : ResponseBatch β) : response.ranges = s.previous →
      Queued s [.message response.message]
  | reorg (previous : List BlockRange) (response : ResponseBatch β) :
      response.ranges = s.previous → validateResponse previous response.ranges = .ok () →
      response.ranges.filterMap (invalidationOf previous) ≠ [] → UpToDate s previous →
      Queued s [.message (.reorg previous response.ranges
        (response.ranges.filterMap (invalidationOf previous))), .message response.message]

/-- A connection whose buffer fits the responses. -/
structure Fits (s : Session β) : Prop where
  uniform : SameNetworks s.container.buffer
  previous : s.failed = false → HasNetworks s.container.buffer s.previous
  queued : s.failed = false → Queued s s.queue

structure Consistent (c : Client β) : Prop where
  book : Book c
  stored : SameNetworks c.store.buffer
  session : ∀ s ∈ c.session, Fits s

/-- The last of some watermarks has the networks of all of them. -/
theorem SameNetworks.last {buffer : List BufferEntry} (h : SameNetworks buffer) :
    HasNetworks buffer ((buffer.getLast?.map (·.2)).getD []) := by
  rcases eq_nil_or_concat buffer with rfl | ⟨older, last, rfl⟩
  · exact nofun
  rw [concat_eq_append] at *
  rw [getLast?_concat]
  intro e he
  rcases mem_append.mp he with he | he
  · exact (pairwise_append.mp h).2.2 e he last (mem_singleton_self last)
  · rw [mem_singleton.mp he]
    exact .inr (List.Perm.refl _)

variable {buffer : List BufferEntry} {id : Nat} {previous incoming : List BlockRange}

/-- The networks stay the same with an accepted response. -/
theorem HasNetworks.accept (h : HasNetworks buffer previous)
    (hvalid : validateResponse previous incoming = .ok ()) :
    HasNetworks buffer incoming := by
  intro e he
  rcases h e he with hnil | hperm
  · exact .inl hnil
  by_cases hprev : previous = []
  · rw [hprev] at hperm
    exact .inl (map_eq_nil_iff.mp (perm_nil.mp hperm))
  · have hnets := validateNetworks_perm (validateResponse_ok hvalid).2.1 hprev
    exact .inr (hperm.trans hnets.symm)

theorem HasNetworks.append {ranges : List BlockRange} (h : HasNetworks buffer ranges) :
    HasNetworks (buffer ++ [(id, ranges)]) ranges := by
  intro e he
  rcases mem_append.mp he with he | he
  · exact h e he
  · rw [mem_singleton.mp he]
    exact .inr (List.Perm.refl _)

theorem SameNetworks.append {ranges : List BlockRange} (h : SameNetworks buffer)
    (hnets : HasNetworks buffer ranges) :
    SameNetworks (buffer ++ [(id, ranges)]) := by
  refine pairwise_append.mpr ⟨h, pairwise_singleton _ _, ?_⟩
  intro a ha b hb
  rw [mem_singleton.mp hb]
  exact hnets a ha

/-- A watermark of the known networks finds its pruning point. -/
theorem executeWatermark_succeeds {retention id : Nat} {s : StateContainer}
    {ranges : List BlockRange} (h : HasNetworks s.buffer ranges) :
    ∃ done : Executed β, s.execute retention id (.message (.watermark ranges)) = .ok done := by
  have hcutoffs : ∀ e ∈ s.buffer, ∀ r ∈ e.2, r.network ∈ networks ranges := by
    intro e he r hr
    rcases h e he with hnil | hperm
    · rw [hnil] at hr
      cases hr
    · exact hperm.mem_iff.mp (mem_map.mpr ⟨r, hr, rfl⟩)
  rcases @findPruningPoint_some ranges retention s.buffer id fun _ => hcutoffs with
    ⟨prune, hprune⟩
  simp only [StateContainer.execute, StateContainer.executeWatermark, hprune]
  exact ⟨_, rfl⟩

/-- Actions that fit are executed, or refused because of a reorg. -/
theorem execute_never_panics {retention id : Nat} {s : Session β} {action : StreamAction β}
    {rest : List (StreamAction β)} (hqueued : Queued s (action :: rest))
    (hnets : HasNetworks s.container.buffer s.previous) :
    s.container.execute retention id action ≠ .error .panicked := by
  intro hpanic
  cases hqueued with
  | rewind => cases hpanic
  | response response hranges =>
    unfold ResponseBatch.message at hpanic
    split at hpanic
    · rw [← hranges] at hnets
      rcases @executeWatermark_succeeds β retention id _ _ hnets with ⟨done, hdone⟩
      rw [hdone] at hpanic
      cases hpanic
    · cases hpanic
  | reorg previous response =>
    simp only [StateContainer.execute, StateContainer.executeReorg] at hpanic
    split at hpanic
    · split at hpanic <;> cases hpanic
    · split at hpanic <;> cases hpanic

/-! ## Reorgs -/

/-- An element is found by a key that no other element has. -/
theorem find?_of_nodup {α κ : Type} [BEq κ] [LawfulBEq κ] {key : α → κ} {l : List α} {x : α}
    (hnodup : (l.map key).Nodup) (hx : x ∈ l) : l.find? (key · == key x) = some x := by
  cases hfind : l.find? (key · == key x) with
  | none =>
    have hnot := find?_eq_none.mp hfind x hx
    exact absurd (beq_self_eq_true (key x)) hnot
  | some y =>
    have hkey := find?_some hfind
    rw [inj_on_of_nodup_map hnodup (mem_of_find?_eq_some hfind) hx (beq_iff_eq.mp hkey)]

section Jumps

variable {previous incoming : List BlockRange}

theorem invalidation_nodup (h : (networks incoming).Nodup) :
    ((incoming.filterMap (invalidationOf previous)).map (·.network)).Nodup := by
  have hpairs : incoming.Pairwise fun a b => a.network ≠ b.network := pairwise_map.mp h
  apply pairwise_map.mpr
  refine hpairs.filterMap _ ?_
  intro a b hne i hi j hj
  rcases invalidationOf_some hi with ⟨-, -, -, hneti, -⟩
  rcases invalidationOf_some hj with ⟨-, -, -, hnetj, -⟩
  rw [hneti, hnetj]
  exact hne

/-- If the response before is the recovery point of a reorg, then the reorg is partial. -/
theorem partialReorg_of_previous (hvalid : validateResponse previous incoming = .ok ())
    (hjumps : incoming.filterMap (invalidationOf previous) ≠ [])
    (hunaffected : affected (incoming.filterMap (invalidationOf previous)) previous = false) :
    partialReorg (incoming.filterMap (invalidationOf previous)) previous = true := by
  have hnodup := @invalidation_nodup previous incoming
    (validateNetworks_ok (validateResponse_ok hvalid).2.1).1
  rcases exists_mem_of_ne_nil _ hjumps with ⟨jump, hjump⟩
  rcases mem_filterMap.mp hjump with ⟨q, -, hq⟩
  rcases invalidationOf_some hq with ⟨p, hp, hback, hnet, hstart⟩
  have hmem : p ∈ previous := mem_of_find?_eq_some hp
  have hpnet : jump.network = p.network := by
    have hfound := @List.find?_some _ _ _ _ hp
    rw [hnet, beq_iff_eq.mp hfound]
  -- the reorg point of the network of the jump is its start
  have hpoint : reorgPoint (incoming.filterMap (invalidationOf previous)) p.network =
      some q.start := by
    unfold reorgPoint
    rw [← hpnet, find?_of_nodup (by rw [map_reverse]; exact nodup_reverse.mpr hnodup)
      (mem_reverse.mpr hjump), Option.map_some, hstart]
  have hfirst : (incoming.filterMap (invalidationOf previous)).find? (·.network == p.network) =
      some jump := by
    rw [← hpnet]
    exact find?_of_nodup hnodup hjump
  have hbefore : p.start < q.start := by
    have hp := any_eq_false.mp hunaffected p hmem
    rw [hpoint] at hp
    simpa using hp
  have hinside : q.start ≤ p.stop := by
    have hle : nextBlock p.stop ≤ p.stop + 1 := Nat.mod_le _ _
    omega
  refine any_eq_true.mpr ⟨p, hmem, ?_⟩
  rw [hfirst]
  simp only [Bool.and_eq_true, decide_eq_true_eq, hstart]
  exact ⟨hbefore, hinside⟩

end Jumps

/-- The range of an undo holds the id before its own, and no id up to the recovery point. -/
theorem executeReorg_range {s : Session β} {done : Executed β} (halloc : s.allocated = some id)
    (hbefore : ∀ e ∈ s.container.buffer, e.1 < id) (hasc : Ascending s.container.buffer)
    (hvalid : validateResponse previous incoming = .ok ())
    (hjumps : incoming.filterMap (invalidationOf previous) ≠ []) (hupToDate : UpToDate s previous)
    (hne : s.container.buffer ≠ [])
    (hdone : s.container.executeReorg id (incoming.filterMap (invalidationOf previous)) = .ok done) :
    ∃ e, findRecoveryPoint s.container.buffer (incoming.filterMap (invalidationOf previous)) =
        some e ∧
      done.event = .undo id (.reorg (incoming.filterMap (invalidationOf previous)))
        ⟨e.1 + 1, id - 1⟩ ∧ e.1 + 1 < id := by
  rcases executeReorg_ok hdone with ⟨e, hrecovery, hwhole, -, hevent⟩ | ⟨hnil, -⟩
  · refine ⟨e, hrecovery, hevent, ?_⟩
    rcases findRecoveryPoint_some hrecovery with ⟨hmem, hunaffected⟩
    rcases Option.ne_none_iff_exists'.mp (mt getLast?_eq_none_iff.mp hne) with ⟨last, hlast⟩
    have hlt := hbefore last (mem_of_mem_getLast? hlast)
    have hspare := hupToDate last hlast
    rw [halloc, Option.getD_some] at hspare
    rcases hasc.last hlast hmem with rfl | hearlier
    · rcases hspare with hspare | rfl
      · exact hspare
      · -- the last watermark is not the recovery point if it is the response before
        rw [partialReorg_of_previous hvalid hjumps hunaffected] at hwhole
        cases hwhole
    · omega
  · exact absurd hnil hne

/-! ## Steps -/

section Steps

variable {c c' : Client β}

theorem Queued.imp {s s' : Session β} {queue : List (StreamAction β)} (h : Queued s queue)
    (hprevious : s'.previous = s.previous)
    (hupToDate : ∀ ranges, UpToDate s ranges → UpToDate s' ranges) : Queued s' queue := by
  cases h with
  | idle hidle =>
    apply Queued.idle
    rw [hprevious]
    exact hupToDate _ hidle
  | rewind => exact .rewind
  | response response hranges => exact .response response (hranges.trans hprevious.symm)
  | reorg previous response hranges hvalid hjumps hup =>
    exact .reorg previous response (hranges.trans hprevious.symm) hvalid hjumps
      (hupToDate _ hup)

theorem connect_consistent (hstep : Connect c c') (h : Consistent c) : Consistent c' := by
  refine ⟨connect_book hstep h.book, ?_, ?_⟩
  · rcases hstep with ⟨-, rfl⟩
    exact h.stored
  rcases hstep with ⟨-, rfl⟩
  intro s hs
  cases hs
  refine ⟨h.stored, fun _ => h.stored.last, fun _ => ?_⟩
  unfold openSession
  split
  · exact .rewind
  -- the last watermark is the response before
  apply Queued.idle
  intro last hlast
  have hlast : c.store.buffer.getLast? = some last := hlast
  right
  simp only [hlast]
  rfl

theorem respond_consistent {response : ResponseBatch β} (hstep : Respond response c c')
    (h : Consistent c) : Consistent c' := by
  refine ⟨respond_book hstep h.book, ?_, ?_⟩
  · rcases hstep with ⟨s, -, -, -, -, -, hc'⟩
    split at hc'
    · rw [hc']
      exact h.stored
    · rw [hc']
      exact h.stored
  rcases hstep with ⟨s, hs, hfailed, hqueue, -, -, hc'⟩
  have hfits := h.session s hs
  have hidle : UpToDate s s.previous := by
    have hqueued := hfits.queued hfailed
    rw [hqueue] at hqueued
    cases hqueued with
    | idle hidle => exact hidle
  split at hc'
  · subst hc'
    intro s' hs'
    cases hs'
    exact ⟨hfits.uniform, nofun, nofun⟩
  rename_i messages hmessages
  subst hc'
  intro s' hs'
  cases hs'
  rcases protocolMessages_ok hmessages with ⟨hvalid, hsent⟩
  refine ⟨hfits.uniform, fun _ => (hfits.previous hfailed).accept hvalid, fun _ => ?_⟩
  rcases hsent with ⟨-, rfl⟩ | ⟨hjumps, rfl⟩
  · exact .response response rfl
  · exact .reorg s.previous response rfl hvalid hjumps hidle

theorem allocate_consistent (hstep : Allocate c c') (h : Consistent c) : Consistent c' := by
  refine ⟨allocate_book hstep h.book, ?_, ?_⟩
  · rcases hstep with ⟨s, -, -, -, -, -, rfl⟩
    exact h.stored
  rcases hstep with ⟨s, hs, -, -, halloc, -, rfl⟩
  have hfits := h.session s hs
  intro s' hs'
  cases hs'
  refine ⟨hfits.uniform, hfits.previous, fun hfailed => ?_⟩
  refine (hfits.queued hfailed).imp rfl ?_
  -- the allocated id is the one that was next
  intro ranges hup last hlast
  have hup := hup last hlast
  rw [halloc] at hup
  exact hup

/-- What an executed action leaves in the buffer. -/
theorem executed_buffer {s : StateContainer} {action : StreamAction β} {done : Executed β}
    (hdone : s.execute retention id action = .ok done) :
    done.container.buffer.Sublist s.buffer ∨ ∃ ranges, action = .message (.watermark ranges) ∧
        done.container.buffer = s.buffer ++ [(id, ranges)] := by
  rcases (execute_cases hdone).2.2 with ⟨-, hc⟩ | ⟨n, -, hc⟩ | ⟨ranges, -, haction, -, -, hb, -⟩
  · rw [hc]
    exact .inl (List.Sublist.refl _)
  · rw [hc]
    exact .inl filter_sublist
  · exact .inr ⟨ranges, haction, hb⟩

variable {s : Session β} {retention : Nat} {rest : List (StreamAction β)}

/-- A watermark in the queue has the ranges of the last response. -/
theorem Queued.watermark_ranges {ranges : List BlockRange}
    (h : Queued s (.message (.watermark ranges) :: rest)) : ranges = s.previous := by
  generalize hqueue : StreamAction.message (.watermark ranges) :: rest = queue at h
  cases h with
  | idle => cases hqueue
  | rewind => cases hqueue
  | reorg => cases hqueue
  | response response hranges =>
    unfold ResponseBatch.message at hqueue
    split at hqueue
    · cases hqueue
      exact hranges
    · cases hqueue

/-- A reorg in the queue jumps back from ranges that are up to date. -/
theorem Queued.reorg_jumps {invalidation : List InvalidationRange}
    (h : Queued s (.message (.reorg previous incoming invalidation) :: rest)) :
    validateResponse previous incoming = .ok () ∧
      incoming.filterMap (invalidationOf previous) ≠ [] ∧
      invalidation = incoming.filterMap (invalidationOf previous) ∧ UpToDate s previous := by
  generalize hqueue :
    StreamAction.message (.reorg previous incoming invalidation) :: rest = queue at h
  cases h with
  | idle => cases hqueue
  | rewind => cases hqueue
  | response response =>
    unfold ResponseBatch.message at hqueue
    split at hqueue
    · cases hqueue
    · cases hqueue
  | reorg _ response _ hvalid hjumps hup =>
    cases hqueue
    exact ⟨hvalid, hjumps, rfl, hup⟩

theorem execute_consistent (hstep : Execute retention c c') (h : Consistent c) : Consistent c' := by
  refine ⟨execute_inv_book hstep h.book, ?_, ?_⟩
  · rcases execute_inversion hstep with
      ⟨s, id, action, rest, hs, -, halloc, -, rfl | ⟨done, hdone, rfl⟩⟩
    · exact h.stored
    · have hbook := h.book.session s hs
      rcases hbook.allocated id halloc with ⟨-, -, -, hentries⟩
      have hsub := (execute_book hdone hbook.buffer hbook.ascending hentries hbook.prunes).2.1
      exact h.stored.sublist hsub
  rcases execute_inversion hstep with
    ⟨s, id, action, rest, hs, hfailed, halloc, hqueue, rfl | ⟨done, hdone, rfl⟩⟩
  · intro s' hs'
    cases hs'
    exact ⟨(h.session s hs).uniform, nofun, nofun⟩
  have hbook := h.book.session s hs
  have hfits := h.session s hs
  have hqueued := hfits.queued hfailed
  have hnets := hfits.previous hfailed
  rw [hqueue] at hqueued
  rcases hbook.allocated id halloc with ⟨hnext, -, -, hentries⟩
  have hdonenext : done.container.next = id + 1 := by
    rw [(execute_cases hdone).2.1, hbook.next, ← hnext]
  intro s' hs'
  cases hs'
  refine ⟨?_, fun _ => ?_, fun _ => ?_⟩
  · rcases executed_buffer hdone with hsub | ⟨ranges, rfl, hbuffer⟩
    · exact hfits.uniform.sublist hsub
    · rw [hbuffer, hqueued.watermark_ranges]
      exact hfits.uniform.append hnets
  · rcases executed_buffer hdone with hsub | ⟨ranges, rfl, hbuffer⟩
    · exact fun e he => hnets e (hsub.subset he)
    · rw [hbuffer, hqueued.watermark_ranges]
      exact hnets.append
  · -- the buffer ends before the id just used, or with the watermark just executed
    have hidle : ∀ last ∈ done.container.buffer.getLast?,
        last.1 + 1 < done.container.next ∨ last.2 = s.previous := by
      intro last hlast
      rcases executed_buffer hdone with hsub | ⟨ranges, rfl, hbuffer⟩
      · have hlt := hentries last (hsub.subset (mem_of_mem_getLast? hlast))
        left
        omega
      · rw [hbuffer, getLast?_concat] at hlast
        cases hlast
        exact .inr hqueued.watermark_ranges
    cases hqueued with
    | rewind => exact .idle hidle
    | response response => exact .idle hidle
    | reorg previous response hranges => exact .response response hranges

theorem deliver_consistent (hstep : Deliver c c') (h : Consistent c) : Consistent c' := by
  refine ⟨deliver_book hstep h.book, ?_, ?_⟩
  · rcases hstep with ⟨s, event, -, -, rfl⟩
    exact h.stored
  rcases hstep with ⟨s, event, hs, -, rfl⟩
  have hfits := h.session s hs
  intro s' hs'
  cases hs'
  exact ⟨hfits.uniform, hfits.previous, fun hfailed =>
    (hfits.queued hfailed).imp rfl fun _ hup => hup⟩

/-- Pruning up to an id before the last watermark keeps the last watermark. -/
theorem pruned_last {prune : Option Nat} (h : ∀ n ∈ prune, ∀ last ∈ buffer.getLast?, n < last.1) :
    (pruned prune buffer).getLast? = buffer.getLast? := by
  rcases eq_nil_or_concat buffer with rfl | ⟨older, last, rfl⟩
  · rw [sublist_nil.mp (pruned_sublist prune [])]
  rw [concat_eq_append] at *
  rw [getLast?_concat] at *
  have hkept : pruned prune [last] = [last] := by
    apply pruned_eq
    intro n hn e he
    rw [mem_singleton.mp he]
    exact h n hn last rfl
  rw [pruned_append, hkept, getLast?_concat]

theorem commit_last {s : StateContainer} {store : StateSnapshot}
    (hbuffer : s.buffer = store.buffer ++ s.uncommitted.map PendingCommit.entry)
    (hasc : Ascending s.buffer) (hprunes : ∀ p ∈ s.uncommitted, ∀ n ∈ p.prune, n < p.id) :
    (s.commit store id).1.buffer.getLast? = s.buffer.getLast? := by
  unfold StateContainer.commit
  dsimp only
  split
  · rfl
  apply pruned_last
  -- the pruning point of a pending commit lies before its own watermark
  intro n hn last hlast
  rcases maxPrune_mem hn with ⟨p, hp, hprune⟩
  have hp : p ∈ s.uncommitted := (takeWhile_sublist _).subset hp
  have hlt := hprunes p hp n hprune
  have hmem : p.entry ∈ s.buffer := by
    rw [hbuffer]
    exact mem_append_right _ (mem_map_of_mem hp)
  rcases hasc.last hlast hmem with heq | hlater
  · rw [← heq]
    exact hlt
  · exact hlt.trans hlater

theorem commitHandle_consistent (hstep : CommitHandle c c') (h : Consistent c) : Consistent c' := by
  refine ⟨commitHandle_book hstep h.book, ?_, ?_⟩
  all_goals
    rcases hstep with ⟨s, id, hs, -, -, rfl⟩
    have hbook := h.book.session s hs
    have hfits := h.session s hs
    rcases @commit_book s.container c.store id hbook.buffer hbook.ascending hbook.prunes with
      ⟨hnext, -, hbuffer, hsub, -⟩
  · -- what is persisted was in memory before
    have huniform := hfits.uniform.sublist hsub
    rw [hbuffer] at huniform
    exact (pairwise_append.mp huniform).1
  intro s' hs'
  cases hs'
  refine ⟨hfits.uniform.sublist hsub, fun hfailed => ?_, fun hfailed => ?_⟩
  · exact fun e he => hfits.previous hfailed e (hsub.subset he)
  refine (hfits.queued hfailed).imp rfl ?_
  intro ranges hup last hlast
  rw [commit_last hbook.buffer hbook.ascending hbook.prunes] at hlast
  have hup := hup last hlast
  rw [hnext]
  exact hup

theorem crash_consistent (hstep : Crash c c') (h : Consistent c) : Consistent c' := by
  refine ⟨crash_book hstep h.book, ?_, ?_⟩
  · cases hstep
    exact h.stored
  · cases hstep
    exact nofun

theorem init_consistent : ∀ c : Client β, Init c → Consistent c := by
  intro c hinit
  refine ⟨init_book c hinit, ?_, ?_⟩
  · cases hinit
    exact List.Pairwise.nil
  · cases hinit
    exact nofun

theorem step_consistent {admits : ResponseBatch β → Prop} :
    ∀ c c' : Client β, Next retention admits c c' → Consistent c → Consistent c' := by
  rintro c c' (hs | ⟨response, -, hs⟩ | hs | hs | hs | hs | hs) h
  · exact connect_consistent hs h
  · exact respond_consistent hs h
  · exact allocate_consistent hs h
  · exact execute_consistent hs h
  · exact deliver_consistent hs h
  · exact commitHandle_consistent hs h
  · exact crash_consistent hs h

end Steps

/-- While a client executes an action of its queue, whatever the server sent and however often
the client crashed: the search for a pruning point does not panic, and a reorg with watermarks
in the buffer takes back at least one id, none up to the recovery point and not its own. -/
theorem reorg_takes_back (retention : Nat) (c : Client β)
    (h : Reachable Init (Next retention fun _ => True) c) (s : Session β)
    (hs : c.session = some s) (hfailed : s.failed = false) (id : Nat)
    (halloc : s.allocated = some id) (action : StreamAction β) (rest : List (StreamAction β))
    (hqueue : s.queue = action :: rest) :
    s.container.execute retention id action ≠ .error .panicked ∧
    ∀ previous incoming invalidation done,
      action = .message (.reorg previous incoming invalidation) → s.container.buffer ≠ [] →
      s.container.execute retention id action = .ok done →
      ∃ e range, findRecoveryPoint s.container.buffer invalidation = some e ∧
        done.event = .undo id (.reorg invalidation) range ∧ range.start ≤ range.stop ∧
        ∀ i, range.start ≤ i → i ≤ range.stop → e.1 < i ∧ i ≠ id := by
  have hinv := init_invariant Init (Next retention fun _ => True) Consistent init_consistent
    step_consistent c h
  have hfits := hinv.session s hs
  have hbook := hinv.book.session s hs
  have hqueued := hfits.queued hfailed
  rw [hqueue] at hqueued
  constructor
  · exact execute_never_panics hqueued (hfits.previous hfailed)
  rintro previous incoming invalidation done rfl hne hdone
  rcases hqueued.reorg_jumps with ⟨hvalid, hjumps, rfl, hup⟩
  rcases executeReorg_range halloc (hbook.allocated id halloc).2.2.2 hbook.ascending hvalid
    hjumps hup hne hdone with ⟨e, hrecovery, hevent, hlt⟩
  refine ⟨e, ⟨e.1 + 1, id - 1⟩, hrecovery, hevent, ?_, ?_⟩
  · show e.1 + 1 ≤ id - 1
    omega
  · intro i hstart hstop
    have hstart : e.1 + 1 ≤ i := hstart
    have hstop : i ≤ id - 1 := hstop
    omega

/-- A watermark of two networks. -/
def twoNetworks (start stop : Nat) (hash prevHash : BlockHash) : ResponseBatch Unit :=
  ⟨(), [⟨⟨start, stop⟩, "mainnet", hash, some prevHash⟩,
    ⟨⟨start, stop⟩, "base", hash, some prevHash⟩], true⟩

/-- Two watermarks that are committed, a crash, and a reorg of one of the two networks. -/
def reorgedInputs : List (Input Unit) :=
  [.connect, .respond (twoNetworks 1 9 9 1), .allocate, .execute, .deliver,
    .respond (twoNetworks 10 19 19 9), .allocate, .execute, .deliver, .commit 1, .crash, .connect,
    .respond ⟨(), [⟨⟨10, 14⟩, "mainnet", 114, some 9⟩, ⟨⟨20, 29⟩, "base", 29, some 19⟩], false⟩,
    .allocate]

theorem reorg_takes_back_one : ∃ (c : Client Unit) (s : Session Unit) (done : Executed Unit),
    Reachable Init (Next 128 fun _ => True) c ∧ c.session = some s ∧
      s.container.buffer.map (·.1) = [0, 1] ∧
      done.event = .undo 2 (.reorg [⟨"mainnet", ⟨10, 19⟩⟩]) ⟨1, 1⟩ ∧
      ∃ e range, findRecoveryPoint s.container.buffer [⟨"mainnet", ⟨10, 19⟩⟩] = some e ∧
        done.event = .undo 2 (.reorg [⟨"mainnet", ⟨10, 19⟩⟩]) range ∧ range.start ≤ range.stop ∧
        ∀ i, range.start ≤ i → i ≤ range.stop → e.1 < i ∧ i ≠ 2 := by
  obtain ⟨c, s, previous, incoming, rest, done, hrun, hs, hfailed, halloc, hqueue, hdone, hbuffer,
      hevent⟩ : ∃ c s previous incoming rest done,
      performAll 128 (initial : Client Unit) reorgedInputs = some c ∧ c.session = some s ∧
        s.failed = false ∧ s.allocated = some 2 ∧
        s.queue = .message (.reorg previous incoming [⟨"mainnet", ⟨10, 19⟩⟩]) :: rest ∧
        s.container.execute 128 2
          (.message (.reorg previous incoming [⟨"mainnet", ⟨10, 19⟩⟩])) = .ok done ∧
        s.container.buffer.map (·.1) = [0, 1] ∧
        done.event = .undo 2 (.reorg [⟨"mainnet", ⟨10, 19⟩⟩]) ⟨1, 1⟩ :=
    ⟨_, _, _, _, _, _, rfl, rfl, rfl, rfl, rfl, rfl, rfl, rfl⟩
  have hreach : Reachable Init (Next 128 fun _ => True) c :=
    performAll_reachable (.init rfl) (fun _ _ => trivial) hrun
  have hne : s.container.buffer ≠ [] := by
    intro hnil
    rw [hnil] at hbuffer
    cases hbuffer
  have hback := (reorg_takes_back 128 c hreach s hs hfailed 2 halloc _ rest hqueue).2
  exact ⟨c, s, done, hreach, hs, hbuffer, hevent, hback previous incoming _ done rfl hne hdone⟩

end Client

end CampNode

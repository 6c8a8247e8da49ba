import CampNode.Client.Ordered

/-!
# CampNode.Client.Replay — what a reorg undoes and what is sent again

A reorg recovers to a watermark: the consumer undoes everything that came after it,
and the response that brought the reorg follows. No block is lost if this response
starts, in every network, with the block after the watermark. The actor only checks
that the reorg does not start inside the ranges of the watermark, so that it can
undo more than is sent again.

The main result says when nothing is lost. For every watermark that is kept, the
ranges sent after it start, network by network, right after the watermark and stay
above it. A reorg that recovers to the watermark therefore replays everything if and
only if it starts no later than anything that was delivered after the watermark.
-/

namespace CampNode

open List

variable {β : Type}

/-- The block ranges that come with an event. -/
def TransactionEvent.ranges : TransactionEvent β → List BlockRange
  | .data _ _ ranges => ranges
  | .undo _ _ _ => []
  | .watermark _ ranges _ => ranges

/-- Responses whose ranges hold a block and have a successor. -/
def Sound (response : ResponseBatch β) : Prop :=
  ∀ q ∈ response.ranges, GoodRange q.network q

/-! ## Statements about a reorg -/

namespace Client

/-- The execution of a reorg that recovers to the watermark `e`. -/
def Recovers (e : BufferEntry) (incoming : List BlockRange) : Action (Client β) := fun c c' =>
  ∃ s id old invalidation rest done, c.session = some s ∧ s.failed = false ∧ s.allocated = some id ∧
    s.queue = .message (.reorg old incoming invalidation) :: rest ∧
    findRecoveryPoint s.container.buffer invalidation = some e ∧
    s.container.executeReorg id invalidation = .ok done ∧
    c' = { c with
      store := c.store.after done
      session := some { s with
        container := done.container
        queue := rest
        allocated := none
        outbox := some done.event } }

/-- The next message starts, in every network of the ranges, with the block after
them. -/
def Replays (ranges : List BlockRange) (c : Client β) : Prop :=
  ∃ (s : Session β) (response : ResponseBatch β), c.session = some s ∧
    s.queue = [.message response.message] ∧
    ∀ w ∈ ranges, ∃ q ∈ response.ranges, q.network = w.network ∧ q.start = w.stop + 1

end Client

/-- In no network do the incoming ranges repeat the watermark or start after
something that was delivered later than the watermark. -/
def Aligned (delivered : List (TransactionEvent β)) (e : BufferEntry)
    (incoming : List BlockRange) : Prop :=
  ∀ w ∈ e.2, ∀ q ∈ incoming, q.network = w.network → q ≠ w ∧
    ∀ event ∈ delivered, e.1 < event.id → ∀ r ∈ event.ranges, r.network = w.network → r ≠ w →
      q.start ≤ r.start

/-! ## Ranges against a watermark -/

/-- Ranges that hold blocks, one for each network. -/
structure SoundRanges (ranges : List BlockRange) : Prop where
  good : ∀ q ∈ ranges, GoodRange q.network q
  distinct : (ranges.map (·.network)).Nodup

/-- Every network of the first list is in the second. -/
def CoversNetworks (older newer : List BlockRange) : Prop :=
  ∀ w ∈ older, ∃ p ∈ newer, p.network = w.network

variable (events : List (TransactionEvent β))

/-- After transaction `tx`, the block after the range was sent. -/
def Started (tx : Nat) (w : BlockRange) : Prop :=
  ∃ event ∈ events, tx < event.id ∧ ∃ r ∈ event.ranges, r.network = w.network ∧ r.start = w.stop + 1

/-- The ranges are those of the watermark, or above them with no gap in what was
sent. -/
def Past (e : BufferEntry) (ranges : List BlockRange) : Prop :=
  ∀ w ∈ e.2, ∀ p ∈ ranges, p.network = w.network → p = w ∨ w.stop < p.start ∧ Started events e.1 w

/-- The same once the ranges themselves have been sent. -/
def Reaches (e : BufferEntry) (ranges : List BlockRange) : Prop :=
  ∀ w ∈ e.2, ∀ q ∈ ranges, q.network = w.network →
    q = w ∨ w.stop < q.start ∧ (q.start = w.stop + 1 ∨ Started events e.1 w)

variable {ranges previous : List BlockRange} {events events' : List (TransactionEvent β)}
  {e : BufferEntry}

theorem SoundRanges.eq_of_network (h : SoundRanges ranges) {p q : BlockRange} (hp : p ∈ ranges)
    (hq : q ∈ ranges) (hnet : p.network = q.network) : p = q :=
  inj_on_of_nodup_map h.distinct hp hq hnet

theorem CoversNetworks.trans {a b c : List BlockRange} (hab : CoversNetworks a b)
    (hbc : CoversNetworks b c) : CoversNetworks a c := by
  intro w hw
  rcases hab w hw with ⟨p, hp, hpw⟩
  rcases hbc p hp with ⟨q, hq, hqp⟩
  exact ⟨q, hq, hqp.trans hpw⟩

theorem Started.mono {tx tx' : Nat} {w : BlockRange} (h : Started events tx w)
    (hevents : ∀ event ∈ events, tx < event.id → event ∈ events') (htx : tx' ≤ tx) :
    Started events' tx' w := by
  rcases h with ⟨event, he, hlt, hr⟩
  exact ⟨event, hevents event he hlt, by omega, hr⟩

theorem Past.mono (h : Past events e ranges)
    (hevents : ∀ event ∈ events, e.1 < event.id → event ∈ events') : Past events' e ranges := by
  intro w hw p hp hnet
  rcases h w hw p hp hnet with heq | ⟨hlt, hstarted⟩
  · exact .inl heq
  · exact .inr ⟨hlt, hstarted.mono hevents (Nat.le_refl _)⟩

theorem Reaches.mono (h : Reaches events e ranges)
    (hevents : ∀ event ∈ events, e.1 < event.id → event ∈ events') : Reaches events' e ranges := by
  intro w hw q hq hnet
  rcases h w hw q hq hnet with heq | ⟨hlt, hnext | hstarted⟩
  · exact .inl heq
  · exact .inr ⟨hlt, .inl hnext⟩
  · exact .inr ⟨hlt, .inr (hstarted.mono hevents (Nat.le_refl _))⟩

theorem Past.reaches (h : Past events e ranges) : Reaches events e ranges := by
  intro w hw p hp hnet
  rcases h w hw p hp hnet with heq | ⟨hlt, hstarted⟩
  · exact .inl heq
  · exact .inr ⟨hlt, .inr hstarted⟩

/-- The ranges of an event are past the watermark once the event is sent. -/
theorem Reaches.past {event : TransactionEvent β} (h : Reaches events e event.ranges)
    (hid : e.1 < event.id) :
    Past (event :: events) e event.ranges := by
  intro w hw q hq hnet
  rcases h w hw q hq hnet with heq | ⟨hlt, hnext | hstarted⟩
  · exact .inl heq
  · exact .inr ⟨hlt, event, mem_cons_self, hid, q, hq, hnet, hnext⟩
  · exact .inr ⟨hlt, hstarted.mono (fun _ he _ => mem_cons_of_mem _ he) (Nat.le_refl _)⟩

/-- What reaches past a later watermark reaches past an earlier one. -/
theorem Past.trans {e e' : BufferEntry} (h : Past events e e'.2) (hcovers : CoversNetworks e.2 e'.2)
    (hgood : SoundRanges e'.2) (hid : e.1 ≤ e'.1)
    (hevents : ∀ event ∈ events, e.1 < event.id → event ∈ events')
    (hreaches : Reaches events' e' ranges) : Reaches events' e ranges := by
  intro w hw q hq hnet
  rcases hcovers w hw with ⟨w', hw', hnet'⟩
  have hvalid := (hgood.good w' hw').valid
  have hq' := hreaches w' hw' q hq (hnet.trans hnet'.symm)
  rcases h w hw w' hw' hnet' with rfl | ⟨hlt, hstarted⟩
  · rcases hq' with heq | ⟨hgt, hnext | hlater⟩
    · exact .inl heq
    · exact .inr ⟨hgt, .inl hnext⟩
    · exact .inr ⟨hgt, .inr (hlater.mono (fun _ he _ => he) hid)⟩
  · have hstarted' := hstarted.mono hevents (Nat.le_refl _)
    rcases hq' with rfl | ⟨hgt, -⟩
    · exact .inr ⟨hlt, .inr hstarted'⟩
    · exact .inr ⟨by omega, .inr hstarted'⟩

/-! ## Accepted responses -/

/-- The networks of an accepted response are those of the ranges before. -/
theorem accepted_covers (h : validateNetworks previous ranges = .ok ()) :
    CoversNetworks previous ranges := by
  intro w hw
  have hmem : w.network ∈ networks ranges :=
    (validateNetworks_perm h (ne_nil_of_mem hw)).mem_iff.mpr (mem_map_of_mem hw)
  rcases mem_map.mp hmem with ⟨q, hq, hnet⟩
  exact ⟨q, hq, hnet⟩

theorem ofNetwork_of_mem (h : SoundRanges ranges) {p : BlockRange} (hp : p ∈ ranges) :
    ofNetwork ranges p.network = some p :=
  ofNetwork_of_nodup h.distinct hp

/-- An accepted range repeats the one before, continues it or is invalidating. -/
theorem accepted_range (hprevious : SoundRanges previous)
    (h : validateResponse previous ranges = .ok ()) {p q : BlockRange} (hp : p ∈ previous)
    (hq : q ∈ ranges) (hnet : q.network = p.network) :
    q = p ∨ q.start = p.stop + 1 ∨
      ∃ stop, invalidationOf previous q = some ⟨q.network, ⟨q.start, stop⟩⟩ ∧ q.start ≤ p.stop := by
  rcases validateResponse_ok h with ⟨hhashes, -, hsteps⟩
  have hgood := hprevious.good p hp
  have hof : ofNetwork previous q.network = some p := by
    rw [hnet]
    exact ofNetwork_of_mem hprevious hp
  cases hsteps q hq p hof with
  | repeats heq => exact .inl heq
  | continues hne hnext hhash =>
    exact .inr (.inl (start_of_continues hgood (hhashes q hq) hnext hhash))
  | rewinds hne hlt hhash =>
    refine .inr (.inr ⟨max q.stop p.stop, ?_, ?_⟩)
    · unfold invalidationOf
      simp only [hof, if_neg hne, if_pos hlt]
    · have hle : nextBlock p.stop ≤ p.stop + 1 := Nat.mod_le _ _
      omega

/-- Without an invalidating range, what is past a watermark stays past it. -/
theorem Past.reaches_accepted (h : Past events e previous) (hcovers : CoversNetworks e.2 previous)
    (hprevious : SoundRanges previous) (hvalid : validateResponse previous ranges = .ok ())
    (hforward : ∀ w ∈ e.2, ∀ q ∈ ranges, q.network = w.network →
      invalidationOf previous q ≠ none → w.stop < q.start) : Reaches events e ranges := by
  intro w hw q hq hnet
  rcases hcovers w hw with ⟨p, hp, hpnet⟩
  have hgood := hprevious.good p hp
  have hvalidp := hgood.valid
  have hpast := h w hw p hp hpnet
  rcases accepted_range hprevious hvalid hp hq (hnet.trans hpnet.symm) with
    rfl | hnext | ⟨stop, hinv, hle⟩
  · exact (h.reaches) w hw q hp hnet
  · rcases hpast with rfl | ⟨hlt, hstarted⟩
    · exact .inr ⟨by omega, .inl hnext⟩
    · exact .inr ⟨by omega, .inr hstarted⟩
  · have hlt := hforward w hw q hq hnet (by simp [hinv])
    rcases hpast with rfl | ⟨-, hstarted⟩
    · omega
    · exact .inr ⟨hlt, .inr hstarted⟩

/-! ## The recovery point -/

theorem mem_invalidation {i : InvalidationRange}
    (h : i ∈ ranges.filterMap (invalidationOf previous)) :
    ∃ q ∈ ranges, i.network = q.network ∧ i.numbers.start = q.start := by
  rcases mem_filterMap.mp h with ⟨q, hq, hi⟩
  rcases invalidationOf_some hi with ⟨prev, -, -, hnetwork, hstart⟩
  exact ⟨q, hq, hnetwork, hstart⟩

/-- A reorg that leaves a watermark unaffected and is not partial starts above it. -/
theorem recovered_lt (hranges : SoundRanges ranges) {w q : BlockRange} {ws : List BlockRange}
    (hunaffected : affected (ranges.filterMap (invalidationOf previous)) ws = false)
    (hwhole : partialReorg (ranges.filterMap (invalidationOf previous)) ws = false) (hw : w ∈ ws)
    (hq : q ∈ ranges) (hnet : q.network = w.network) (hinv : invalidationOf previous q ≠ none) :
    w.stop < q.start := by
  rcases Option.ne_none_iff_exists'.mp hinv with ⟨i, hi⟩
  have hmem : i ∈ ranges.filterMap (invalidationOf previous) := mem_filterMap.mpr ⟨q, hq, hi⟩
  -- every entry of the network starts where the incoming range does
  have hstart : ∀ j ∈ ranges.filterMap (invalidationOf previous), j.network = w.network →
      j.numbers.start = q.start := by
    intro j hj hjnet
    rcases mem_invalidation hj with ⟨q', hq', hnet', hstart'⟩
    rw [hstart', hranges.eq_of_network hq' hq (by rw [← hnet', hjnet, hnet])]
  have hinet : i.network = w.network := by
    rcases mem_invalidation (mem_filterMap.mpr ⟨q, mem_singleton_self q, hi⟩) with
      ⟨q', hq', hnet', -⟩
    rw [hnet', mem_singleton.mp hq', hnet]
  have haffected : ¬ q.start ≤ w.start := by
    intro hle
    have h := any_eq_false.mp hunaffected w hw
    unfold reorgPoint at h
    cases hfind : (ranges.filterMap (invalidationOf previous)).reverse.find?
        (·.network == w.network) with
    | none =>
      have := find?_eq_none.mp hfind i (mem_reverse.mpr hmem)
      simp [hinet] at this
    | some j =>
      have hj := mem_reverse.mp (mem_of_find?_eq_some hfind)
      rw [hfind] at h
      simp [hstart j hj (by simpa using find?_some hfind), hle] at h
  have hpartial : ¬ (w.start < q.start ∧ q.start ≤ w.stop) := by
    rintro ⟨hlt, hle⟩
    have h := any_eq_false.mp hwhole w hw
    cases hfind : (ranges.filterMap (invalidationOf previous)).find? (·.network == w.network) with
    | none =>
      have := find?_eq_none.mp hfind i hmem
      simp [hinet] at this
    | some j =>
      have hj := mem_of_find?_eq_some hfind
      rw [hfind] at h
      simp [hstart j hj (by simpa using find?_some hfind), hlt, hle] at h
  omega

/-! ## The invariant -/

/-- The events up to an id. -/
def upTo (events : List (TransactionEvent β)) (id : Nat) : List (TransactionEvent β) :=
  events.filter fun event => decide (event.id ≤ id)

theorem mem_upTo {id : Nat} {event : TransactionEvent β} :
    event ∈ upTo events id ↔ event ∈ events ∧ event.id ≤ id := by
  simp [upTo]

namespace Client

/-- Everything sent after a watermark lies above it or repeats it, and so do later
watermarks. -/
structure Anchored (c : Client β) (e : BufferEntry) : Prop where
  sound : SoundRanges e.2
  sent : ∀ event ∈ c.emitted, e.1 < event.id → ∀ w ∈ e.2, ∀ r ∈ event.ranges,
    r.network = w.network → r = w ∨ w.stop < r.start
  later : ∀ e', c.Holds e' → e.1 < e'.1 →
    CoversNetworks e.2 e'.2 ∧ Past (upTo c.emitted e'.1) e e'.2

/-- The ranges are past everything that is kept. -/
structure Frontier (c : Client β) (ranges : List BlockRange) : Prop where
  sound : SoundRanges ranges
  covers : ∀ e, c.Holds e → CoversNetworks e.2 ranges
  past : ∀ e, c.Holds e → Past c.emitted e ranges

/-- What is left to execute of the last response. -/
inductive Pending (c : Client β) (s : Session β) : Prop where
  | settled : s.queue = [] ∨ s.queue = [.rewind] → Frontier c s.previous → Pending c s
  | message (response : ResponseBatch β) : s.queue = [.message response.message] →
      response.ranges = s.previous → SoundRanges s.previous →
      (∀ e, c.Holds e → CoversNetworks e.2 s.previous ∧ Reaches c.emitted e s.previous) →
      Pending c s
  | reorg (old : List BlockRange) (response : ResponseBatch β) :
      s.queue = [.message (.reorg old s.previous (s.previous.filterMap (invalidationOf old))),
        .message response.message] →
      response.ranges = s.previous → SoundRanges s.previous →
      validateResponse old s.previous = .ok () → Frontier c old → Pending c s

structure Replayable (c : Client β) : Prop where
  anchored : ∀ e, c.Holds e → Anchored c e
  stored : ∀ e ∈ c.store.buffer, ∃ event ∈ c.delivered, e.1 ≤ event.id
  session : ∀ s ∈ c.session, s.failed = false → Pending c s

section Steps

variable {c c' : Client β}

theorem Frontier.frame (h : Frontier c ranges) (hquiet : Quiet c c') : Frontier c' ranges := by
  refine ⟨h.sound, ?_, ?_⟩
  · intro e he
    exact h.covers e (hquiet.holds e he)
  · intro e he
    rw [hquiet.emitted]
    exact h.past e (hquiet.holds e he)

theorem Pending.frame {s s' : Session β} (h : Pending c s) (hquiet : Quiet c c')
    (hqueue : s'.queue = s.queue) (hprevious : s'.previous = s.previous) : Pending c' s' := by
  cases h with
  | settled hq hfrontier =>
    exact .settled (by rw [hqueue]; exact hq) (by rw [hprevious]; exact hfrontier.frame hquiet)
  | message response hq hranges hsound hreaches =>
    rw [← hprevious] at hranges hsound hreaches
    refine .message response (hqueue.trans hq) hranges hsound ?_
    intro e he
    rw [hquiet.emitted]
    exact hreaches e (hquiet.holds e he)
  | reorg old response hq hranges hsound hvalid hfrontier =>
    rw [← hprevious] at hq hranges hsound hvalid
    exact .reorg old response (hqueue.trans hq) hranges hsound hvalid (hfrontier.frame hquiet)

/-- A step that sends no event and keeps no new watermark. -/
theorem Replayable.frame (h : c.Replayable) (hquiet : Quiet c c')
    (hstored : ∀ e ∈ c'.store.buffer, ∃ event ∈ c'.delivered, e.1 ≤ event.id)
    (hsession : ∀ s ∈ c'.session, s.failed = false → Pending c' s) : c'.Replayable := by
  refine ⟨?_, hstored, hsession⟩
  intro e he
  have hanchored := h.anchored e (hquiet.holds e he)
  refine ⟨hanchored.sound, ?_, ?_⟩
  · rw [hquiet.emitted]
    exact hanchored.sent
  · intro e' he'
    rw [hquiet.emitted]
    exact hanchored.later e' (hquiet.holds e' he')

theorem connect_replayable (hstep : Connect c c') (hbook : c.Book) (h : c.Replayable) :
    c'.Replayable := by
  have hquiet := connect_quiet hstep
  rcases hstep with ⟨hnone, rfl⟩
  let c₁ : Client β := { c with session := some (openSession c.store) }
  have hstore : ∀ e, c₁.Holds e → e ∈ c.store.buffer := by
    rintro e (he | ⟨s, hs, he⟩)
    · exact he
    · cases hs
      exact he
  refine h.frame hquiet h.stored ?_
  intro s hs _
  cases hs
  refine .settled ?_ ?_
  · by_cases hrewind : needsRewind c.store = true
    · exact .inr (by simp [openSession, hrewind])
    · exact .inl (by simp [openSession, hrewind])
  show Frontier c₁ ((c.store.buffer.getLast?.map (·.2)).getD [])
  cases hlast : c.store.buffer.getLast? with
  | none =>
    have hnil : c.store.buffer = [] := getLast?_eq_none_iff.mp hlast
    refine ⟨⟨by simp, by simp⟩, ?_, ?_⟩
    all_goals
      intro e he
      have := hstore e he
      simp [hnil] at this
  | some last =>
    have hmem := mem_of_mem_getLast? hlast
    have hsound := (h.anchored last (.inl hmem)).sound
    have hcases : ∀ e, c₁.Holds e → e = last ∨ e.1 < last.1 := fun e he =>
      hbook.ascending.last hlast (hstore e he)
    refine ⟨hsound, ?_, ?_⟩
    · intro e he
      rcases hcases e he with rfl | hlt
      · exact fun w hw => ⟨w, hw, rfl⟩
      · exact ((h.anchored e (.inl (hstore e he))).later last (.inl hmem) hlt).1
    intro e he
    rw [hquiet.emitted]
    rcases hcases e he with rfl | hlt
    · intro w hw p hp hnet
      exact .inl (hsound.eq_of_network hp hw hnet)
    · refine ((h.anchored e (.inl (hstore e he))).later last (.inl hmem) hlt).2.mono ?_
      intro event hevent _
      exact (mem_upTo.mp hevent).1

theorem respond_replayable {response : ResponseBatch β} (hsound : Sound response)
    (hstep : Respond response c c') (h : c.Replayable) : c'.Replayable := by
  have hquiet := respond_quiet hstep
  rcases hstep with ⟨s, hs, hfailed, hqueue, halloc, hout, hc'⟩
  cases hmessages : protocolMessages s.previous response with
  | error err =>
    simp only [hmessages] at hc'
    subst hc'
    refine h.frame hquiet h.stored ?_
    intro s' hs' hf
    cases hs'
    cases hf
  | ok messages =>
    simp only [hmessages] at hc'
    subst hc'
    refine h.frame hquiet h.stored ?_
    intro s' hs' _
    cases hs'
    have hfrontier : Frontier c s.previous := by
      cases h.session s hs hfailed with
      | settled _ hfrontier => exact hfrontier
      | message _ hq => simp [hqueue] at hq
      | reorg _ _ hq => simp [hqueue] at hq
    rcases protocolMessages_ok hmessages with ⟨hvalid, hcases⟩
    rcases validateResponse_ok hvalid with ⟨-, hnetworks, -⟩
    have hranges : SoundRanges response.ranges := ⟨hsound, (validateNetworks_ok hnetworks).1⟩
    rcases hcases with ⟨hnil, rfl⟩ | ⟨-, rfl⟩
    · refine .message response rfl rfl hranges ?_
      intro e he
      have he' := hquiet.holds e he
      refine ⟨(hfrontier.covers e he').trans (accepted_covers hnetworks), ?_⟩
      rw [hquiet.emitted]
      refine (hfrontier.past e he').reaches_accepted (hfrontier.covers e he') hfrontier.sound
        hvalid ?_
      intro w _ q hq _ hinv
      exact absurd (filterMap_eq_nil_iff.mp hnil q hq) hinv
    · exact .reorg s.previous response rfl rfl hranges hvalid
        (hfrontier.frame hquiet)

theorem allocate_replayable (hstep : Allocate c c') (h : c.Replayable) : c'.Replayable := by
  have hquiet := allocate_quiet hstep
  rcases hstep with ⟨s, hs, hfailed, -, -, hout, rfl⟩
  refine h.frame hquiet h.stored ?_
  intro s' hs' hf
  cases hs'
  exact (h.session s hs hfailed).frame hquiet rfl rfl

theorem deliver_replayable (hstep : Deliver c c') (h : c.Replayable) : c'.Replayable := by
  have hquiet := deliver_quiet hstep
  rcases hstep with ⟨s, event, hs, hout, rfl⟩
  refine h.frame hquiet ?_ ?_
  · intro e he
    rcases h.stored e he with ⟨x, hx, hle⟩
    exact ⟨x, mem_cons_of_mem _ hx, hle⟩
  · intro s' hs' hf
    cases hs'
    exact (h.session s hs hf).frame hquiet rfl rfl

theorem commitHandle_replayable (hstep : CommitHandle c c') (hbook : c.Book) (h : c.Replayable) :
    c'.Replayable := by
  have hquiet := commitHandle_quiet hstep hbook
  rcases hstep with ⟨s, id, hs, -, hid, rfl⟩
  refine h.frame hquiet ?_ ?_
  · intro e he
    rcases commit_stored he with he | hle
    · exact h.stored e he
    · rcases (hbook.session s hs).handles id hid with ⟨x, hx, rfl⟩
      exact ⟨x, hx, hle⟩
  · intro s' hs' hf
    cases hs'
    exact (h.session s hs hf).frame hquiet rfl rfl

theorem crash_replayable (hstep : Crash c c') (hbook : c.Book) (h : c.Replayable) :
    c'.Replayable := by
  cases hstep
  refine ⟨?_, h.stored, by simp⟩
  have hstore : ∀ e, ({ c with session := none } : Client β).Holds e → e ∈ c.store.buffer := by
    rintro e (he | ⟨s, hs, -⟩)
    · exact he
    · cases hs
  intro e he
  have hanchored := h.anchored e (.inl (hstore e he))
  refine ⟨hanchored.sound, ?_, ?_⟩
  · intro event hevent
    exact hanchored.sent event (mem_append_right _ hevent)
  intro e' he' hlt
  rcases hanchored.later e' (.inl (hstore e' he')) hlt with ⟨hcovers, hpast⟩
  refine ⟨hcovers, hpast.mono ?_⟩
  -- an event that is lost comes after everything that is persisted
  intro event hevent _
  rcases mem_upTo.mp hevent with ⟨hevent, hle⟩
  refine mem_upTo.mpr ⟨?_, hle⟩
  rcases mem_append.mp hevent with hout | hdelivered
  · rcases h.stored e' (hstore e' he') with ⟨x, hx, hxle⟩
    have := (pairwise_append.mp hbook.ids).2.2 event hout x hx
    omega
  · exact hdelivered

/-- A watermark stays anchored when an event is sent that reaches past it. -/
theorem Anchored.emit {e : BufferEntry} {event : TransactionEvent β} (h : Anchored c e)
    (hemitted : c'.emitted = event :: c.emitted) (hids : ∀ x ∈ c.emitted, x.id < event.id)
    (hid : e.1 < event.id) (hreaches : Reaches c.emitted e event.ranges)
    (hholds : ∀ e', c'.Holds e' → c.Holds e' ∨
      e' = (event.id, event.ranges) ∧ CoversNetworks e.2 event.ranges) : Anchored c' e := by
  refine ⟨h.sound, ?_, ?_⟩
  · intro x hx hlt w hw r hr hnet
    rw [hemitted] at hx
    rcases mem_cons.mp hx with rfl | hx
    · rcases hreaches w hw r hr hnet with heq | ⟨hgt, -⟩
      · exact .inl heq
      · exact .inr hgt
    · exact h.sent x hx hlt w hw r hr hnet
  intro e' he' hlt
  rw [hemitted]
  rcases hholds e' he' with he' | ⟨rfl, hcovers⟩
  · rcases h.later e' he' hlt with ⟨hcovers, hpast⟩
    refine ⟨hcovers, hpast.mono ?_⟩
    intro x hx _
    rcases mem_upTo.mp hx with ⟨hx, hle⟩
    exact mem_upTo.mpr ⟨mem_cons_of_mem _ hx, hle⟩
  · refine ⟨hcovers, (hreaches.past hid).mono ?_⟩
    intro x hx _
    refine mem_upTo.mpr ⟨hx, ?_⟩
    rcases mem_cons.mp hx with rfl | hx
    · exact Nat.le_refl _
    · exact Nat.le_of_lt (hids x hx)

variable {s : Session β}

/-- What an executed action has to establish. -/
theorem executed_replayable {retention id : Nat} {action : StreamAction β}
    {rest : List (StreamAction β)} {done : Executed β} (hbook : c.Book) (h : c.Replayable)
    (hs : c.session = some s) (halloc : s.allocated = some id)
    (hdone : s.container.execute retention id action = .ok done)
    (hreaches : ∀ e ∈ s.container.buffer, Reaches c.emitted e done.event.ranges)
    (hwatermark : ∀ ranges, action = .message (.watermark ranges) → done.event.ranges = ranges ∧
      SoundRanges ranges ∧ ∀ e ∈ s.container.buffer, CoversNetworks e.2 ranges)
    (hpending : ∀ c₁ : Client β, ∀ s₁ : Session β, c₁.emitted = done.event :: c.emitted →
      (∀ e, c₁.Holds e → (e ∈ s.container.buffer ∧ ∀ n ∈ done.truncate, e.1 < n) ∨
        ∃ ranges, action = .message (.watermark ranges) ∧ e = (id, ranges)) →
      s₁.queue = rest → s₁.previous = s.previous → Pending c₁ s₁) :
    Replayable (c.executed s rest done) := by
  have hsbook := hbook.session s hs
  rcases hsbook.allocated id halloc with ⟨-, hout, hids, hentries⟩
  have hid := (execute_cases hdone).1
  have hemitted : c.emitted = c.delivered := by simp [emitted, hs, hout]
  have hemitted₁ : (c.executed s rest done).emitted = done.event :: c.emitted := by
    rw [hemitted]
    rfl
  have hholds := fun e => @executed_holds β c retention id s action rest done e hsbook hdone
  have hids' : ∀ x ∈ c.emitted, x.id < done.event.id := by
    intro x hx
    rw [hemitted] at hx
    rw [hid]
    exact hids x hx
  refine ⟨?_, ?_, ?_⟩
  · intro e he
    rcases hholds e he with ⟨hold, -⟩ | ⟨ranges, haction, rfl⟩
    · refine (h.anchored e (.inr ⟨s, hs, hold⟩)).emit hemitted₁ hids' ?_ (hreaches e hold) ?_
      · rw [hid]
        exact hentries e hold
      intro e' he'
      rcases hholds e' he' with ⟨hold', -⟩ | ⟨ranges, haction, rfl⟩
      · exact .inl (.inr ⟨s, hs, hold'⟩)
      · rcases hwatermark ranges haction with ⟨hranges, -, hcovers⟩
        refine .inr ⟨by rw [hid, hranges], ?_⟩
        rw [hranges]
        exact hcovers e hold
    · -- the new watermark has the greatest id
      refine ⟨(hwatermark ranges haction).2.1, ?_, ?_⟩
      · intro x hx hlt
        rw [hemitted₁] at hx
        rcases mem_cons.mp hx with rfl | hx
        · omega
        · have := hids' x hx
          omega
      · intro e' he' hlt
        rcases hholds e' he' with ⟨hold', -⟩ | ⟨ranges', -, rfl⟩
        · have := hentries e' hold'
          omega
        · omega
  · intro e he
    have hsub := (execute_book hdone hsbook.buffer hsbook.ascending hentries hsbook.prunes).2.1
    exact h.stored e (hsub.subset he)
  · intro s' hs' _
    cases hs'
    exact hpending _ _ hemitted₁ hholds rfl rfl

/-- The incoming ranges of a reorg reach past every watermark up to the recovery
point. -/
theorem recovered_reaches {old ranges : List BlockRange} {e e₀ : BufferEntry} (h : c.Replayable)
    (hs : c.session = some s) (hasc : Ascending s.container.buffer) (hfrontier : Frontier c old)
    (hranges : SoundRanges ranges) (hvalid : validateResponse old ranges = .ok ())
    (hrecovery : findRecoveryPoint s.container.buffer
      (ranges.filterMap (invalidationOf old)) = some e₀)
    (hwhole : partialReorg (ranges.filterMap (invalidationOf old)) e₀.2 = false)
    (he : e ∈ s.container.buffer) (hle : e.1 ≤ e₀.1) : Reaches c.emitted e ranges := by
  rcases findRecoveryPoint_some hrecovery with ⟨hmem, hunaffected⟩
  have hheld : c.Holds e₀ := .inr ⟨s, hs, hmem⟩
  have hreaches : Reaches c.emitted e₀ ranges := by
    refine (hfrontier.past e₀ hheld).reaches_accepted (hfrontier.covers e₀ hheld) hfrontier.sound
      hvalid ?_
    intro w hw q hq hnet hinv
    exact recovered_lt hranges hunaffected hwhole hw hq hnet hinv
  rcases Nat.lt_or_eq_of_le hle with hlt | heq
  · rcases (h.anchored e (.inr ⟨s, hs, he⟩)).later e₀ hheld hlt with ⟨hcovers, hpast⟩
    refine hpast.trans hcovers (h.anchored e₀ hheld).sound hle ?_ hreaches
    intro event hevent _
    exact (mem_upTo.mp hevent).1
  · have hnodup : (s.container.buffer.map Prod.fst).Nodup :=
      pairwise_map.mpr (hasc.imp fun hlt => Nat.ne_of_lt hlt)
    rw [inj_on_of_nodup_map hnodup he hmem heq]
    exact hreaches

theorem execute_replayable {retention : Nat} (hstep : Execute retention c c') (hbook : c.Book)
    (h : c.Replayable) : c'.Replayable := by
  rcases execute_inversion hstep with
    ⟨s, id, action, rest, hs, hfailed, halloc, hqueue, rfl | ⟨done, hdone, rfl⟩⟩
  · refine h.frame (.session hs rfl rfl rfl rfl rfl) h.stored ?_
    intro s' hs' hf
    cases hs'
    cases hf
  have hsbook := hbook.session s hs
  rcases hsbook.allocated id halloc with ⟨-, -, -, hentries⟩
  have hheld : ∀ e ∈ s.container.buffer, c.Holds e := fun e he => .inr ⟨s, hs, he⟩
  have hcons : ∀ (x : TransactionEvent β) {tx : Nat}, ∀ event ∈ c.emitted, tx < event.id →
      event ∈ x :: c.emitted := fun x _ event he _ => mem_cons_of_mem x he
  cases h.session s hs hfailed with
  | settled hq hfrontier =>
    rw [hqueue] at hq
    rcases hq with hq | hq
    · cases hq
    cases hq
    have hranges : done.event.ranges = [] := by
      cases hdone
      rfl
    refine executed_replayable hbook h hs halloc hdone (by simp [hranges, Reaches]) nofun ?_
    intro c₁ s₁ hemitted hholds hq hp
    refine .settled (.inl hq) ?_
    rw [hp]
    have hold : ∀ e, c₁.Holds e → c.Holds e := by
      intro e he
      rcases hholds e he with ⟨he, -⟩ | ⟨_, haction, -⟩
      · exact hheld e he
      · cases haction
    refine ⟨hfrontier.sound, fun e he => hfrontier.covers e (hold e he), ?_⟩
    intro e he
    rw [hemitted]
    exact (hfrontier.past e (hold e he)).mono (hcons done.event)
  | message response hq hprevious hsound hreaches =>
    rw [hqueue] at hq
    cases hq
    have hranges : done.event.ranges = s.previous := by
      rw [← hprevious]
      rcases (execute_message hdone).2 with ⟨batch, hevent⟩ | ⟨prune, hevent⟩
      · rw [hevent]
        rfl
      · rw [hevent]
        rfl
    have hwatermark : ∀ ranges, (.message response.message : StreamAction β) =
        .message (.watermark ranges) → ranges = s.previous := by
      intro ranges haction
      have hmessage : response.message = .watermark ranges := StreamAction.message.inj haction
      unfold ResponseBatch.message at hmessage
      split at hmessage
      · rw [← hprevious]
        exact (ProtocolMessage.watermark.inj hmessage).symm
      · cases hmessage
    refine executed_replayable hbook h hs halloc hdone ?_ ?_ ?_
    · intro e he
      rw [hranges]
      exact (hreaches e (hheld e he)).2
    · intro ranges haction
      rw [hwatermark ranges haction]
      exact ⟨hranges, hsound, fun e he => (hreaches e (hheld e he)).1⟩
    intro c₁ s₁ hemitted hholds hq hp
    refine .settled (.inl hq) ?_
    rw [hp]
    refine ⟨hsound, ?_, ?_⟩
    · intro e he
      rcases hholds e he with ⟨he, -⟩ | ⟨ranges, haction, rfl⟩
      · exact (hreaches e (hheld e he)).1
      · rw [hwatermark ranges haction]
        exact fun w hw => ⟨w, hw, rfl⟩
    intro e he
    rw [hemitted]
    rcases hholds e he with ⟨he, -⟩ | ⟨ranges, haction, rfl⟩
    · rw [← hranges]
      refine Reaches.past ?_ ?_
      · rw [hranges]
        exact (hreaches e (hheld e he)).2
      · rw [(execute_cases hdone).1]
        exact hentries e he
    · -- the new watermark is where the stream stands
      rw [hwatermark ranges haction]
      intro w hw p hp hnet
      exact .inl (hsound.eq_of_network hp hw hnet)
  | reorg old response hq hprevious hsound hvalid hfrontier =>
    rw [hqueue] at hq
    cases hq
    have hreorg : s.container.executeReorg id
        (s.previous.filterMap (invalidationOf old)) = .ok done := hdone
    have hcovers : ∀ e ∈ s.container.buffer, CoversNetworks e.2 s.previous := fun e he =>
      (hfrontier.covers e (hheld e he)).trans (accepted_covers (validateResponse_ok hvalid).2.1)
    have hranges : done.event.ranges = [] := by
      rcases executeReorg_ok hreorg with ⟨_, _, _, _, hevent⟩ | ⟨_, hevent⟩
      · rw [hevent]
        rfl
      · rw [hevent]
        rfl
    refine executed_replayable hbook h hs halloc hdone (by simp [hranges, Reaches]) nofun ?_
    intro c₁ s₁ hemitted hholds hq hp
    refine .message response hq (hprevious.trans hp.symm) (by rw [hp]; exact hsound) ?_
    intro e he
    rw [hp, hemitted]
    rcases hholds e he with ⟨he, hcut⟩ | ⟨_, haction, -⟩
    · refine ⟨hcovers e he, ?_⟩
      rcases executeReorg_ok hreorg with ⟨e₀, hrecovery, hwhole, htruncate, -⟩ | ⟨hnil, -⟩
      · have hlt := hcut (e₀.1 + 1) htruncate
        exact (recovered_reaches h hs hsbook.ascending hfrontier hsound hvalid hrecovery hwhole he
          (by omega)).mono (hcons done.event)
      · simp [hnil] at he
    · cases haction

end Steps

theorem init_replayable : ∀ c : Client β, Init c → c.Replayable := by
  rintro c rfl
  refine ⟨?_, by simp, by simp⟩
  rintro e (he | ⟨s, hs, -⟩)
  · simp at he
  · cases hs

theorem step_replayable {retention : Nat} :
    ∀ c c' : Client β, Next retention Sound c c' → c.Book ∧ c.Replayable →
      c'.Book ∧ c'.Replayable := by
  rintro c c' hnext ⟨hbook, h⟩
  refine ⟨step_book c c' hnext hbook, ?_⟩
  rcases hnext with hs | ⟨response, hr, hs⟩ | hs | hs | hs | hs | hs
  · exact connect_replayable hs hbook h
  · exact respond_replayable hr hs h
  · exact allocate_replayable hs h
  · exact execute_replayable hs hbook h
  · exact deliver_replayable hs h
  · exact commitHandle_replayable hs hbook h
  · exact crash_replayable hs hbook h

/-! ## Reorgs -/

theorem message_ranges {a b : ResponseBatch β} (h : a.message = b.message) :
    a.ranges = b.ranges := by
  unfold ResponseBatch.message at h
  split at h
  · split at h
    · exact ProtocolMessage.watermark.inj h
    · cases h
  · split at h
    · cases h
    · exact (ProtocolMessage.data.inj h).2

/-- A reorg that recovers to a watermark is an execution that sends an undo of
everything after it. -/
theorem Recovers.execute {retention : Nat} {c c' : Client β} {e : BufferEntry}
    {incoming : List BlockRange} (h : Recovers e incoming c c') :
    Execute retention c c' ∧ ∃ id cause, c'.session.bind (·.outbox) =
      some (.undo id cause ⟨e.1 + 1, id - 1⟩) := by
  rcases h with ⟨s, id, old, invalidation, rest, done, hs, hfailed, halloc, hqueue, hrecovery,
    hdone, rfl⟩
  constructor
  · refine ⟨s, id, .message (.reorg old incoming invalidation), rest, hs, hfailed, halloc, hqueue, ?_⟩
    have hexecute : s.container.execute retention id
        (.message (.reorg old incoming invalidation)) = .ok done := hdone
    rw [hexecute]
  · refine ⟨id, .reorg invalidation, ?_⟩
    rcases executeReorg_ok hdone with ⟨e', hrecovery', -, -, hevent⟩ | ⟨hnil, -⟩
    · rw [hrecovery] at hrecovery'
      cases hrecovery'
      exact congrArg some hevent
    · simp [hnil, findRecoveryPoint] at hrecovery

/-- A reorg replays everything it undoes if and only if it starts no later than
anything delivered after the watermark to which it recovers. -/
theorem undo_replays_iff {retention : Nat} {c c' : Client β} {e : BufferEntry}
    {incoming : List BlockRange} (hc : Reachable Init (Next retention Sound) c)
    (hstep : Recovers e incoming c c') : Replays e.2 c' ↔ Aligned c.delivered e incoming := by
  rcases init_invariant Init (Next retention Sound) (fun c : Client β => c.Book ∧ c.Replayable)
    (fun c hc => ⟨init_book c hc, init_replayable c hc⟩) step_replayable c hc with ⟨hbook, h⟩
  rcases hstep with ⟨s, id, old, invalidation, rest, done, hs, hfailed, halloc, hqueue, hrecovery,
    hdone, rfl⟩
  have hsbook := hbook.session s hs
  have hemitted : c.emitted = c.delivered := by
    simp [emitted, hs, (hsbook.allocated id halloc).2.1]
  have hmem := (findRecoveryPoint_some hrecovery).1
  have hanchored := h.anchored e (.inr ⟨s, hs, hmem⟩)
  cases h.session s hs hfailed with
  | settled hq _ => simp [hqueue] at hq
  | message response hq _ _ _ =>
    rw [hqueue] at hq
    have hmessage : .reorg old incoming invalidation = response.message :=
      StreamAction.message.inj (cons.inj hq).1
    unfold ResponseBatch.message at hmessage
    split at hmessage <;> cases hmessage
  | reorg old response hq hprevious hsound hvalid hfrontier =>
    rw [hqueue] at hq
    cases hq
    have hcovers : CoversNetworks e.2 s.previous := (hfrontier.covers e (.inr ⟨s, hs, hmem⟩)).trans
        (accepted_covers (validateResponse_ok hvalid).2.1)
    constructor
    · rintro ⟨s', response', hs', hq', hreplays⟩ w hw q hq hnet
      cases hs'
      have hranges : response'.ranges = s.previous := by
        rw [← hprevious]
        exact message_ranges (StreamAction.message.inj (cons.inj hq').1).symm
      rw [hranges] at hreplays
      rcases hreplays w hw with ⟨q', hq', hnet', hstart⟩
      cases hsound.eq_of_network hq hq' (hnet.trans hnet'.symm)
      have hvalidw := (hanchored.sound.good w hw).valid
      refine ⟨?_, ?_⟩
      · rintro rfl
        omega
      intro event hevent hlt r hr hrnet hne
      rcases hanchored.sent event (by rw [hemitted]; exact hevent) hlt w hw r hr hrnet with
        heq | hgt
      · exact absurd heq hne
      · omega
    · intro haligned
      refine ⟨_, response, rfl, rfl, ?_⟩
      intro w hw
      rcases hcovers w hw with ⟨q, hq, hnet⟩
      refine ⟨q, by rw [hprevious]; exact hq, hnet, ?_⟩
      rcases haligned w hw q hq hnet with ⟨hne, hdelivered⟩
      have hvalidw := (hanchored.sound.good w hw).valid
      rcases executeReorg_ok hdone with ⟨e', hrecovery', hwhole, -, -⟩ | ⟨hnil, -⟩
      · rw [hrecovery] at hrecovery'
        cases hrecovery'
        rcases recovered_reaches h hs hsbook.ascending hfrontier hsound hvalid hrecovery hwhole hmem
          (Nat.le_refl _) w hw q hq hnet with heq | ⟨hgt, hnext | ⟨event, hevent, hlt, r, hr, hrnet, hr'⟩⟩
        · exact absurd heq hne
        · exact hnext
        · -- the block after the watermark was delivered, so the reorg starts there
          rw [hemitted] at hevent
          have hle := hdelivered event hevent hlt r hr hrnet (by rintro rfl; omega)
          omega
      · simp [hnil] at hmem


/-! ### Two networks that go back to the watermark -/

instance (delivered : List (TransactionEvent β)) (e : BufferEntry) (incoming : List BlockRange) :
    Decidable (Aligned delivered e incoming) :=
  inferInstanceAs (Decidable (∀ w ∈ e.2, ∀ q ∈ incoming, q.network = w.network → q ≠ w ∧
    ∀ event ∈ delivered, e.1 < event.id → ∀ r ∈ event.ranges, r.network = w.network → r ≠ w →
      q.start ≤ r.start))

/-- A response with a range of each of two networks. -/
def twoRanges (complete : Bool) (eth base : RangeInclusive) (hash : BlockHash)
    (prevHash : Option BlockHash) : ResponseBatch Unit :=
  ⟨(), [⟨eth, "eth", hash, prevHash⟩, ⟨base, "base", hash, prevHash⟩], complete⟩

/-- A watermark, data in two steps, and a reorg of both networks to the watermark. -/
def alignedInputs : List (Input Unit) :=
  [Input.connect, .respond (twoRanges true ⟨0, 5⟩ ⟨0, 7⟩ 1 none)] ++ oneEvent ++
  [Input.respond (twoRanges false ⟨6, 10⟩ ⟨8, 9⟩ 2 (some 1))] ++ oneEvent ++
  [Input.respond (twoRanges false ⟨11, 12⟩ ⟨10, 12⟩ 3 (some 2))] ++ oneEvent ++
  [Input.respond (twoRanges false ⟨6, 9⟩ ⟨8, 11⟩ 4 (some 1)), .allocate]

theorem undo_replays_two_networks : ∃ (c c' : Client Unit) (e : BufferEntry)
    (incoming : List BlockRange), Reachable Init (Next 0 Sound) c ∧ Recovers e incoming c c' ∧
      e.2.map (·.stop) = [5, 7] ∧ Aligned c.delivered e incoming ∧ Replays e.2 c' := by
  obtain ⟨c, c', e, incoming, hrun, hstep, hstops, haligned⟩ : ∃ (c c' : Client Unit)
      (e : BufferEntry) (incoming : List BlockRange),
      performAll 0 (initial : Client Unit) alignedInputs = some c ∧ Recovers e incoming c c' ∧
        e.2.map (·.stop) = [5, 7] ∧ Aligned c.delivered e incoming :=
    ⟨_, _, _, _, rfl, ⟨_, _, _, _, _, _, rfl, rfl, rfl, rfl, rfl, rfl, rfl⟩, by decide, by decide⟩
  have hc : Reachable Init (Next 0 Sound) c := by
    refine performAll_reachable (.init rfl) ?_ hrun
    intro response h q hq
    simp [alignedInputs, oneEvent] at h
    rcases h with rfl | rfl | rfl | rfl
    all_goals
      simp only [twoRanges, mem_cons, not_mem_nil, or_false] at hq
      rcases hq with rfl | rfl
    all_goals exact ⟨rfl, by decide, by decide, by decide⟩
  exact ⟨c, c', e, incoming, hc, hstep, hstops, haligned, (undo_replays_iff hc hstep).mpr haligned⟩

/-! ### A reorg that starts late -/

/-- The watermark ends with block 5, data follows up to block 15, and the reorg starts
with block 11. -/
def lateInputs : List (Input Unit) :=
  [Input.connect, .respond (oneRange true 0 5 5 none)] ++ oneEvent ++
  [Input.respond (oneRange false 6 10 10 (some 5))] ++ oneEvent ++
  [Input.respond (oneRange false 11 15 15 (some 10))] ++ oneEvent ++
  [Input.respond (oneRange false 11 14 14 (some 11)), .allocate]

/-- The undo takes back blocks 6 to 15, and the data after it starts with block 11. -/
theorem undo_skips_blocks : ∃ (c c' : Client Unit) (e : BufferEntry) (incoming : List BlockRange),
    Reachable Init (Next 0 Sound) c ∧ Recovers e incoming c c' ∧
      c'.session.bind (·.outbox) = some (.undo 3 (.reorg [⟨"eth", ⟨11, 15⟩⟩]) ⟨1, 2⟩) ∧
      (live c.delivered).map (fun d => (d.1, d.2.map (·.numbers))) =
        [(2, [⟨11, 15⟩]), (1, [⟨6, 10⟩])] ∧
      e.2.map (·.numbers) = [⟨0, 5⟩] ∧ incoming.map (·.numbers) = [⟨11, 14⟩] ∧
      ¬ Replays e.2 c' := by
  obtain ⟨c, c', e, incoming, hrun, hstep, hundo, hlive, he, hincoming, hskips⟩ :
      ∃ (c c' : Client Unit) (e : BufferEntry) (incoming : List BlockRange),
      performAll 0 (initial : Client Unit) lateInputs = some c ∧ Recovers e incoming c c' ∧
        c'.session.bind (·.outbox) = some (.undo 3 (.reorg [⟨"eth", ⟨11, 15⟩⟩]) ⟨1, 2⟩) ∧
        (live c.delivered).map (fun d => (d.1, d.2.map (·.numbers))) =
          [(2, [⟨11, 15⟩]), (1, [⟨6, 10⟩])] ∧
        e.2.map (·.numbers) = [⟨0, 5⟩] ∧ incoming.map (·.numbers) = [⟨11, 14⟩] ∧
        ¬ Replays e.2 c' := by
    refine ⟨_, _, _, _, rfl, ⟨_, _, _, _, _, _, rfl, rfl, rfl, rfl, rfl, rfl, rfl⟩, rfl, rfl, rfl,
      rfl, ?_⟩
    rintro ⟨s, response, hs, hqueue, hreplays⟩
    cases hs
    have hranges : response.ranges = (oneRange false 11 14 14 (some 11)).ranges :=
      message_ranges (StreamAction.message.inj (cons.inj hqueue).1).symm
    rw [hranges] at hreplays
    rcases hreplays ⟨⟨0, 5⟩, "eth", 5, none⟩ (by decide) with ⟨q, hq, -, hstart⟩
    rw [mem_singleton.mp hq] at hstart
    cases hstart
  refine ⟨c, c', e, incoming, performAll_reachable (.init rfl) ?_ hrun, hstep, hundo, hlive, he,
    hincoming, hskips⟩
  intro response h q hq
  simp [lateInputs, oneEvent] at h
  rcases h with rfl | rfl | rfl | rfl
  all_goals
    rw [mem_singleton.mp hq]
    exact ⟨rfl, by decide, by decide, by decide⟩

end Client

end CampNode

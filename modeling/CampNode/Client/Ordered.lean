import CampNode.Client.Bookkeeping

/-!
# CampNode.Client.Ordered — live data is ordered

For a stream of one network, the ranges of the live data are, in the order of their
transaction ids, equal or strictly increasing, whatever the server sends, whichever
handles the consumer commits and whenever the client crashes.

The invariant says the same of every watermark that is kept anywhere, in memory or
in the store: live data with an id up to that of the watermark is equal to it or
lies below it. A crash or a reorg recovers to such a watermark.
-/

namespace CampNode

open List

variable {β : Type}

/-- `r` is `p` or ends before it. -/
def Before (r p : BlockRange) : Prop := r = p ∨ r.stop < p.start

/-- Live data in the order of ids, the latest first. -/
def Ordered (l : List (Nat × List BlockRange)) : Prop :=
  l.Pairwise fun later earlier => earlier.1 < later.1 ∧ ∀ r ∈ earlier.2, ∀ q ∈ later.2, Before r q

/-- A range of the network that holds a block and has a successor: the last block
number with a zero hash would count as the parent of a genesis block. -/
structure GoodRange (network : String) (q : BlockRange) : Prop where
  network : q.network = network
  valid : q.start ≤ q.stop
  bounded : q.stop < 2 ^ 64
  successor : ¬ (q.stop = 2 ^ 64 - 1 ∧ q.hash = 0)

/-- Responses with one range of the network. -/
def SingleNetwork (network : String) (response : ResponseBatch β) : Prop :=
  ∃ q, response.ranges = [q] ∧ GoodRange network q

instance (network : String) (q : BlockRange) : Decidable (GoodRange network q) :=
  decidable_of_iff (q.network = network ∧ q.start ≤ q.stop ∧ q.stop < 2 ^ 64 ∧
      ¬ (q.stop = 2 ^ 64 - 1 ∧ q.hash = 0))
    ⟨fun h => ⟨h.1, h.2.1, h.2.2.1, h.2.2.2⟩, fun h => ⟨h.1, h.2, h.3, h.4⟩⟩

instance (network : String) (response : ResponseBatch β) :
    Decidable (SingleNetwork network response) :=
  decidable_of_iff (response.ranges.length = 1 ∧ ∀ q ∈ response.ranges, GoodRange network q) <| by
    constructor
    · rintro ⟨hlength, hgood⟩
      rcases List.length_eq_one_iff.mp hlength with ⟨q, hq⟩
      exact ⟨q, hq, hgood q (by simp [hq])⟩
    · rintro ⟨q, hq, hgood⟩
      rw [hq]
      exact ⟨rfl, fun p hp => by rwa [List.mem_singleton.mp hp]⟩

/-- All live data is equal to the ranges or below them; without ranges there is
none. -/
structure Near (l : List (Nat × List BlockRange)) (ranges : List BlockRange) : Prop where
  before : ∀ d ∈ l, ∀ r ∈ d.2, ∀ p ∈ ranges, Before r p
  none : ranges = [] → l = []

/-! ## Accepted ranges -/

theorem Before.of_lt {r p q : BlockRange} (h : Before r p) (hp : p.start ≤ p.stop)
    (hpq : p.stop < q.start) : Before r q := by
  rcases h with rfl | h
  · exact .inr hpq
  · exact .inr (by omega)

variable {p q : BlockRange} {network : String} {evs : List (TransactionEvent β)}
  {d : Nat × List BlockRange} {id : Nat}

/-- An accepted range that continues the one before starts right after it. -/
theorem start_of_continues (hp : GoodRange network p) (hprev : validatePrevHash q = .ok ())
    (hnext : q.start = nextBlock p.stop) (hhash : q.prevHash = some p.hash) :
    q.start = p.stop + 1 := by
  have hbound := hp.bounded
  unfold nextBlock at hnext
  by_cases hmax : p.stop = 2 ^ 64 - 1
  · -- the sum wraps around, and a genesis range has no parent hash but zero
    have hzero : q.start = 0 := by omega
    have hpz : p.hash = 0 := by
      by_contra hne
      unfold validatePrevHash at hprev
      rw [if_pos hzero, hhash] at hprev
      have hset : isActuallySet (some p.hash) = true := bne_iff_ne.mpr hne
      rw [if_pos hset] at hprev
      cases hprev
    exact absurd ⟨hmax, hpz⟩ hp.successor
  · rw [hnext]
    exact Nat.mod_eq_of_lt (by omega)

theorem ofNetwork_singleton (h : p.network = q.network) : ofNetwork [p] q.network = some p := by
  simp [ofNetwork, h]

/-- How a response of one range follows the ranges before it, with the messages that it
becomes. -/
inductive AcceptedAs (network : String) (q : BlockRange) (response : ResponseBatch β) :
    List BlockRange → List (ProtocolMessage β) → Prop where
  | first : AcceptedAs network q response [] [response.message]
  | repeats : AcceptedAs network q response [q] [response.message]
  | continues (p : BlockRange) : GoodRange network p → q.start = p.stop + 1 →
      q.prevHash = some p.hash → AcceptedAs network q response [p] [response.message]
  | rewinds (p : BlockRange) : q ≠ p → q.start ≤ p.stop → AcceptedAs network q response [p]
      [.reorg [p] [q] [⟨network, ⟨q.start, max q.stop p.stop⟩⟩], response.message]

section

variable {previous : List BlockRange} {response : ResponseBatch β}
  {messages : List (ProtocolMessage β)} (hranges : response.ranges = [q]) (hq : GoodRange network q)
  (hprevious : previous = [] ∨ ∃ p, previous = [p] ∧ GoodRange network p)
  (h : protocolMessages previous response = .ok messages)
include hranges hq hprevious h

theorem accepted_as : AcceptedAs network q response previous messages := by
  rcases protocolMessages_ok h with ⟨hvalid, hmessages⟩
  rw [hranges] at hvalid hmessages
  rcases validateResponse_ok hvalid with ⟨hprev, -, hsucc⟩
  -- without a backward jump there is no reorg
  have hquiet : invalidationOf previous q = none → messages = [response.message] := by
    intro hnone
    rw [filterMap_cons_none hnone] at hmessages
    simpa using hmessages
  rcases hprevious with rfl | ⟨p, rfl, hp⟩
  · rw [hquiet rfl]
    exact .first
  have hnet : ofNetwork [p] q.network = some p :=
    ofNetwork_singleton (hp.network.trans hq.network.symm)
  have hinvalidation : invalidationOf [p] q = if q = p then none
      else if q.start < nextBlock p.stop then
        some ⟨q.network, ⟨q.start, max q.stop p.stop⟩⟩ else none := by
    unfold invalidationOf
    rw [hnet]
  cases hsucc q (by simp) p hnet with
  | repeats heq =>
    rw [if_pos heq] at hinvalidation
    rw [hquiet hinvalidation, ← heq]
    exact .repeats
  | continues hne hnext hhash =>
    rw [if_neg hne, if_neg (by omega)] at hinvalidation
    rw [hquiet hinvalidation]
    exact .continues p hp (start_of_continues hp (hprev q (by simp)) hnext hhash) hhash
  | rewinds hne hlt hhash =>
    rw [if_neg hne, if_pos hlt, hq.network] at hinvalidation
    rw [filterMap_cons_some hinvalidation] at hmessages
    have hreorg : messages = [.reorg [p] [q] [⟨network, ⟨q.start, max q.stop p.stop⟩⟩],
        response.message] := by simpa using hmessages
    have hle : q.start ≤ p.stop := by
      unfold nextBlock at hlt
      omega
    rw [hreorg]
    exact .rewinds p hne hle

/-- A response of one range is either near what the previous one was near, or comes
with a reorg that starts at its first block. -/
theorem accepted_single : (messages = [response.message] ∧ ∀ l, Near l previous → Near l [q]) ∨
      ∃ stop, messages = [.reorg previous [q] [⟨network, ⟨q.start, stop⟩⟩], response.message] := by
  cases accepted_as hranges hq hprevious h with
  | first =>
    left
    refine ⟨rfl, ?_⟩
    intro l hl
    rw [hl.none rfl]
    exact ⟨by simp, by simp⟩
  | repeats => exact .inl ⟨rfl, fun l hl => hl⟩
  | continues p hp hstart hhash =>
    left
    refine ⟨rfl, ?_⟩
    intro l hl
    refine ⟨?_, by simp⟩
    intro d hd r hr x hx
    cases mem_singleton.mp hx
    exact (hl.before d hd r hr p (by simp)).of_lt hp.valid (by omega)
  | rewinds p hne hle => exact .inr ⟨_, rfl⟩

end

/-! ## The invariant -/

/-- Live data, now or once the event on its way has arrived. -/
def Client.Seen (c : Client β) (d : Nat × List BlockRange) : Prop :=
  d ∈ live c.delivered ∨ d ∈ live c.emitted

/-- Live data up to the watermark is equal to it or below it. -/
structure Kept (network : String) (c : Client β) (e : BufferEntry) : Prop where
  good : ∃ p, e.2 = [p] ∧ GoodRange network p
  near : ∀ d, c.Seen d → d.1 ≤ e.1 → ∀ r ∈ d.2, ∀ p ∈ e.2, Before r p

/-- The message is data or a watermark with the ranges. -/
def MessageOf (ranges : List BlockRange) : ProtocolMessage β → Prop
  | .data _ r => r = ranges
  | .watermark r => r = ranges
  | .reorg _ _ _ => False

/-- What is left to execute, and where live data then stands. -/
inductive Stage (network : String) (c : Client β) (s : Session β) : Prop where
  | ready : s.queue = [] → Near (live c.emitted) s.previous → Stage network c s
  | message (m : ProtocolMessage β) : s.queue = [.message m] → MessageOf s.previous m →
      s.previous ≠ [] → Near (live c.emitted) s.previous → Stage network c s
  | reorg (old : List BlockRange) (q : BlockRange) (stop : Nat) (m : ProtocolMessage β) :
      s.queue = [.message (.reorg old [q] [⟨network, ⟨q.start, stop⟩⟩]), .message m] →
      s.previous = [q] → MessageOf [q] m → s.outbox = none → Stage network c s
  | rewind : s.queue = [.rewind] →
      s.previous = (s.container.buffer.getLast?.map (·.2)).getD [] → s.outbox = none →
      s.handles = [] → Stage network c s

structure SessionInv (network : String) (c : Client β) (s : Session β) : Prop where
  previous : s.previous = [] ∨ ∃ p, s.previous = [p] ∧ GoodRange network p
  stage : s.failed = false → Stage network c s

structure Client.Inv (network : String) (c : Client β) : Prop where
  kept : ∀ e, c.Holds e → Kept network c e
  ordered : Ordered (live c.delivered)
  pending : Ordered (live c.emitted)
  session : ∀ s ∈ c.session, SessionInv network c s

/-! ### Lemmas about live data -/

theorem live_id (h : d ∈ live evs) : ∃ e ∈ evs, e.id = d.1 := by
  induction evs with
  | nil => simp [live] at h
  | cons e evs ih =>
    cases e with
    | data id batch ranges =>
      rcases mem_cons.mp h with rfl | h
      · exact ⟨.data id batch ranges, mem_cons_self, rfl⟩
      · rcases ih h with ⟨e, he, hid⟩
        exact ⟨e, mem_cons_of_mem _ he, hid⟩
    | undo id cause invalidate =>
      rcases ih (mem_of_mem_filter h) with ⟨e, he, hid⟩
      exact ⟨e, mem_cons_of_mem _ he, hid⟩
    | watermark id ranges prune =>
      rcases ih h with ⟨e, he, hid⟩
      exact ⟨e, mem_cons_of_mem _ he, hid⟩

/-- After an undo of everything from `lo` on, what is left has a smaller id. -/
theorem mem_live_undo {id lo : Nat} {cause : Cause} (hids : ∀ e ∈ evs, e.id < id)
    (h : d ∈ live (.undo id cause ⟨lo, id - 1⟩ :: evs)) : d ∈ live evs ∧ d.1 < lo := by
  have hd : d ∈ live evs := mem_of_mem_filter h
  rcases live_id hd with ⟨e, he, hid⟩
  have hlt := hids e he
  have hout := of_mem_filter h
  simp only [Bool.not_eq_true', Bool.and_eq_false_iff, decide_eq_false_iff_not] at hout
  refine ⟨hd, ?_⟩
  omega

theorem Ordered.undo {cause : Cause} {invalidate : RangeInclusive} (h : Ordered (live evs)) :
    Ordered (live (.undo id cause invalidate :: evs)) :=
  List.Pairwise.filter _ h

/-- Data that is near keeps the order. -/
theorem Ordered.data {batch : β} {ranges : List BlockRange} (h : Ordered (live evs))
    (hids : ∀ e ∈ evs, e.id < id) (hnear : Near (live evs) ranges) :
    Ordered (live (.data id batch ranges :: evs)) := by
  refine pairwise_cons.mpr ⟨?_, h⟩
  intro d hd
  rcases live_id hd with ⟨e, he, hde⟩
  refine ⟨?_, fun r hr q hq => hnear.before d hd r hr q hq⟩
  rw [← hde]
  exact hids e he

/-- Data with one range is near that range. -/
theorem Near.data {batch : β} (h : Near (live evs) [p]) :
    Near (live (.data id batch [p] :: evs)) [p] := by
  refine ⟨?_, by simp⟩
  intro d hd r hr x hx
  rcases mem_cons.mp hd with rfl | hd
  · rw [mem_singleton.mp hr, mem_singleton.mp hx]
    exact .inl rfl
  · exact h.before d hd r hr x hx

theorem Client.Book.seen_lt {c : Client β} (h : c.Book) (hd : c.Seen d) : d.1 < c.store.next := by
  rcases hd with hd | hd
  · rcases live_id hd with ⟨e, he, hid⟩
    rw [← hid]
    exact h.fresh e (mem_append_right _ he)
  · rcases live_id hd with ⟨e, he, hid⟩
    rw [← hid]
    exact h.fresh e he

/-- A watermark stays good if only data with later ids is added. -/
theorem Kept.mono {c c' : Client β} {e : BufferEntry} (h : Kept network c e)
    (hseen : ∀ d, c'.Seen d → c.Seen d ∨ e.1 < d.1) : Kept network c' e := by
  refine ⟨h.good, ?_⟩
  intro d hd hle r hr p hp
  rcases hseen d hd with hd | hlt
  · exact h.near d hd hle r hr p hp
  · omega

/-! ## Steps -/

namespace Client

variable {network : String} {c c' : Client β}

/-- A step that sends no event and keeps no new watermark. -/
theorem Inv.frame (h : c.Inv network) (hquiet : Quiet c c')
    (hdelivered : c'.delivered = c.delivered)
    (hsession : ∀ s ∈ c'.session, SessionInv network c' s) : c'.Inv network := by
  refine ⟨?_, ?_, ?_, hsession⟩
  · intro e he
    refine (h.kept e (hquiet.holds e he)).mono ?_
    intro d hd
    unfold Seen at hd
    rw [hdelivered, hquiet.emitted] at hd
    exact .inl hd
  · rw [hdelivered]
    exact h.ordered
  · rw [hquiet.emitted]
    exact h.pending

theorem connect_inv (hstep : Connect c c') (hbook : c.Book) (h : c.Inv network) :
    c'.Inv network := by
  have hquiet := connect_quiet hstep
  rcases hstep with ⟨hnone, rfl⟩
  have hemitted' : c.emitted = c.delivered := by simp [emitted, hnone]
  refine h.frame hquiet rfl ?_
  · intro s hs
    cases hs
    refine ⟨?_, ?_⟩
    · cases hlast : c.store.buffer.getLast? with
      | none => exact .inl (by simp [openSession, hlast])
      | some last =>
        rcases (h.kept last (.inl (mem_of_mem_getLast? hlast))).good with ⟨p, hp, hgood⟩
        exact .inr ⟨p, by simp [openSession, hlast, hp], hgood⟩
    intro _
    by_cases hrewind : needsRewind c.store = true
    · exact .rewind (by simp [openSession, hrewind]) rfl rfl rfl
    -- no id was used after the last watermark
    refine .ready (by simp [openSession, hrewind]) ?_
    rw [hquiet.emitted, hemitted']
    cases hlast : c.store.buffer.getLast? with
    | none =>
      have hzero : c.store.next = 0 := by simpa [needsRewind, hlast] using hrewind
      have hnil : live c.delivered = [] := by
        refine eq_nil_iff_forall_not_mem.mpr ?_
        intro d hd
        have := hbook.seen_lt (.inl hd)
        omega
      exact ⟨by simp [hnil], fun _ => hnil⟩
    | some last =>
      have hnext : c.store.next ≤ last.1 + 1 := by simpa [needsRewind, hlast] using hrewind
      have hkept := h.kept last (.inl (mem_of_mem_getLast? hlast))
      have hprev : (openSession c.store : Session β).previous = last.2 := by
        simp [openSession, hlast]
      rw [hprev]
      refine ⟨?_, ?_⟩
      · intro d hd r hr p hp
        have := hbook.seen_lt (.inl hd)
        exact hkept.near d (.inl hd) (by omega) r hr p hp
      · intro hnil
        rcases hkept.good with ⟨p, hp, -⟩
        rw [hnil] at hp
        cases hp

theorem crash_inv (hstep : Crash c c') (h : c.Inv network) : c'.Inv network := by
  cases hstep
  refine ⟨?_, h.ordered, h.ordered, by simp⟩
  rintro e (he | ⟨s, hs, -⟩)
  · refine (h.kept e (.inl he)).mono ?_
    rintro d (hd | hd)
    · exact .inl (.inl hd)
    · exact .inl (.inl hd)
  · cases hs

theorem deliver_inv (hstep : Deliver c c') (h : c.Inv network) : c'.Inv network := by
  have hquiet := deliver_quiet hstep
  rcases hstep with ⟨s, event, hs, hout, rfl⟩
  have hemitted : c.emitted = event :: c.delivered := by simp [emitted, hs, hout]
  have hsinv := h.session s hs
  refine ⟨?_, ?_, ?_, ?_⟩
  · intro e he
    refine (h.kept e (hquiet.holds e he)).mono ?_
    -- the event was on its way
    rintro d (hd | hd)
    · exact .inl (.inr (by rw [hemitted]; exact hd))
    · rw [hquiet.emitted] at hd
      exact .inl (.inr hd)
  · rw [← hemitted]
    exact h.pending
  · rw [hquiet.emitted]
    exact h.pending
  · intro s' hs'
    cases hs'
    refine ⟨hsinv.previous, ?_⟩
    · intro hfailed
      cases hsinv.stage hfailed with
      | ready hq hnear => exact .ready hq (by rw [hquiet.emitted]; exact hnear)
      | message m hq hm hne hnear =>
        exact .message m hq hm hne (by rw [hquiet.emitted]; exact hnear)
      | reorg old q stop m hq hp hm hnone =>
        rw [hout] at hnone
        cases hnone
      | rewind hq hp hnone hhandles =>
        rw [hout] at hnone
        cases hnone

theorem respond_inv {response : ResponseBatch β} (hresponse : SingleNetwork network response)
    (hstep : Respond response c c') (h : c.Inv network) : c'.Inv network := by
  have hquiet := respond_quiet hstep
  rcases hstep with ⟨s, hs, hfailed, hqueue, halloc, hout, hc'⟩
  have hsinv := h.session s hs
  rcases hresponse with ⟨q, hranges, hq⟩
  cases hmsg : protocolMessages s.previous response with
  | error err =>
    simp only [hmsg] at hc'
    subst hc'
    refine h.frame hquiet rfl ?_
    intro s' hs'
    cases hs'
    exact ⟨hsinv.previous, by simp⟩
  | ok messages =>
    simp only [hmsg] at hc'
    subst hc'
    refine h.frame hquiet rfl ?_
    intro s' hs'
    cases hs'
    have hnear : Near (live c.emitted) s.previous := by
      cases hsinv.stage hfailed with
      | ready _ hnear => exact hnear
      | message m hq' => simp [hqueue] at hq'
      | reorg old q' stop m hq' => simp [hqueue] at hq'
      | rewind hq' => simp [hqueue] at hq'
    have hmessage : MessageOf [q] response.message := by
      unfold ResponseBatch.message
      rw [hranges]
      split
      · rfl
      · rfl
    refine ⟨.inr ⟨q, hranges, hq⟩, ?_⟩
    intro _
    rcases accepted_single hranges hq hsinv.previous hmsg with ⟨rfl, hlift⟩ | ⟨stop, rfl⟩
    · have hlive : Near (live c.emitted) response.ranges := by
        rw [hranges]
        exact hlift _ hnear
      rw [← hquiet.emitted] at hlive
      exact .message response.message rfl (by rw [hranges]; exact hmessage) (by simp [hranges]) hlive
    · exact .reorg s.previous q stop response.message rfl hranges hmessage hout

theorem allocate_inv (hstep : Allocate c c') (h : c.Inv network) : c'.Inv network := by
  have hquiet := allocate_quiet hstep
  rcases hstep with ⟨s, hs, hfailed, hqueue, halloc, hout, rfl⟩
  have hsinv := h.session s hs
  refine h.frame hquiet rfl ?_
  intro s' hs'
  cases hs'
  refine ⟨hsinv.previous, ?_⟩
  intro hf
  cases hsinv.stage hf with
  | ready hq => exact absurd hq hqueue
  | message m hq hm hne hnear => exact .message m hq hm hne (by rw [hquiet.emitted]; exact hnear)
  | reorg old q stop m hq hp hm hnone => exact .reorg old q stop m hq hp hm hnone
  | rewind hq hp hnone hhandles => exact .rewind hq hp hnone hhandles

theorem commitHandle_inv (hstep : CommitHandle c c') (hbook : c.Book) (h : c.Inv network) :
    c'.Inv network := by
  have hquiet := commitHandle_quiet hstep hbook
  rcases hstep with ⟨s, id, hs, halloc, hid, rfl⟩
  have hsinv := h.session s hs
  refine h.frame hquiet rfl ?_
  intro s' hs'
  cases hs'
  refine ⟨hsinv.previous, ?_⟩
  · intro hf
    cases hsinv.stage hf with
    | ready hq hnear => exact .ready hq (by rw [hquiet.emitted]; exact hnear)
    | message m hq hm hne hnear =>
      exact .message m hq hm hne (by rw [hquiet.emitted]; exact hnear)
    | reorg old q stop m hq hp hm hnone => exact .reorg old q stop m hq hp hm hnone
    | rewind hq hp hnone hhandles =>
      -- the rewind comes first, so that no handle has been given out
      rw [hhandles] at hid
      simp at hid

/-! ### Executing an action -/

variable {evs : List (TransactionEvent β)} {retention : Nat} {container : StateContainer}

/-- A reorg leaves only data that ends below its first block. -/
theorem executeReorg_near {id stop : Nat} {q : BlockRange} {done : Executed β}
    (hids : ∀ e ∈ evs, e.id < id)
    (hbuffer : ∀ e ∈ container.buffer, (∃ p, e.2 = [p] ∧ GoodRange network p) ∧
      ∀ d ∈ live evs, d.1 ≤ e.1 → ∀ r ∈ d.2, ∀ p ∈ e.2, Before r p)
    (h : container.executeReorg id [⟨network, ⟨q.start, stop⟩⟩] = .ok done) :
    (∃ cause lo, done.event = .undo id cause ⟨lo, id - 1⟩) ∧
      Near (live (done.event :: evs)) [q] := by
  rcases executeReorg_ok h with ⟨e, hrecovery, hpartial, -, hevent⟩ | ⟨-, hevent⟩
  · rw [hevent]
    refine ⟨⟨_, e.1 + 1, rfl⟩, ?_, by simp⟩
    intro d hd r hr x hx
    cases mem_singleton.mp hx
    rcases mem_live_undo hids hd with ⟨hd, hlt⟩
    rcases findRecoveryPoint_some hrecovery with ⟨hmem, hunaffected⟩
    rcases hbuffer e hmem with ⟨⟨p, hp, hgood⟩, hnear⟩
    -- the watermark neither starts after the reorg point nor has it inside
    have hstart : ¬ q.start ≤ p.start := by
      simpa [affected, reorgPoint, hp, hgood.network] using hunaffected
    have hinside : ¬ (p.start < q.start ∧ q.start ≤ p.stop) := by
      simpa [partialReorg, hp, hgood.network] using hpartial
    have hbefore := hnear d hd (by omega) r hr p (by simp [hp])
    exact hbefore.of_lt hgood.valid (by omega)
  · -- without a watermark everything is undone
    rw [hevent]
    refine ⟨⟨_, 0, rfl⟩, ?_, by simp⟩
    intro d hd
    have := (mem_live_undo hids hd).2
    omega

/-- A rewind leaves only data up to the last watermark. -/
theorem rewind_near {id : Nat} (hids : ∀ e ∈ evs, e.id < id)
    (hbuffer : ∀ e ∈ container.buffer, (∃ p, e.2 = [p] ∧ GoodRange network p) ∧
      ∀ d ∈ live evs, d.1 ≤ e.1 → ∀ r ∈ d.2, ∀ p ∈ e.2, Before r p) :
    Near (live (.undo id .rewind (container.rewindRange id) :: evs))
      ((container.buffer.getLast?.map (·.2)).getD []) := by
  unfold StateContainer.rewindRange
  cases hlast : container.buffer.getLast? with
  | none =>
    refine ⟨by simp, fun _ => eq_nil_iff_forall_not_mem.mpr ?_⟩
    intro d hd
    have := (mem_live_undo hids hd).2
    omega
  | some last =>
    rcases hbuffer last (mem_of_mem_getLast? hlast) with ⟨⟨p, hp, -⟩, hnear⟩
    constructor
    · intro d hd
      rcases mem_live_undo hids hd with ⟨hd, hlt⟩
      exact hnear d hd (by omega)
    · intro hnil
      simp [hp] at hnil

theorem mem_live_cons {event : TransactionEvent β} (h : d ∈ live (event :: evs)) :
    d ∈ live evs ∨ d.1 = event.id := by
  cases event with
  | data id batch ranges =>
    rcases mem_cons.mp h with rfl | h
    · exact .inr rfl
    · exact .inl h
  | undo id cause invalidate => exact .inl (mem_of_mem_filter h)
  | watermark id ranges prune => exact .inl h

/-- What an executed action has to establish. -/
theorem executed_inv {retention id : Nat} {s : Session β} {action : StreamAction β}
    {rest : List (StreamAction β)} {done : Executed β} (hbook : c.Book) (h : c.Inv network)
    (hs : c.session = some s) (halloc : s.allocated = some id)
    (hdone : s.container.execute retention id action = .ok done)
    (hpending : Ordered (live (done.event :: c.delivered)))
    (hwatermark : ∀ ranges, action = .message (.watermark ranges) →
      (∃ p, ranges = [p] ∧ GoodRange network p) ∧ Near (live c.delivered) ranges ∧
        live (done.event :: c.delivered) = live c.delivered)
    (hstage : ∀ c' : Client β, ∀ s' : Session β, c'.emitted = done.event :: c.delivered →
      s'.queue = rest → s'.previous = s.previous → Stage network c' s') :
    Inv network (c.executed s rest done) := by
  have hsinv := h.session s hs
  have hsbook := hbook.session s hs
  rcases hsbook.allocated id halloc with ⟨-, -, -, hentries⟩
  have hid := (execute_cases hdone).1
  refine ⟨?_, h.ordered, hpending, ?_⟩
  · intro e he
    rcases executed_holds hsbook hdone he with ⟨hold, -⟩ | ⟨ranges, haction, rfl⟩
    · refine (h.kept e (.inr ⟨s, hs, hold⟩)).mono ?_
      rintro d (hd | hd)
      · exact .inl (.inl hd)
      · rcases mem_live_cons hd with hd | hd
        · exact .inl (.inl hd)
        · have := hentries e hold
          exact .inr (by omega)
    · rcases hwatermark ranges haction with ⟨hgood, hnear, hsame⟩
      refine ⟨hgood, ?_⟩
      rintro d (hd | hd) -
      · exact hnear.before d hd
      · have hd' : d ∈ live (done.event :: c.delivered) := hd
        rw [hsame] at hd'
        exact hnear.before d hd'
  · intro s' hs'
    cases hs'
    exact ⟨hsinv.previous, fun _ => hstage _ _ rfl rfl rfl⟩

theorem execute_inv (hstep : Execute retention c c') (hbook : c.Book) (h : c.Inv network) :
    c'.Inv network := by
  rcases execute_inversion hstep with
    ⟨s, id, action, rest, hs, hfailed, halloc, hqueue, rfl | ⟨done, hdone, rfl⟩⟩
  · refine h.frame (.session hs rfl rfl rfl rfl rfl) rfl ?_
    intro s' hs'
    cases hs'
    exact ⟨(h.session s hs).previous, by simp⟩
  have hsinv := h.session s hs
  rcases (hbook.session s hs).allocated id halloc with ⟨-, hout, hids, -⟩
  have hemitted : c.emitted = c.delivered := by simp [emitted, hs, hout]
  have hentry : ∀ e ∈ s.container.buffer, Kept network c e :=
    fun e he => h.kept e (.inr ⟨s, hs, he⟩)
  cases hsinv.stage hfailed with
  | ready hq => simp [hqueue] at hq
  | message m hq hm hne hnear =>
    rw [hqueue] at hq
    cases hq
    rw [hemitted] at hnear
    rcases hsinv.previous with hnil | ⟨p, hprevious, hgood⟩
    · exact absurd hnil hne
    cases m with
    | data batch ranges =>
      have hranges : ranges = s.previous := hm
      subst hranges
      have hevent : done.event = .data id batch s.previous := by
        cases hdone
        rfl
      refine executed_inv hbook h hs halloc hdone ?_ (fun ranges heq => by cases heq) ?_
      · rw [hevent]
        exact h.ordered.data hids hnear
      intro c₁ s₁ he hq hp
      refine .ready hq ?_
      rw [hprevious] at hnear hevent
      rw [he, hp, hevent, hprevious]
      exact hnear.data
    | watermark ranges =>
      have hranges : ranges = s.previous := hm
      subst hranges
      have hsame : live (done.event :: c.delivered) = live c.delivered := by
        rcases executeWatermark_ok hdone with ⟨prune, -, rfl⟩
        rfl
      refine executed_inv hbook h hs halloc hdone (by rw [hsame]; exact h.ordered)
        ?_ ?_
      · intro ranges heq
        cases heq
        exact ⟨⟨p, hprevious, hgood⟩, hnear, hsame⟩
      · intro c₁ s₁ he hq hp
        refine .ready hq ?_
        rw [he, hp, hsame]
        exact hnear
    | reorg old incoming invalidation => exact hm.elim
  | reorg old q stop m hq hp hm hnone =>
    rw [hqueue] at hq
    cases hq
    have hreorg : s.container.executeReorg id [⟨network, ⟨q.start, stop⟩⟩] = .ok done := hdone
    rcases executeReorg_near hids (fun e he => ⟨(hentry e he).good,
      fun d hd => (hentry e he).near d (.inl hd)⟩) hreorg with ⟨⟨cause, lo, hevent⟩, hnear⟩
    refine executed_inv hbook h hs halloc hdone ?_ (fun ranges heq => by cases heq) ?_
    · rw [hevent]
      exact h.ordered.undo
    · intro c₁ s₁ he hq hp'
      rw [hp] at hp'
      exact .message m hq (by rw [hp']; exact hm) (by simp [hp']) (by rw [he, hp']; exact hnear)
  | rewind hq hp hnone hhandles =>
    rw [hqueue] at hq
    cases hq
    have hevent : done.event = .undo id .rewind (s.container.rewindRange id) := by
      cases hdone
      rfl
    refine executed_inv hbook h hs halloc hdone (by rw [hevent]; exact h.ordered.undo)
      (fun ranges heq => by cases heq) ?_
    intro c₁ s₁ he hq hp'
    refine .ready hq ?_
    rw [he, hp', hp, hevent]
    exact rewind_near hids fun e he =>
      ⟨(hentry e he).good, fun d hd => (hentry e he).near d (.inl hd)⟩

/-! ## Runs -/

theorem init_inv : ∀ c : Client β, Init c → c.Inv network := by
  rintro c rfl
  refine ⟨?_, List.Pairwise.nil, List.Pairwise.nil, by simp⟩
  rintro e (he | ⟨s, hs, -⟩)
  · simp at he
  · cases hs

theorem step_inv :
    ∀ c c' : Client β, Next retention (SingleNetwork network) c c' → c.Book ∧ c.Inv network →
      c'.Book ∧ c'.Inv network := by
  rintro c c' hnext ⟨hbook, h⟩
  refine ⟨step_book c c' hnext hbook, ?_⟩
  rcases hnext with hs | ⟨response, hr, hs⟩ | hs | hs | hs | hs | hs
  · exact connect_inv hs hbook h
  · exact respond_inv hr hs h
  · exact allocate_inv hs h
  · exact execute_inv hs hbook h
  · exact deliver_inv hs h
  · exact commitHandle_inv hs hbook h
  · exact crash_inv hs h

/-- At every moment of every run with ranges that hold a block, live data is ordered
and no transaction id has been used twice. -/
theorem live_ordered {retention : Nat} {c : Client β}
    (hc : Reachable Init (Next retention (SingleNetwork network)) c) :
    Ordered (live c.delivered) ∧
      c.delivered.Pairwise (fun later earlier => earlier.id < later.id) := by
  have h := init_invariant Init (Next retention (SingleNetwork network))
    (fun c => c.Book ∧ c.Inv network) (fun c hc => ⟨init_book c hc, init_inv c hc⟩) step_inv c hc
  exact ⟨h.2.ordered, (pairwise_append.mp h.1.ids).2.1⟩

/-! ### A crash and a reorg -/

instance (l : List (Nat × List BlockRange)) : Decidable (Ordered l) :=
  inferInstanceAs (Decidable (l.Pairwise fun later earlier => earlier.1 < later.1 ∧
    ∀ r ∈ earlier.2, ∀ q ∈ later.2, r = q ∨ r.stop < q.start))

/-- A response with one range. -/
def oneRange (complete : Bool) (start stop : Nat) (hash : BlockHash)
    (prevHash : Option BlockHash) : ResponseBatch Unit :=
  ⟨(), [⟨⟨start, stop⟩, "eth", hash, prevHash⟩], complete⟩

/-- The inputs that bring one message of a response to the consumer. -/
def oneEvent : List (Input Unit) := [.allocate, .execute, .deliver]

/-- Data and a watermark that is committed with the data after it; then a crash, the
rewind and a reorg. -/
def crashedInputs : List (Input Unit) :=
  [Input.connect, .respond (oneRange false 0 5 5 none)] ++ oneEvent ++
  [Input.respond (oneRange true 0 5 5 none)] ++ oneEvent ++
  [Input.respond (oneRange false 6 9 9 (some 5))] ++ oneEvent ++ [Input.commit 2, .crash, .connect] ++
  oneEvent ++ [Input.respond (oneRange false 6 8 8 (some 5))] ++ oneEvent ++
  [Input.respond (oneRange false 6 7 77 (some 55))] ++ oneEvent ++ oneEvent

theorem crashedInputs_admitted :
    ∀ response, Input.respond response ∈ crashedInputs → SingleNetwork "eth" response := by
  intro response h
  simp [crashedInputs, oneEvent] at h
  rcases h with rfl | rfl | rfl | rfl | rfl
  all_goals exact ⟨_, rfl, rfl, by decide, by decide, by decide⟩

theorem live_ordered_crashed : ∃ c : Client Unit, Reachable Init (Next 0 (SingleNetwork "eth")) c ∧
      (live c.delivered).map (·.1) = [6, 0] ∧ Ordered (live c.delivered) := by
  obtain ⟨c, hrun, hlive⟩ : ∃ c, performAll 0 (initial : Client Unit) crashedInputs = some c ∧
      (live c.delivered).map (·.1) = [6, 0] := ⟨_, rfl, by decide⟩
  have hc := performAll_reachable (.init rfl) crashedInputs_admitted hrun
  exact ⟨c, hc, hlive, (live_ordered hc).1⟩

/-! ### Ranges without a block, and the last block number -/

/-- Responses with one range of the network, with any bounds. -/
def AnyRange (network : String) (response : ResponseBatch β) : Prop :=
  ∃ q, response.ranges = [q] ∧ q.network = network ∧ q.start < 2 ^ 64 ∧ q.stop < 2 ^ 64

/-- The range from 6 to 2 is accepted after block 5, and block 3 after it. -/
def invertedInputs : List (Input Unit) :=
  [Input.connect, .respond (oneRange false 0 5 5 none)] ++ oneEvent ++
  [Input.respond (oneRange false 6 2 2 (some 5))] ++ oneEvent ++
  [Input.respond (oneRange false 3 4 4 (some 2))] ++ oneEvent

/-- After the last block number comes block 0, with a zero hash as its parent. -/
def wrappedInputs : List (Input Unit) :=
  [Input.connect, .respond (oneRange false 0 (2 ^ 64 - 1) 0 none)] ++ oneEvent ++
  [Input.respond (oneRange false 0 5 5 (some 0))] ++ oneEvent

/-- Live data overlaps after a range that ends before it starts, and, with ranges
that hold a block, after the last block number with a zero hash. -/
theorem live_overlaps :
    (∃ c : Client Unit, Reachable Init (Next 0 (AnyRange "eth")) c ∧ ¬ Ordered (live c.delivered)) ∧
    ∃ c : Client Unit, Reachable Init (Next 0 fun response =>
        AnyRange "eth" response ∧ ∀ q ∈ response.ranges, q.start ≤ q.stop) c ∧
      ¬ Ordered (live c.delivered) := by
  constructor
  · obtain ⟨c, hrun, hlive⟩ : ∃ c, performAll 0 (initial : Client Unit) invertedInputs = some c ∧
        ¬ Ordered (live c.delivered) := ⟨_, rfl, by decide⟩
    refine ⟨c, performAll_reachable (.init rfl) ?_ hrun, hlive⟩
    intro response h
    simp [invertedInputs, oneEvent] at h
    rcases h with rfl | rfl | rfl
    all_goals exact ⟨_, rfl, rfl, by decide, by decide⟩
  · obtain ⟨c, hrun, hlive⟩ : ∃ c, performAll 0 (initial : Client Unit) wrappedInputs = some c ∧
        ¬ Ordered (live c.delivered) := ⟨_, rfl, by decide⟩
    refine ⟨c, performAll_reachable (.init rfl) ?_ hrun, hlive⟩
    intro response h
    simp [wrappedInputs, oneEvent] at h
    rcases h with rfl | rfl
    all_goals exact ⟨⟨_, rfl, rfl, by decide, by decide⟩, by decide⟩

end Client

end CampNode

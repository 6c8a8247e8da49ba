import CampNode.Client.Replay
import Mathlib.Order.Interval.Set.Basic

/-!
# CampNode.Client.Held — the blocks that a consumer of the stream holds

A consumer of the protocol stream adds the ranges of every data and watermark message and
removes the invalidation ranges of every reorg message. This module follows what it then
holds of each network, through repeated ranges, forward steps and backward jumps, each
network on its own within one response.

* Behind each response the blocks of a network are one interval, and it ends where the
  accepted range ends.
* Between a reorg message and the message of its response, the interval of a network that
  jumps ends right before the jump, and the others are as before.
* A block at or above the start of a jump came with that response or a later one: blocks
  carry the number of the response they came with, and the invalidation reaches up to the
  last block that is held.

`Consumer` is not part of the client; it is the reader that the messages are meant for.
-/

namespace CampNode

open List

variable {β : Type}

/-! ## The consumer -/

/-- A block of a network, with the number of the response that it came with. -/
structure HeldBlock where
  network : String
  number : Nat
  response : Nat

/-- The blocks that are held, and how many responses have come. -/
structure Consumer where
  held : Set HeldBlock
  responses : Nat

namespace Consumer

def empty : Consumer := ⟨∅, 0⟩

variable (c : Consumer)

def add (ranges : List BlockRange) : Consumer where
  held := c.held ∪
    {b | b.response = c.responses ∧ ∃ q ∈ ranges, q.network = b.network ∧ q.Contains b.number}
  responses := c.responses + 1

def remove (invalidation : List InvalidationRange) : Consumer where
  held := {b ∈ c.held | ¬ ∃ j ∈ invalidation, j.network = b.network ∧
    j.numbers.start ≤ b.number ∧ b.number ≤ j.numbers.stop}
  responses := c.responses

def receive : ProtocolMessage β → Consumer
  | .data _ ranges => c.add ranges
  | .watermark ranges => c.add ranges
  | .reorg _ _ invalidation => c.remove invalidation

def receiveAll (messages : List (ProtocolMessage β)) : Consumer :=
  messages.foldl receive c

variable (network : String)

/-- The numbers of the blocks that are held of a network. -/
def blocks : Set Nat :=
  {n | ∃ b ∈ c.held, b.network = network ∧ b.number = n}

/-- One interval of blocks, with `last` as its last one. -/
def EndsAt (last : Nat) : Prop :=
  ∃ first ≤ last, c.blocks network = Set.Icc first last

/-- One interval of blocks, which may be empty, up to the block before `next`. -/
def EndsBefore (next : Nat) : Prop :=
  ∃ first, c.blocks network = Set.Ico first next

/-- What is held of a network from a block on came with response `i` or later. -/
def Since (start i : Nat) : Prop :=
  ∀ b ∈ c.held, b.network = network → start ≤ b.number → i ≤ b.response

theorem remove_nil : c.remove [] = c := by
  unfold remove
  simp

theorem receive_message (response : ResponseBatch β) :
    c.receive response.message = c.add response.ranges := by
  unfold ResponseBatch.message
  split <;> rfl

/-! ## Blocks of one network -/

variable {c : Consumer} {ranges : List BlockRange} {network : String}

theorem mem_blocks_add {n : Nat} : n ∈ (c.add ranges).blocks network ↔
      n ∈ c.blocks network ∨ ∃ q ∈ ranges, q.network = network ∧ q.Contains n := by
  constructor
  · rintro ⟨b, hb | ⟨-, hq⟩, rfl, rfl⟩
    · exact .inl ⟨b, hb, rfl, rfl⟩
    · exact .inr hq
  · rintro (⟨b, hb, rfl, rfl⟩ | ⟨q, hq, rfl, hn⟩)
    · exact ⟨b, .inl hb, rfl, rfl⟩
    · exact ⟨⟨q.network, n, c.responses⟩, .inr ⟨rfl, q, hq, rfl, hn⟩, rfl, rfl⟩

variable {invalidation : List InvalidationRange}

theorem mem_blocks_remove {n : Nat} :
    n ∈ (c.remove invalidation).blocks network ↔ n ∈ c.blocks network ∧
      ¬ ∃ j ∈ invalidation, j.network = network ∧ j.numbers.start ≤ n ∧ n ≤ j.numbers.stop := by
  constructor
  · rintro ⟨b, ⟨hb, hkept⟩, rfl, rfl⟩
    exact ⟨⟨b, hb, rfl, rfl⟩, hkept⟩
  · rintro ⟨⟨b, hb, rfl, rfl⟩, hkept⟩
    exact ⟨b, ⟨hb, hkept⟩, rfl, rfl⟩

theorem blocks_add_of_mem (c : Consumer) (hdistinct : (ranges.map (·.network)).Nodup)
    {q : BlockRange} (hq : q ∈ ranges) :
    (c.add ranges).blocks q.network = c.blocks q.network ∪ Set.Icc q.start q.stop := by
  ext n
  rw [mem_blocks_add]
  constructor
  · rintro (hn | ⟨q', hq', hnet, hn⟩)
    · exact .inl hn
    · rw [inj_on_of_nodup_map hdistinct hq' hq hnet] at hn
      exact .inr hn
  · rintro (hn | hn)
    · exact .inl hn
    · exact .inr ⟨q, hq, rfl, hn⟩

theorem blocks_add_of_not_mem (c : Consumer) (h : ∀ q ∈ ranges, q.network ≠ network) :
    (c.add ranges).blocks network = c.blocks network := by
  ext n
  rw [mem_blocks_add]
  constructor
  · rintro (hn | ⟨q, hq, hnet, -⟩)
    · exact hn
    · exact absurd hnet (h q hq)
  · exact .inl

theorem blocks_remove_of_not_mem (c : Consumer) (h : ∀ j ∈ invalidation, j.network ≠ network) :
    (c.remove invalidation).blocks network = c.blocks network := by
  ext n
  rw [mem_blocks_remove]
  constructor
  · exact fun hn => hn.1
  · intro hn
    refine ⟨hn, ?_⟩
    rintro ⟨j, hj, hnet, -⟩
    exact h j hj hnet

/-! ## Where blocks come from -/

theorem Since.receive {start i : Nat} (h : c.Since network start i) (hi : i ≤ c.responses)
    (message : ProtocolMessage β) :
    (c.receive message).Since network start i ∧ i ≤ (c.receive message).responses := by
  have hadd : ∀ ranges, (c.add ranges).Since network start i := by
    intro ranges b hb hnet hstart
    rcases hb with hb | ⟨hresponse, -⟩
    · exact h b hb hnet hstart
    · exact hi.trans hresponse.ge
  cases message with
  | data _ ranges => exact ⟨hadd ranges, hi.trans (Nat.le_succ _)⟩
  | watermark ranges => exact ⟨hadd ranges, hi.trans (Nat.le_succ _)⟩
  | reorg _ _ invalidation => exact ⟨fun b hb => h b hb.1, hi⟩

/-- Whatever messages come, nothing older appears again. -/
theorem Since.receiveAll {start i : Nat} (h : c.Since network start i) (hi : i ≤ c.responses)
    (messages : List (ProtocolMessage β)) :
    (c.receiveAll messages).Since network start i := by
  induction messages generalizing c with
  | nil => exact h
  | cons message rest ih =>
    obtain ⟨hsince, hresponses⟩ := h.receive hi message
    exact ih hsince hresponses

end Consumer

/-! ## Accepted responses -/

/-- The range holds a block, and its last block has a successor among the block numbers. -/
structure BlockRange.Extendable (q : BlockRange) : Prop where
  valid : q.start ≤ q.stop
  below : q.stop < 2 ^ 64 - 1

variable {q : BlockRange} {previous : List BlockRange}

theorem BlockRange.Extendable.nextBlock (h : q.Extendable) : nextBlock q.stop = q.stop + 1 := by
  have hbelow := h.below
  unfold CampNode.nextBlock
  omega

/-- A consumer that has everything up to the accepted ranges. -/
structure Consumer.Holds (c : Consumer) (ranges : List BlockRange) : Prop where
  extendable : ∀ q ∈ ranges, q.Extendable
  distinct : (ranges.map (·.network)).Nodup
  interval : ∀ q ∈ ranges, ∃ first ≤ q.start, c.blocks q.network = Set.Icc first q.stop
  only : ∀ network, (∀ q ∈ ranges, q.network ≠ network) → c.blocks network = ∅
  earlier : ∀ b ∈ c.held, b.response < c.responses

/-- The invalidation ranges of a response. -/
abbrev invalidations (previous ranges : List BlockRange) : List InvalidationRange :=
  ranges.filterMap (invalidationOf previous)

/-- A range of a network that jumps back is the only one of the network. -/
theorem invalidationOf_of_mem {previous ranges : List BlockRange} {j : InvalidationRange}
    (hdistinct : (ranges.map (·.network)).Nodup) (hq : q ∈ ranges)
    (hj : j ∈ invalidations previous ranges) (hnet : j.network = q.network) :
    invalidationOf previous q = some j := by
  obtain ⟨q', hq', hj'⟩ := mem_filterMap.mp hj
  obtain ⟨-, -, -, hnet', -⟩ := invalidationOf_some hj'
  rw [← inj_on_of_nodup_map hdistinct hq' hq (hnet'.symm.trans hnet)]
  exact hj'

/-- A range that jumps back invalidates up to the last block before or of it. -/
theorem invalidationOf_of_lt {p q : BlockRange} (hp : ofNetwork previous q.network = some p)
    (hext : p.Extendable) (hne : q ≠ p) (hle : q.start ≤ p.stop) :
    invalidationOf previous q = some ⟨q.network, ⟨q.start, max q.stop p.stop⟩⟩ := by
  have hlt : q.start < nextBlock p.stop := by
    rw [hext.nextBlock]
    exact Nat.lt_succ_of_le hle
  unfold invalidationOf
  simp only [hp, if_neg hne, if_pos hlt]

theorem invalidationOf_eq_none {p q : BlockRange} (hp : ofNetwork previous q.network = some p)
    (hext : p.Extendable) (h : q = p ∨ p.stop < q.start) : invalidationOf previous q = none := by
  unfold invalidationOf
  simp only [hp]
  split
  · rfl
  · rename_i hne
    have hnext := hext.nextBlock
    have hlt := h.resolve_left hne
    rw [if_neg (by omega)]

/-- How an accepted range stands to the one before, in block numbers. -/
theorem Succeeds.cases {p q : BlockRange} (h : Succeeds p q) (hext : p.Extendable) :
    q = p ∨ q.start = p.stop + 1 ∨ q ≠ p ∧ q.start ≤ p.stop := by
  have hnext := hext.nextBlock
  cases h with
  | repeats heq => exact .inl heq
  | continues hne hstart hhash => exact .inr (.inl (hstart.trans hnext))
  | rewinds hne hlt hhash => exact .inr (.inr ⟨hne, by omega⟩)

namespace Consumer.Holds

variable {c : Consumer} {previous ranges : List BlockRange}

section

variable (h : c.Holds previous)
include h

section

variable (hdistinct : (ranges.map (·.network)).Nodup) {p q : BlockRange} (hp : p ∈ previous)
  (hq : q ∈ ranges) (hnet : p.network = q.network)
include hdistinct hp hq hnet

/-- The jump of a network cuts off what is held of it at the start of the jump. -/
theorem remove_of_jump (hne : q ≠ p) (hle : q.start ≤ p.stop) :
    ∃ first ≤ p.start, (c.remove (invalidations previous ranges)).blocks q.network =
      Set.Ico first q.start := by
  obtain ⟨first, hfirst, hblocks⟩ := h.interval p hp
  have hof : ofNetwork previous q.network = some p := by
    rw [← hnet]
    exact ofNetwork_of_nodup h.distinct hp
  have hjump := invalidationOf_of_lt hof (h.extendable p hp) hne hle
  refine ⟨first, hfirst, ?_⟩
  ext n
  rw [mem_blocks_remove, ← hnet, hblocks, Set.mem_Icc, Set.mem_Ico]
  constructor
  · rintro ⟨⟨hlow, hhigh⟩, hkept⟩
    refine ⟨hlow, ?_⟩
    by_contra hstart
    refine hkept ⟨_, mem_filterMap.mpr ⟨q, hq, hjump⟩, hnet.symm, Nat.le_of_not_lt hstart, ?_⟩
    exact hhigh.trans (Nat.le_max_right _ _)
  · rintro ⟨hlow, hhigh⟩
    refine ⟨⟨hlow, by omega⟩, ?_⟩
    rintro ⟨j, hj, hjnet, hstart, -⟩
    have hfound := invalidationOf_of_mem hdistinct hq hj (hjnet.trans hnet)
    rw [hjump] at hfound
    cases hfound
    exact absurd hhigh (Nat.not_lt_of_le hstart)

/-- A network that does not jump keeps its blocks. -/
theorem remove_of_forward (hforward : q = p ∨ p.stop < q.start) :
    (c.remove (invalidations previous ranges)).blocks q.network = c.blocks p.network := by
  have hof : ofNetwork previous q.network = some p := by
    rw [← hnet]
    exact ofNetwork_of_nodup h.distinct hp
  rw [hnet]
  apply blocks_remove_of_not_mem
  intro j hj hjnet
  have hfound := invalidationOf_of_mem hdistinct hq hj hjnet
  rw [invalidationOf_eq_none hof (h.extendable p hp) hforward] at hfound
  cases hfound

/-- What the range of a response adds joins what is left of its network. -/
theorem interval_step (hq' : q.Extendable) (hstep : Succeeds p q) :
    ∃ first ≤ q.start, (c.remove (invalidations previous ranges)).blocks q.network ∪
      Set.Icc q.start q.stop = Set.Icc first q.stop := by
  have hvalid := hq'.valid
  have hvalidp := (h.extendable p hp).valid
  obtain ⟨first, hfirst, hblocks⟩ := h.interval p hp
  rcases hstep.cases (h.extendable p hp) with rfl | hnext | ⟨hne, hle⟩
  · -- the range is held already
    rw [h.remove_of_forward hdistinct hp hq rfl (.inl rfl), hblocks]
    refine ⟨first, hfirst, ?_⟩
    ext n
    simp only [Set.mem_union, Set.mem_Icc]
    omega
  · rw [h.remove_of_forward hdistinct hp hq hnet (.inr (by omega)), hblocks]
    refine ⟨first, by omega, ?_⟩
    ext n
    simp only [Set.mem_union, Set.mem_Icc]
    omega
  · -- a jump may go below everything that is held
    obtain ⟨first, hfirst, hleft⟩ := h.remove_of_jump hdistinct hp hq hnet hne hle
    rw [hleft]
    refine ⟨min first q.start, Nat.min_le_right _ _, ?_⟩
    ext n
    simp only [Set.mem_union, Set.mem_Icc, Set.mem_Ico]
    omega

end

/-- The messages of an accepted response keep the invariant. -/
theorem response (hext : ∀ q ∈ ranges, q.Extendable)
    (hvalid : validateResponse previous ranges = .ok ()) :
    ((c.remove (invalidations previous ranges)).add ranges).Holds ranges := by
  obtain ⟨-, hnetworks, hsteps⟩ := validateResponse_ok hvalid
  obtain ⟨hdistinct, hsame⟩ := validateNetworks_ok hnetworks
  constructor
  · exact hext
  · exact hdistinct
  · intro q hq
    rw [blocks_add_of_mem _ hdistinct hq]
    by_cases hnil : previous = []
    · -- the first response with ranges: nothing is held yet
      subst hnil
      refine ⟨q.start, Nat.le_refl _, ?_⟩
      have hnone : c.blocks q.network = ∅ := h.only q.network (by simp)
      have hno : ∀ j ∈ invalidations [] ranges, j.network ≠ q.network := by
        intro j hj
        obtain ⟨q', -, hj'⟩ := mem_filterMap.mp hj
        obtain ⟨p, hp, -⟩ := invalidationOf_some hj'
        cases hp
      rw [blocks_remove_of_not_mem c hno, hnone, Set.empty_union]
    · obtain ⟨p, hp, hnet⟩ := (hsame hnil).2 q hq
      have hof : ofNetwork previous q.network = some p := by
        rw [← hnet]
        exact ofNetwork_of_nodup h.distinct hp
      exact h.interval_step hdistinct hp hq hnet (hext q hq) (hsteps q hq p hof)
  · intro network hother
    rw [blocks_add_of_not_mem _ hother]
    have hold : c.blocks network = ∅ := by
      apply h.only
      intro p hp hnet
      obtain ⟨q, hq, hqnet⟩ := accepted_covers hnetworks p hp
      exact hother q hq (hqnet.trans hnet)
    apply Set.eq_empty_of_forall_notMem
    intro n hn
    have hn := (mem_blocks_remove.mp hn).1
    rw [hold] at hn
    exact hn
  · rintro b (⟨hb, -⟩ | ⟨hb, -⟩)
    · exact Nat.lt_succ_of_lt (h.earlier b hb)
    · exact Nat.lt_succ_of_le hb.le

/-- Every invalidation range is that of a range which jumps back. -/
theorem jump_of_invalidation {j : InvalidationRange} (hj : j ∈ invalidations previous ranges) :
    ∃ p ∈ previous, ∃ q ∈ ranges, p.network = q.network ∧ q ≠ p ∧ q.start ≤ p.stop ∧
      j.network = q.network ∧ j.numbers.start = q.start := by
  obtain ⟨q, hq, hfound⟩ := mem_filterMap.mp hj
  obtain ⟨p, hof, hlt, hjnet, hjstart⟩ := invalidationOf_some hfound
  have hp : p ∈ previous := mem_of_find?_eq_some hof
  have hpnet := find?_some hof
  have hext := h.extendable p hp
  have hle : q.start ≤ p.stop := by
    rw [hext.nextBlock] at hlt
    exact Nat.le_of_lt_succ hlt
  refine ⟨p, hp, q, hq, beq_iff_eq.mp hpnet, ?_, hle, hjnet, hjstart⟩
  intro heq
  rw [invalidationOf_eq_none hof hext (.inl heq)] at hfound
  cases hfound

end

end Consumer.Holds

/-! ## The points of a stream -/

/-- The ranges that were accepted last. -/
def rangesAfter (previous : List BlockRange) : List (ResponseBatch β) → List BlockRange
  | [] => previous
  | response :: rest => rangesAfter response.ranges rest

/-- Where a consumer of the stream is: behind the messages of the first `k` responses, or
behind the reorg message of the one after them. -/
inductive Point (previous : List BlockRange) (responses : List (ResponseBatch β)) :
    Nat → List InvalidationRange → List (ProtocolMessage β) → Prop where
  | complete {k : Nat} {received : List (ProtocolMessage β)} : k ≤ responses.length →
      protocolStream previous (responses.take k) = .ok received →
      Point previous responses k [] received
  | reorg {k : Nat} {received : List (ProtocolMessage β)} {response : ResponseBatch β}
      {invalidation : List InvalidationRange} : responses[k]? = some response →
      protocolStream previous (responses.take k) = .ok received → invalidation ≠ [] →
      Point previous responses k invalidation
        (received ++ [.reorg (rangesAfter previous (responses.take k)) response.ranges invalidation])

/-- Response `i` jumps back to block `start` of a network. -/
def JumpsBack (previous : List BlockRange) (responses : List (ResponseBatch β)) (i : Nat)
    (network : String) (start : Nat) : Prop :=
  ∃ response, responses[i]? = some response ∧
    ∃ p ∈ rangesAfter previous (responses.take i), ∃ q ∈ response.ranges,
      p.network = network ∧ q.network = network ∧ q.start = start ∧ q ≠ p ∧ q.start ≤ p.stop

/-- What is held at a point, by a consumer that was `first` at the start of the stream. -/
structure HeldAt (previous : List BlockRange) (responses : List (ResponseBatch β))
    (first now : Consumer) (k : Nat) (invalidation : List InvalidationRange) : Prop where
  ends : ∀ q ∈ rangesAfter previous (responses.take k),
    (∀ j ∈ invalidation, j.network ≠ q.network) → now.EndsAt q.network q.stop
  cut : ∀ j ∈ invalidation, now.EndsBefore j.network j.numbers.start
  only : ∀ network, (∀ q ∈ rangesAfter previous (responses.take k), q.network ≠ network) →
    now.blocks network = ∅
  since : ∀ i network start, JumpsBack previous responses i network start →
    i < k ∨ i = k ∧ invalidation ≠ [] → now.Since network start (first.responses + i)

variable {invalidation : List InvalidationRange} {rest : List (ResponseBatch β)}
  {response : ResponseBatch β}

theorem Point.next {messages received : List (ProtocolMessage β)} {k : Nat}
    (hmessages : protocolMessages previous response = .ok messages)
    (h : Point response.ranges rest k invalidation received) :
    Point previous (response :: rest) (k + 1) invalidation (messages ++ received) := by
  cases h with
  | complete hk hreceived =>
    apply Point.complete (Nat.succ_le_succ hk)
    exact protocolStream_cons.mpr ⟨messages, _, hmessages, hreceived, rfl⟩
  | reorg hresponse hreceived hne =>
    rw [← append_assoc]
    exact @Point.reorg β previous (response :: rest) (k + 1) _ _ _ hresponse
      (protocolStream_cons.mpr ⟨messages, _, hmessages, hreceived, rfl⟩) hne

namespace Consumer.Holds

variable {c : Consumer} {previous : List BlockRange}

theorem heldAt_start (h : c.Holds previous) (responses : List (ResponseBatch β)) :
    HeldAt previous responses c c 0 [] := by
  constructor
  · intro q hq _
    obtain ⟨first, hfirst, hblocks⟩ := h.interval q hq
    exact ⟨first, hfirst.trans (h.extendable q hq).valid, hblocks⟩
  · intro j hj
    cases hj
  · exact h.only
  · rintro i network start - (hlt | ⟨-, hne⟩)
    · exact absurd hlt (Nat.not_lt_zero i)
    · exact absurd rfl hne

section

variable (h : c.Holds previous) {response : ResponseBatch β} {rest : List (ResponseBatch β)}
  (hvalid : validateResponse previous response.ranges = .ok ())
include h hvalid

/-- Behind the reorg message nothing is left from the start of a jump on. -/
theorem since_jump {network : String} {start : Nat}
    (hjump : JumpsBack previous (response :: rest) 0 network start) (i : Nat) :
    (c.remove (invalidations previous response.ranges)).Since network start i := by
  obtain ⟨_, hresponse, p, hp, q, hq, hpnet, hqnet, rfl, hne, hle⟩ := hjump
  cases hresponse
  have hdistinct := (validateNetworks_ok (validateResponse_ok hvalid).2.1).1
  obtain ⟨first, -, hblocks⟩ := h.remove_of_jump hdistinct hp hq (hpnet.trans hqnet.symm) hne hle
  intro b hb hnet hstart
  have hmem : b.number ∈ (c.remove (invalidations previous response.ranges)).blocks q.network :=
    ⟨b, hb, hnet.trans hqnet.symm, rfl⟩
  rw [hblocks] at hmem
  exact absurd hstart (Nat.not_le_of_lt hmem.2)

theorem heldAt_reorg :
    HeldAt previous (response :: rest) c (c.remove (invalidations previous response.ranges)) 0
      (invalidations previous response.ranges) := by
  have hdistinct := (validateNetworks_ok (validateResponse_ok hvalid).2.1).1
  constructor
  · intro p hp hno
    obtain ⟨first, hfirst, hblocks⟩ := h.interval p hp
    refine ⟨first, hfirst.trans (h.extendable p hp).valid, ?_⟩
    rw [blocks_remove_of_not_mem c hno, hblocks]
  · intro j hj
    obtain ⟨p, hp, q, hq, hnet, hne, hle, hjnet, hjstart⟩ := h.jump_of_invalidation hj
    obtain ⟨first, -, hblocks⟩ := h.remove_of_jump hdistinct hp hq hnet hne hle
    rw [hjnet, hjstart]
    exact ⟨first, hblocks⟩
  · intro network hother
    apply Set.eq_empty_of_forall_notMem
    intro n hn
    have hn := (mem_blocks_remove.mp hn).1
    rw [h.only network hother] at hn
    exact hn
  · rintro i network start hjump (hlt | ⟨rfl, -⟩)
    · exact absurd hlt (Nat.not_lt_zero i)
    · exact h.since_jump hvalid hjump _

end

end Consumer.Holds

/-- One response more in front. The jump of this response is the only one to be added. -/
theorem HeldAt.next {first second now : Consumer} {k : Nat}
    (hcount : second.responses = first.responses + 1)
    (h : HeldAt response.ranges rest second now k invalidation)
    (hjump : ∀ network start, JumpsBack previous (response :: rest) 0 network start →
      now.Since network start first.responses) :
    HeldAt previous (response :: rest) first now (k + 1) invalidation := by
  constructor
  · exact h.ends
  · exact h.cut
  · exact h.only
  intro i network start hback hi
  cases i with
  | zero => exact hjump network start hback
  | succ i =>
    have hsince := h.since i network start hback (by
      rcases hi with hlt | ⟨heq, hne⟩
      · exact .inl (Nat.lt_of_succ_lt_succ hlt)
      · exact .inr ⟨Nat.succ.inj heq, hne⟩)
    intro b hb hnet hstart
    have hresponse := hsince b hb hnet hstart
    omega

/-- At every point of an accepted stream, and for every network, the blocks that are held are
one interval. It ends at the last accepted block, or right before a jump whose reorg message
has just come. From the start of a jump on, every block came with that response or a later
one. -/
theorem held_blocks_one_segment {previous : List BlockRange} {responses : List (ResponseBatch β)}
    {out : List (ProtocolMessage β)} {consumer : Consumer} (hstart : consumer.Holds previous)
    (hvalid : ∀ response ∈ responses, ∀ q ∈ response.ranges, q.Extendable)
    (haccepted : protocolStream previous responses = .ok out) (n : Nat) :
    ∃ k invalidation, Point previous responses k invalidation (out.take n) ∧
      HeldAt previous responses consumer (consumer.receiveAll (out.take n)) k invalidation := by
  induction responses generalizing previous consumer out n with
  | nil =>
    cases haccepted
    rw [take_nil]
    exact ⟨0, [], .complete (Nat.le_refl _) rfl, hstart.heldAt_start _⟩
  | cons response rest ih =>
    obtain ⟨messages, out', hmessages, hout', rfl⟩ := protocolStream_cons.mp haccepted
    obtain ⟨hresponse, hshape⟩ := protocolMessages_ok hmessages
    have hholds := hstart.response (hvalid response mem_cons_self) hresponse
    rw [← Consumer.receive_message] at hholds
    -- behind the messages of this response, whether or not there is a reorg among them
    have hlater : ∀ m, ∃ k invalidation,
        Point previous (response :: rest) k invalidation (messages ++ out'.take m) ∧
        HeldAt previous (response :: rest) consumer
          (((consumer.remove (invalidations previous response.ranges)).receive
            response.message).receiveAll (out'.take m)) k invalidation := by
      intro m
      obtain ⟨k, invalidation, hpoint, hheld⟩ :=
        ih hholds (fun r hr => hvalid r (mem_cons_of_mem _ hr)) hout' m
      have hcount : ((consumer.remove (invalidations previous response.ranges)).receive
          response.message).responses = consumer.responses + 1 := by
        rw [Consumer.receive_message]
        rfl
      refine ⟨k + 1, invalidation, hpoint.next hmessages, hheld.next hcount ?_⟩
      intro network start hjump
      have hsince := hstart.since_jump hresponse hjump consumer.responses
      obtain ⟨hadded, hcount⟩ := hsince.receive (Nat.le_refl _) response.message
      exact hadded.receiveAll hcount _
    rcases hshape with ⟨hnone, rfl⟩ | ⟨hsome, rfl⟩
    · cases n with
      | zero => exact ⟨0, [], .complete (Nat.zero_le _) rfl, hstart.heldAt_start _⟩
      | succ n =>
        have hnow := hlater n
        rw [show invalidations previous response.ranges = [] from hnone,
          Consumer.remove_nil] at hnow
        exact hnow
    · match n with
      | 0 => exact ⟨0, [], .complete (Nat.zero_le _) rfl, hstart.heldAt_start _⟩
      | 1 =>
        exact ⟨0, invalidations previous response.ranges,
          @Point.reorg β previous (response :: rest) 0 [] _ _ rfl rfl hsome,
          hstart.heldAt_reorg hresponse⟩
      | n + 2 => exact hlater n

/-- A client that connects for the first time holds nothing. -/
theorem Consumer.holds_empty : Consumer.empty.Holds [] := by
  constructor
  · exact nofun
  · exact nodup_nil
  · exact nofun
  · intro network _
    apply Set.eq_empty_of_forall_notMem
    rintro n ⟨b, hb, -⟩
    exact hb
  · exact nofun

/-- Two networks. The first one goes on and then jumps back, while the second one repeats its
range and then goes on. -/
def jumpingResponses : List (ResponseBatch Unit) :=
  [⟨(), [⟨⟨0, 5⟩, "eth", 1, none⟩, ⟨⟨0, 9⟩, "base", 11, none⟩], false⟩,
    ⟨(), [⟨⟨6, 8⟩, "eth", 2, some 1⟩, ⟨⟨0, 9⟩, "base", 11, none⟩], false⟩,
    ⟨(), [⟨⟨4, 7⟩, "eth", 3, some 7⟩, ⟨⟨10, 12⟩, "base", 12, some 11⟩], true⟩]

theorem held_blocks_one_segment_jumping :
    ∃ out, protocolStream [] jumpingResponses = .ok out ∧ out.length = 4 ∧
      ∀ n, ∃ k invalidation, Point [] jumpingResponses k invalidation (out.take n) ∧
        HeldAt [] jumpingResponses .empty (Consumer.empty.receiveAll (out.take n)) k
          invalidation := by
  refine ⟨_, rfl, rfl, held_blocks_one_segment Consumer.holds_empty ?_ rfl⟩
  have hall : ∀ response ∈ jumpingResponses, ∀ q ∈ response.ranges,
      q.start ≤ q.stop ∧ q.stop < 2 ^ 64 - 1 := by decide
  intro response hr q hq
  exact ⟨(hall response hr q hq).1, (hall response hr q hq).2⟩

end CampNode

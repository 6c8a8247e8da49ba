import CampNode.Streaming.Stream
import CampNode.Client.Protocol

/-!
# CampNode.Streaming.Session — a client that follows a streaming query

The messages of a streaming query become responses in `flight_data_stream`: every batch has
the range of its microbatch, and the end of the microbatch is a response of its own that says
that the range is complete. The client validates the responses (`Client.Protocol`).

A client may disconnect after any response. When it connects again it sends the watermark of
the last complete range, the server starts a new query from there, and the client validates
its responses against that range. In the meantime the server may have got another
configuration and the chain may have been reorganized.

* `genesis_with_parent_refused`, `wrapped_range_refused` — a range from block 0 on must not have
  a parent hash.
* `responses_accepted` — otherwise all responses are accepted, over any number of connections.
-/

namespace CampNode

open List CampNode.Stream

/-! ## Responses -/

inductive QueryMessage (β : Type) where
  | microbatchStart (range : BlockRange) (isReorg : Bool)
  | data (batch : β)
  | microbatchEnd (range : BlockRange)
  | blockComplete (number : Nat)

/-- A message within a microbatch. -/
def QueryMessage.Inner {β : Type} : QueryMessage β → Prop
  | .data _ => True
  | .blockComplete _ => True
  | _ => False

section Flight

variable {β : Type} (split : β → List β) (empty : β)

/-- The responses of a batch, which is split for the size of a message. -/
def batchResponses (ranges : List BlockRange) : QueryMessage β → List (ResponseBatch β)
  | .data batch => (split batch).map fun part => ⟨part, ranges, false⟩
  | _ => []

/-- The incremental branch of `flight_data_stream`, with the ranges of the microbatch that has
started. `none` is a failed assertion. -/
def flightDataStream (ranges : List BlockRange) :
    List (QueryMessage β) → Option (List (ResponseBatch β))
  | [] => some []
  | .microbatchStart range _ :: rest =>
      if ranges.isEmpty then flightDataStream (ranges ++ [range]) rest else none
  | .microbatchEnd _ :: rest =>
      if ranges.isEmpty then none
      else (flightDataStream [] rest).map fun out => ⟨empty, ranges, true⟩ :: out
  | message :: rest =>
      (flightDataStream ranges rest).map fun out => batchResponses split ranges message ++ out

/-- A microbatch as `execute` sends it. -/
structure Transfer (β : Type) where
  range : BlockRange
  isReorg : Bool
  body : List (QueryMessage β)
  inner : ∀ message ∈ body, message.Inner

def Transfer.messages (t : Transfer β) : List (QueryMessage β) :=
  .microbatchStart t.range t.isReorg :: (t.body ++ [.microbatchEnd t.range])

def Transfer.responses (t : Transfer β) : List (ResponseBatch β) :=
  t.body.flatMap (batchResponses split [t.range]) ++ [⟨empty, [t.range], true⟩]

variable {split empty}

theorem flightDataStream_inner {message : QueryMessage β} (h : message.Inner) (ranges : List BlockRange)
    (rest : List (QueryMessage β)) :
    flightDataStream split empty ranges (message :: rest) =
      (flightDataStream split empty ranges rest).map
        fun out => batchResponses split ranges message ++ out := by
  cases message with
  | microbatchStart => exact h.elim
  | microbatchEnd => exact h.elim
  | data batch => rfl
  | blockComplete number => rfl

theorem flightDataStream_body {range : BlockRange} {body : List (QueryMessage β)}
    (hbody : ∀ message ∈ body, message.Inner) (rest : List (QueryMessage β)) :
    flightDataStream split empty [range] (body ++ rest) =
      (flightDataStream split empty [range] rest).map
        fun out => body.flatMap (batchResponses split [range]) ++ out := by
  induction body with
  | nil => simp
  | cons message body ih =>
    have hrest := ih fun m hm => hbody m (mem_cons_of_mem _ hm)
    rw [cons_append, flightDataStream_inner (hbody message mem_cons_self), hrest, Option.map_map]
    simp [Function.comp_def]

/-- Microbatches in front of other messages. -/
theorem flightDataStream_append (transfers : List (Transfer β)) (rest : List (QueryMessage β)) :
    flightDataStream split empty [] (transfers.flatMap Transfer.messages ++ rest) =
      (flightDataStream split empty [] rest).map
        (transfers.flatMap (Transfer.responses split empty) ++ ·) := by
  induction transfers with
  | nil => simp
  | cons t transfers ih =>
    rw [flatMap_cons, Transfer.messages, append_assoc, cons_append, append_assoc]
    conv_lhs => unfold flightDataStream
    simp only [isEmpty_nil, if_true, nil_append]
    rw [flightDataStream_body t.inner]
    simp only [singleton_append, flightDataStream, isEmpty_cons, Bool.false_eq_true,
      if_false, ih, Option.map_map]
    simp [Transfer.responses, Function.comp_def]

/-- No assertion fails, and every response has the range of its microbatch. -/
theorem flightDataStream_transfers (transfers : List (Transfer β)) :
    flightDataStream split empty [] (transfers.flatMap Transfer.messages) =
      some (transfers.flatMap (Transfer.responses split empty)) := by
  have happend := @flightDataStream_append _ split empty transfers []
  rw [append_nil] at happend
  rw [happend]
  simp [flightDataStream]

theorem mem_responses {t : Transfer β} {r : ResponseBatch β} (h : r ∈ t.responses split empty) :
    r.ranges = [t.range] := by
  rcases mem_append.mp h with hbody | hend
  · obtain ⟨message, -, hr⟩ := mem_flatMap.mp hbody
    cases message with
    | data batch =>
      obtain ⟨part, -, rfl⟩ := mem_map.mp hr
      rfl
    | _ => cases hr
  · rw [mem_singleton.mp hend]

end Flight

/-! ## Sequences of ranges -/

/-- Every range is accepted after the one before. -/
def Accepted (previous : List BlockRange) : List BlockRange → Prop
  | [] => True
  | range :: rest => validateResponse previous [range] = .ok () ∧ Accepted [range] rest

/-- The ranges that the next response is validated against. -/
def lastRanges (previous : List BlockRange) : List BlockRange → List BlockRange
  | [] => previous
  | range :: rest => lastRanges [range] rest

theorem Accepted.snoc {previous ranges : List BlockRange} {range : BlockRange}
    (h : Accepted previous ranges)
    (hnext : validateResponse (lastRanges previous ranges) [range] = .ok ()) :
    Accepted previous (ranges ++ [range]) := by
  induction ranges generalizing previous with
  | nil => exact ⟨hnext, trivial⟩
  | cons r ranges ih => exact ⟨h.1, ih h.2 hnext⟩

variable (previous ranges : List BlockRange)

theorem lastRanges_snoc (range : BlockRange) :
    lastRanges previous (ranges ++ [range]) = [range] := by
  induction ranges generalizing previous with
  | nil => rfl
  | cons r ranges ih => exact ih [r]

theorem lastRanges_cases :
    lastRanges previous ranges = previous ∨ ∃ r ∈ ranges, lastRanges previous ranges = [r] := by
  induction ranges generalizing previous with
  | nil => exact .inl rfl
  | cons r ranges ih =>
    rcases ih [r] with heq | ⟨r', hr', heq⟩
    · exact .inr ⟨r, mem_cons_self, heq⟩
    · exact .inr ⟨r', mem_cons_of_mem _ hr', heq⟩

variable {previous : List BlockRange}

theorem validateResponse_repeat {range : BlockRange}
    (h : validateResponse previous [range] = .ok ()) : validateResponse [range] [range] = .ok () :=
  validateResponse_singleton ((validateResponse_ok h).1 range (by simp)) rfl (.repeats rfl)

/-- The client accepts the responses of microbatches whose ranges are accepted. -/
theorem Accepted.protocolStream {β : Type} {split : β → List β} {empty : β}
    {transfers : List (Transfer β)} (h : Accepted previous (transfers.map (·.range))) :
    ∃ out, protocolStream previous (transfers.flatMap (Transfer.responses split empty)) = .ok out := by
  induction transfers generalizing previous with
  | nil => exact ⟨[], rfl⟩
  | cons t transfers ih =>
    obtain ⟨hfirst, hrest⟩ := h
    rw [flatMap_cons]
    -- the first response of the microbatch is validated against the range before
    cases hresponses : t.responses split empty with
    | nil => simp [Transfer.responses] at hresponses
    | cons r responses =>
      have hranges : ∀ x ∈ r :: responses, x.ranges = [t.range] := by
        intro x hx
        rw [← hresponses] at hx
        exact mem_responses hx
      have hr : r.ranges = [t.range] := hranges r mem_cons_self
      obtain ⟨messages, hmessages⟩ := @protocolMessages_of_valid β previous r (by rw [hr]; exact hfirst)
      obtain ⟨out, hout⟩ := protocolStream_repeat
        (fun x hx => hranges x (mem_cons_of_mem _ hx)) (validateResponse_repeat hfirst) (ih hrest)
      refine ⟨messages ++ out, protocolStream_cons.mpr ⟨messages, out, hmessages, ?_, rfl⟩⟩
      rw [hr]
      exact hout

/-! ## Blocks -/

/-- The blocks of all forks. Distinct blocks have distinct hashes, and every block but a
first one has a parent with a hash that is not zero. -/
structure BlockTree (rows : FileRows) (block : BlockRow → Prop) : Prop where
  rows : ∀ s, ∀ r ∈ rows s, block r
  hash : ∀ r r', block r → block r' → r.hash = r'.hash → r = r'
  parent : ∀ r, block r → 0 < r.number →
    ∃ p, block p ∧ r.number = p.number + 1 ∧ r.prevHash = some p.hash ∧ p.hash ≠ 0

/-- A block with number 0 has no parent: the hash is absent or zero, and not that of a block. -/
def Rootless (block : BlockRow → Prop) : Prop :=
  ∀ r, block r → r.number = 0 → isActuallySet r.prevHash = false ∧ ∀ b, block b → r.prevHash ≠ some b.hash

section Tree

variable {rows : FileRows} {block : BlockRow → Prop}

theorem BlockTree.blockHashes (h : BlockTree rows block) : BlockHashes rows := by
  constructor
  · intro s t r hr r' hr' _ hhash
    exact h.hash r r' (h.rows s r hr) (h.rows t r' hr') hhash
  · intro s r hr hpos
    obtain ⟨p, -, -, hprev, -⟩ := h.parent r (h.rows s r hr) hpos
    rw [hprev]
    nofun

/-- A block whose parent hash is the hash of another block is its successor. -/
theorem BlockTree.number_succ (h : BlockTree rows block) (hroot : Rootless block) {r p : BlockRow}
    (hr : block r) (hp : block p) (hprev : r.prevHash = some p.hash) : r.number = p.number + 1 := by
  by_cases hzero : r.number = 0
  · exact absurd hprev ((hroot r hr hzero).2 p hp)
  · obtain ⟨q, hq, hnum, hqprev, -⟩ := h.parent r hr (by omega)
    have hhash : q.hash = p.hash := Option.some.inj (hqprev.symm.trans hprev)
    rw [hnum, h.hash q p hq hp hhash]

/-- The parent hash of a block passes the check of the client. -/
theorem BlockTree.validatePrevHash (h : BlockTree rows block) (hroot : Rootless block)
    {r : BlockRow} (hr : block r) {range : BlockRange} (hstart : range.start = r.number)
    (hprev : range.prevHash = r.prevHash) : CampNode.validatePrevHash range = .ok () := by
  unfold CampNode.validatePrevHash
  rw [hstart, hprev]
  by_cases hzero : r.number = 0
  · rw [if_pos hzero, (hroot r hr hzero).1]
    rfl
  obtain ⟨p, -, -, hparent, hne⟩ := h.parent r hr (by omega)
  have hset : isActuallySet r.prevHash = true := by
    rw [hparent]
    simpa [isActuallySet] using hne
  rw [if_neg hzero, hset]
  rfl

end Tree

/-- The range is one that the server can have sent: it ends in a block. -/
structure Known (block : BlockRow → Prop) (network : String) (range : BlockRange) : Prop where
  network : range.network = network
  last : ∃ b, block b ∧ b.watermark = range.watermark

/-! ## The next range -/

section Next

variable {rows : FileRows} {block : BlockRow → Prop} {query : StreamingQuery} {snapshot : Snapshot}
  {fuel : Nat} {next : MicrobatchRange} {ready : Bool}

theorem canonicalRows_block (htree : BlockTree rows block) {r : BlockRow}
    (hr : r ∈ snapshot.canonicalRows rows query) : block r := by
  rcases mem_allRows.mp hr with ⟨s, -, hs⟩
  exact htree.rows s r hs

variable (htree : BlockTree rows block) (hbound : ∀ b, block b → b.number + 1 < 2 ^ 64)
  (hroot : Rootless block) (hwf : ∀ s ∈ snapshot.files, WellFormedFile rows s)

include htree hwf in
/-- A range starts right after the previous watermark, or not above it at a block that is not
its successor; in any case with a block of the chain. -/
theorem nextMicrobatchRange_start {prev : Option Watermark}
    (h : nextMicrobatchRange rows query snapshot fuel prev = some (some next, ready))
    (hprev : ∀ w ∈ prev, w.number + 1 < 2 ^ 64) :
    (∃ b, block b ∧ next.range.start = b.number ∧ next.range.prevHash = b.prevHash) ∧
      ∀ w ∈ prev, (next.range.start = w.number + 1 ∧ next.range.prevHash = some w.hash) ∨
        next.range.start ≤ w.number := by
  rcases nextMicrobatchRange_some h with ⟨common, stop, hcommon, hstart, hend, hrange⟩
  have hnum : next.range.start = next.direction.segmentStart.number := by rw [hrange]; rfl
  have hhash : next.range.prevHash = next.direction.segmentStart.prevHash := by rw [hrange]
  have hrow {b : BlockRow} (hb : b ∈ snapshot.canonicalRows rows query)
      (heq : b.segmentStart = next.direction.segmentStart) :
      ∃ b, block b ∧ next.range.start = b.number ∧ next.range.prevHash = b.prevHash := by
    rw [hnum, hhash, ← heq]
    exact ⟨b, canonicalRows_block htree hb, rfl, rfl⟩
  rcases nextMicrobatchStart_some hstart with ⟨hnone, b, hb, hdir⟩ | ⟨p, hp, hcontains, hdir⟩ |
    ⟨p, b, hp, -, hbase, hdir⟩
  · -- the start block
    refine ⟨hrow hb (by rw [hdir]; rfl), ?_⟩
    intro w hw
    rw [hnone] at hw
    cases hw
  · -- the block after the watermark, which exists because the end of the range does
    have hseg : next.direction.segmentStart = ⟨p.number + 1, some p.hash⟩ := by
      rw [hdir, Nat.mod_eq_of_lt (hprev p hp)]
      rfl
    rcases latestSrcWatermark_some hcommon with ⟨⟨source, -, hsource⟩, -⟩
    rcases (canonicalContains_iff hwf).mp (find?_some hsource) with hcommonRow
    rcases nextMicrobatchEnd_canonical hcommonRow hend with ⟨e, he, hew⟩
    rcases (canonicalContains_iff hwf).mp hcontains with ⟨pr, hpr, hprw⟩
    have hle : pr.number + 1 ≤ e.number := by
      have hle := (nextMicrobatchEnd_number hend).2
      rw [hseg, ← hew] at hle
      rw [← hprw] at hle
      exact hle
    rcases canonicalRow_after htree.blockHashes hwf hpr he hle with ⟨f, hf, hfseg⟩
    refine ⟨hrow hf ?_, ?_⟩
    · rw [hfseg, hseg, ← hprw]
      rfl
    · intro w hw
      cases hp.symm.trans (Option.mem_def.mp hw)
      rw [hnum, hhash, hseg]
      exact .inl ⟨rfl, rfl⟩
  · -- the block that replaces an orphaned one
    rcases reorgBase_le hbase with ⟨hb, hle⟩
    refine ⟨hrow hb (by rw [hdir]; rfl), ?_⟩
    intro w hw
    cases hp.symm.trans (Option.mem_def.mp hw)
    rw [hnum, hdir]
    exact .inr hle

include htree hwf in
theorem nextMicrobatchRange_known {prev : Option Watermark}
    (h : nextMicrobatchRange rows query snapshot fuel prev = some (some next, ready)) :
    Known block query.network next.range := by
  rcases nextMicrobatchRange_some h with ⟨common, stop, hcommon, -, hend, hrange⟩
  rcases latestSrcWatermark_some hcommon with ⟨⟨source, -, hsource⟩, -⟩
  have hcommonRow := (canonicalContains_iff hwf).mp (find?_some hsource)
  rcases nextMicrobatchEnd_canonical hcommonRow hend with ⟨e, he, hew⟩
  constructor
  · rw [hrange]
  · refine ⟨e, canonicalRows_block htree he, ?_⟩
    rw [hew, hrange]
    rfl

include htree hbound hroot hwf in
/-- The client accepts the range after those that the query was started or continued from. -/
theorem nextMicrobatchRange_accepted
    (h : nextMicrobatchRange rows query snapshot fuel (previous.head?.map BlockRange.watermark) =
      some (some next, ready)) (hlength : previous.length ≤ 1)
    (hknown : ∀ r ∈ previous, Known block query.network r) :
    validateResponse previous [next.range] = .ok () := by
  have hnext : ∀ w ∈ previous.head?.map BlockRange.watermark, w.number + 1 < 2 ^ 64 := by
    intro w hw
    obtain ⟨r, hr, rfl⟩ := Option.map_eq_some_iff.mp (Option.mem_def.mp hw)
    obtain ⟨b, hb, hbw⟩ := (hknown r (mem_of_mem_head? hr)).last
    rw [← hbw]
    exact hbound b hb
  obtain ⟨⟨b, hb, hstart, hprev⟩, hposition⟩ := nextMicrobatchRange_start htree hwf h hnext
  have hvalid := htree.validatePrevHash hroot hb hstart hprev
  match previous, hlength with
  | [], _ => exact validateResponse_first hvalid
  | [r], _ =>
    have hr := hknown r mem_cons_self
    have hnet : r.network = next.range.network := by
      rw [hr.network, (nextMicrobatchRange_known htree hwf h).network]
    refine validateResponse_singleton hvalid hnet ?_
    by_cases heq : next.range = r
    · exact .repeats heq
    have hnb : nextBlock r.stop = r.stop + 1 := Nat.mod_eq_of_lt (hnext r.watermark rfl)
    rcases hposition r.watermark rfl with ⟨hsucc, hhash⟩ | hle
    · exact .continues heq (hsucc.trans hnb.symm) hhash
    refine .rewinds heq ?_ ?_
    · rw [hnb]
      exact Nat.lt_succ_of_le hle
    -- otherwise the first block would be the successor of the last block of `r`
    intro hhash
    obtain ⟨last, hlast, hlastw⟩ := hr.last
    have hnum : last.number = r.stop := congrArg Watermark.number hlastw
    have hlasthash : last.hash = r.hash := congrArg Watermark.hash hlastw
    have hbprev : b.prevHash = some last.hash := by
      rw [← hprev, hhash, hlasthash]
    have hle' : b.number ≤ r.stop := by
      rw [← hstart]
      exact hle
    have hsucc := htree.number_succ hroot hb hlast hbprev
    omega

end Next

/-! ## Subscriptions -/

/-- The ranges of the last complete microbatch that the client has received. -/
def lastWatermark {β : Type} (previous : List BlockRange) (responses : List (ResponseBatch β)) :
    List BlockRange :=
  match (responses.filter (·.rangesComplete)).getLast? with
  | none => previous
  | some response => response.ranges

/-- The watermark that the server finds in the request of the client; the outer `none` is an
error. -/
def resumePoint (network : String) (ranges : List BlockRange) : Option (Option Watermark) :=
  if ranges.isEmpty then some none else (ofNetwork ranges network).map fun r => some r.watermark

/-- A connection, and what the client had received before. -/
structure Subscription (β : Type) where
  query : StreamingQuery
  server : Stream
  /-- The microbatches of this connection. -/
  transfers : List (Transfer β)
  /-- The ranges that the client has resumed from. -/
  previous : List BlockRange

namespace Subscription

variable {β : Type} (rows : FileRows) (split : β → List β) (empty : β)

/-- The first connection. -/
def Init : StatePred (Subscription β) := fun s =>
  s.server = ⟨none, true, [], false⟩ ∧ s.transfers = [] ∧ s.previous = []

/-- An iteration of the loop of the query. -/
def Iterate (snapshot : Snapshot) : Action (Subscription β) := fun s s' =>
  s.server.finished = false ∧
    ((Stream.Wait rows s.query snapshot s.server s'.server ∧ s' = { s with server := s'.server }) ∨
      (∃ t, Stream.Send rows s.query snapshot s.server s'.server ∧
        s'.server.sent.head?.map (fun m => (m.range, m.isReorg)) = some (t.range, t.isReorg) ∧
        s' = { s with server := s'.server, transfers := s.transfers ++ [t] }))

/-- The client disconnects after `n` responses and connects again. -/
def Resume (n : Nat) (query : StreamingQuery) : Action (Subscription β) := fun s s' =>
  query.network = s.query.network ∧ ∃ responses prevWatermark,
    flightDataStream split empty [] (s.transfers.flatMap Transfer.messages) = some responses ∧
    resumePoint query.network (lastWatermark s.previous (responses.take n)) = some prevWatermark ∧
    s' = ⟨query, ⟨prevWatermark, true, [], false⟩, [], lastWatermark s.previous (responses.take n)⟩

def Next : Action (Subscription β) := fun s s' =>
  (∃ snapshot, (∀ f ∈ snapshot.files, WellFormedFile rows f) ∧ Iterate rows snapshot s s') ∨
    ∃ n query, Resume split empty n query s s'

structure Inv (block : BlockRow → Prop) (s : Subscription β) : Prop where
  previous : s.previous.length ≤ 1
  known : ∀ r, (r ∈ s.previous ∨ ∃ t ∈ s.transfers, t.range = r) → Known block s.query.network r
  accepted : Accepted s.previous (s.transfers.map (·.range))
  position : s.server.finished = false → s.server.prevWatermark =
      (lastRanges s.previous (s.transfers.map (·.range))).head?.map BlockRange.watermark

variable {rows split empty} {block : BlockRow → Prop}
variable {s : Subscription β}

theorem init_inv (h : Init s) : Inv block s := by
  obtain ⟨hserver, htransfers, hprevious⟩ := h
  constructor
  · simp [hprevious]
  · simp [hprevious, htransfers]
  · simp [htransfers, Accepted]
  · simp [hserver, htransfers, hprevious, lastRanges]

/-- What the next range is validated against. -/
theorem Inv.lastRanges (h : Inv block s) :
    (lastRanges s.previous (s.transfers.map (·.range))).length ≤ 1 ∧
      ∀ r ∈ lastRanges s.previous (s.transfers.map (·.range)), Known block s.query.network r := by
  rcases lastRanges_cases s.previous (s.transfers.map (·.range)) with heq | ⟨r, hr, heq⟩
  · rw [heq]
    exact ⟨h.previous, fun r hr => h.known r (.inl hr)⟩
  rw [heq]
  obtain ⟨t, ht, rfl⟩ := mem_map.mp hr
  refine ⟨Nat.le_refl 1, ?_⟩
  intro r' hr'
  rw [mem_singleton.mp hr']
  exact h.known t.range (.inr ⟨t, ht, rfl⟩)

theorem send_inv (htree : BlockTree rows block) (hbound : ∀ b, block b → b.number + 1 < 2 ^ 64)
    (hroot : Rootless block) {snapshot : Snapshot}
    (hwf : ∀ f ∈ snapshot.files, WellFormedFile rows f) (h : Inv block s)
    (hrun : s.server.finished = false) {server : Stream} {t : Transfer β}
    (hsend : Stream.Send rows s.query snapshot s.server server)
    (ht : server.sent.head?.map (fun m => (m.range, m.isReorg)) = some (t.range, t.isReorg)) :
    Inv block { s with server := server, transfers := s.transfers ++ [t] } := by
  rcases hsend with ⟨fuel, next, ready, hnext, rfl⟩
  have hrange : next.range = t.range := congrArg Prod.fst (Option.some.inj ht)
  rw [h.position hrun] at hnext
  obtain ⟨hlength, hknown⟩ := h.lastRanges
  have haccepted := nextMicrobatchRange_accepted htree hbound hroot hwf hnext hlength hknown
  rw [hrange] at haccepted
  constructor
  · exact h.previous
  · rintro r (hr | ⟨t', ht', rfl⟩)
    · exact h.known r (.inl hr)
    · rcases mem_append.mp ht' with hold | hnew
      · exact h.known _ (.inr ⟨t', hold, rfl⟩)
      · rw [mem_singleton.mp hnew, ← hrange]
        exact nextMicrobatchRange_known htree hwf hnext
  · simp only [map_append, map_cons, map_nil]
    exact h.accepted.snoc haccepted
  · intro hfin
    have hne : ¬ some next.range.stop = s.query.endBlock := of_decide_eq_false hfin
    simp only [map_append, map_cons, map_nil, lastRanges_snoc, if_neg hne]
    rw [hrange]
    rfl

/-- The client resumes from a range that it has received, or from the same as before. -/
theorem lastWatermark_cases (previous : List BlockRange) (transfers : List (Transfer β)) (n : Nat) :
    lastWatermark previous ((transfers.flatMap (Transfer.responses split empty)).take n) = previous ∨
      ∃ t ∈ transfers,
        lastWatermark previous ((transfers.flatMap (Transfer.responses split empty)).take n) = [t.range] := by
  unfold lastWatermark
  split
  · exact .inl rfl
  · rename_i response hlast
    have hmem := mem_of_mem_take (mem_of_mem_filter (mem_of_getLast? hlast))
    obtain ⟨t, ht, hr⟩ := mem_flatMap.mp hmem
    exact .inr ⟨t, ht, mem_responses hr⟩

theorem resume_inv {n : Nat} {query : StreamingQuery} {s s' : Subscription β} (h : Inv block s)
    (hstep : Resume split empty n query s s') : Inv block s' := by
  obtain ⟨hnet, responses, prevWatermark, hresponses, hpoint, rfl⟩ := hstep
  rw [flightDataStream_transfers] at hresponses
  cases hresponses
  generalize hranges : lastWatermark s.previous
    ((s.transfers.flatMap (Transfer.responses split empty)).take n) = ranges at hpoint ⊢
  have hlast : ranges.length ≤ 1 ∧ ∀ r ∈ ranges, Known block s.query.network r := by
    rcases lastWatermark_cases s.previous s.transfers n with heq | ⟨t, ht, heq⟩
    · rw [← hranges, heq]
      exact ⟨h.previous, fun r hr => h.known r (.inl hr)⟩
    rw [← hranges, heq]
    refine ⟨Nat.le_refl 1, ?_⟩
    intro r hr
    rw [mem_singleton.mp hr]
    exact h.known t.range (.inr ⟨t, ht, rfl⟩)
  constructor
  · exact hlast.1
  · rintro r (hr | ⟨t, ht, -⟩)
    · rw [hnet]
      exact hlast.2 r hr
    · cases ht
  · trivial
  · intro _
    match ranges, hlast, hpoint with
    | [], _, hpoint => exact (Option.some.inj hpoint).symm
    | [r], hlast, hpoint =>
      have hr : r.network = query.network := by
        rw [hnet]
        exact (hlast.2 r mem_cons_self).network
      simpa [resumePoint, ofNetwork, hr, CampNode.lastRanges] using hpoint.symm

theorem step_inv (htree : BlockTree rows block) (hbound : ∀ b, block b → b.number + 1 < 2 ^ 64)
    (hroot : Rootless block) {s s' : Subscription β} (hstep : Next rows split empty s s') (h : Inv block s) :
    Inv block s' := by
  rcases hstep with ⟨snapshot, hwf, hrun, ⟨hwait, heq⟩ | ⟨t, hsend, ht, heq⟩⟩ | ⟨n, query, hresume⟩
  · obtain ⟨fuel, ready, -, hserver⟩ := hwait
    rw [heq, hserver]
    exact { h with }
  · rw [heq]
    exact send_inv htree hbound hroot hwf h hrun hsend ht
  · exact resume_inv h hresume

/-- Whatever the snapshots and the limits are and wherever the client disconnects: it accepts
all responses, if blocks have a successor in `u64` and a block 0 has no parent. -/
theorem responses_accepted (rows : FileRows) (split : β → List β) (empty : β) (block : BlockRow → Prop)
    (htree : BlockTree rows block) (hbound : ∀ b, block b → b.number + 1 < 2 ^ 64)
    (hroot : Rootless block) (s : Subscription β) (hs : Reachable Init (Next rows split empty) s) :
    ∃ responses,
      flightDataStream split empty [] (s.transfers.flatMap Transfer.messages) = some responses ∧
      ∀ n, ∃ out, protocolStream s.previous (responses.take n) = .ok out := by
  have hinv : Inv block s := init_invariant Init (Next rows split empty) (Inv block)
    (fun _ => init_inv) (fun _ _ => step_inv htree hbound hroot) s hs
  obtain ⟨out, hout⟩ := hinv.accepted.protocolStream
  exact ⟨_, flightDataStream_transfers s.transfers, fun n => protocolStream_take hout n⟩

/-! ### A reorg between two connections -/

/-- A microbatch with one batch. -/
def transferOf (range : BlockRange) (isReorg : Bool) (batch : Nat) : Transfer Nat :=
  ⟨range, isReorg, [.data batch], by simp [QueryMessage.Inner]⟩

/-- It suffices to look at a list of all blocks. -/
theorem blockTree_of_list {rows : FileRows} (l : List BlockRow) (hrows : ∀ s, ∀ r ∈ rows s, r ∈ l)
    (hhash : ∀ r ∈ l, ∀ r' ∈ l, r.hash = r'.hash → r = r')
    (hparent : ∀ r ∈ l, 0 < r.number →
      ∃ p ∈ l, r.number = p.number + 1 ∧ r.prevHash = some p.hash ∧ p.hash ≠ 0) :
    BlockTree rows (· ∈ l) :=
  ⟨hrows, fun r r' hr hr' => hhash r hr r' hr', hparent⟩

theorem forked_tree : BlockTree forkedRows (· ∈ forkedBlocks) :=
  blockTree_of_list _ forkedRows_mem (by decide) (by decide)

/-- Blocks 0 to 3, and blocks 2 to 4 of another fork. -/
def oldRange : BlockRange := ⟨⟨0, 3⟩, "net", 13, none⟩
def newRange : BlockRange := ⟨⟨2, 4⟩, "net", 24, some 11⟩

theorem opened (rows : FileRows) (query : StreamingQuery) :
    Reachable Init (Next rows (fun b => [b]) 0)
      (⟨query, ⟨none, true, [], false⟩, [], []⟩ : Subscription Nat) := .init ⟨rfl, rfl, rfl⟩

/-- The client receives a microbatch and connects again. Its last block is orphaned by then. -/
theorem responses_accepted_after_reorg :
    ∃ s : Subscription Nat, Reachable Init (Next forkedRows (fun b => [b]) 0) s ∧
      s.previous = [oldRange] ∧ s.transfers.map (·.range) = [newRange] ∧
      ∃ responses,
        flightDataStream (fun b => [b]) 0 [] (s.transfers.flatMap Transfer.messages) = some responses ∧
        ∀ n, ∃ out, protocolStream s.previous (responses.take n) = .ok out := by
  have hfirst : Reachable Init (Next forkedRows (fun b => [b]) 0)
      (⟨forkedQuery, ⟨some ⟨3, 13⟩, false, [⟨oldRange, false, beforeFork⟩], false⟩,
        [transferOf oldRange false 7], []⟩ : Subscription Nat) := by
    refine .step (opened _ _) (.inl ⟨beforeFork, ?_, rfl, .inr ⟨transferOf oldRange false 7, ?_, rfl, rfl⟩⟩)
    · intro f hf
      exact forked_wellFormed f (mem_of_mem_take (i := 2) hf)
    · exact ⟨1, ⟨oldRange, .forwardFrom ⟨0, none⟩⟩, false, by decide, rfl⟩
  have hresumed := Reachable.step hfirst
    (.inr ⟨2, forkedQuery, rfl, _, _, flightDataStream_transfers _, rfl, rfl⟩)
  have hsecond : Reachable Init (Next forkedRows (fun b => [b]) 0)
      (⟨forkedQuery, ⟨some ⟨4, 24⟩, false, [⟨newRange, true, afterFork⟩], false⟩,
        [transferOf newRange true 8], [oldRange]⟩ : Subscription Nat) := by
    refine .step hresumed (.inl ⟨afterFork, forked_wellFormed, rfl,
      .inr ⟨transferOf newRange true 8, ?_, rfl, rfl⟩⟩)
    exact ⟨4, ⟨newRange, .reorgFrom ⟨2, some 11⟩⟩, false, by decide, rfl⟩
  refine ⟨_, hsecond, rfl, rfl, responses_accepted _ _ _ (· ∈ forkedBlocks) forked_tree ?_ ?_ _ hsecond⟩
  · decide
  intro r hr hzero
  have hroot : ∀ r ∈ forkedBlocks, r.number = 0 →
      isActuallySet r.prevHash = false ∧ ∀ b ∈ forkedBlocks, r.prevHash ≠ some b.hash := by
    decide
  exact hroot r hr hzero

/-! ### Ranges from block 0 on -/

/-- A block 0 with a parent hash. -/
def rootedBlocks : List BlockRow := [⟨0, 10, some 9⟩]

def rootedFile : Segment := Stream.exampleFile 1 0 0 10 (some 9)

def rootedRows : FileRows := fun s => if s.id = 1 then rootedBlocks else []

def rootedSnapshot : Snapshot :=
  ⟨[rootedFile], insertionSort _, [rootedFile], limitFirst, [[rootedFile]], none⟩

theorem rootedRows_mem : ∀ s, ∀ r ∈ rootedRows s, r ∈ rootedBlocks := by
  intro s r hr
  unfold rootedRows at hr
  split at hr
  · exact hr
  · cases hr

/-- In some run the client refuses a response. -/
def Refuses (rows : FileRows) : Prop :=
  ∃ s : Subscription Nat, Reachable Init (Next rows (fun b => [b]) 0) s ∧ ∃ responses,
    flightDataStream (fun b => [b]) 0 [] (s.transfers.flatMap Transfer.messages) = some responses ∧
    protocolStream s.previous responses = .error .invalidPrevHash

/-- The client refuses the range of that block. -/
theorem genesis_with_parent_refused : Refuses rootedRows := by
  let range : BlockRange := ⟨⟨0, 0⟩, "net", 10, some 9⟩
  have hsent : Reachable Init (Next rootedRows (fun b => [b]) 0)
      (⟨forkedQuery, ⟨some ⟨0, 10⟩, false, [⟨range, false, rootedSnapshot⟩], false⟩,
        [transferOf range false 7], []⟩ : Subscription Nat) := by
    refine .step (opened _ _) (.inl ⟨rootedSnapshot, ?_, rfl, .inr ⟨transferOf range false 7, ?_, rfl, rfl⟩⟩)
    · intro f hf
      cases mem_singleton.mp hf
      exact ⟨by simp [rootedRows, rootedBlocks, rootedFile, exampleFile, HashChain],
        ⟨_, rfl, rfl, rfl⟩, ⟨_, rfl, rfl, rfl⟩⟩
    · exact ⟨1, ⟨range, .forwardFrom ⟨0, some 9⟩⟩, false, by decide, rfl⟩
  exact ⟨_, hsent, _, flightDataStream_transfers _, rfl⟩

/-- The block with the given number of a chain without forks. -/
def chainBlock (n : Nat) : BlockRow :=
  ⟨n, BitVec.ofNat 256 (n + 1), if n = 0 then none else some (BitVec.ofNat 256 n)⟩

def chainFile : Segment :=
  Stream.exampleFile 1 (2 ^ 64 - 2) (2 ^ 64 - 1) (BitVec.ofNat 256 (2 ^ 64))
    (some (BitVec.ofNat 256 (2 ^ 64 - 2)))

/-- The table starts with the last two blocks that `u64` has room for. -/
def chainRows : FileRows := fun s =>
  if s.id = 1 then [chainBlock (2 ^ 64 - 2), chainBlock (2 ^ 64 - 1)] else []

def chainSnapshot : Snapshot :=
  ⟨[chainFile], insertionSort _, [chainFile], limitFirst, [[chainFile]], none⟩

def OnChain (b : BlockRow) : Prop := b.number < 2 ^ 64 ∧ b = chainBlock b.number

theorem ofNat_inj {m n : Nat} (hm : m ≤ 2 ^ 64) (hn : n ≤ 2 ^ 64)
    (h : BitVec.ofNat 256 m = BitVec.ofNat 256 n) : m = n := by
  have h' := congrArg BitVec.toNat h
  rw [BitVec.toNat_ofNat, BitVec.toNat_ofNat, Nat.mod_eq_of_lt (by omega), Nat.mod_eq_of_lt (by omega)] at h'
  exact h'

theorem chain_tree : BlockTree chainRows OnChain := by
  constructor
  · intro s r hr
    unfold chainRows at hr
    split at hr
    · rcases mem_cons.mp hr with rfl | hr
      · exact ⟨by decide, rfl⟩
      · rw [mem_singleton.mp hr]
        exact ⟨by decide, rfl⟩
    · cases hr
  · rintro r r' ⟨hlt, hr⟩ ⟨hlt', hr'⟩ hhash
    rw [hr, hr'] at hhash ⊢
    have hnum : r.number + 1 = r'.number + 1 := ofNat_inj (by omega) (by omega) hhash
    rw [Nat.succ.inj hnum]
  · rintro r ⟨hlt, hr⟩ hpos
    refine ⟨chainBlock (r.number - 1), ⟨?_, rfl⟩, ?_, ?_, ?_⟩
    · show r.number - 1 < 2 ^ 64
      omega
    · show r.number = r.number - 1 + 1
      omega
    · rw [hr]
      have hsucc : r.number - 1 + 1 = r.number := by omega
      simp [chainBlock, Nat.ne_of_gt hpos, hsucc]
    · intro hzero
      have hnum : r.number - 1 + 1 = 0 := ofNat_inj (by omega) (by omega) hzero
      omega

theorem chain_rootless : Rootless OnChain := by
  rintro r ⟨-, hr⟩ hzero
  have hprev : r.prevHash = none := by
    rw [hr, hzero]
    rfl
  rw [hprev]
  exact ⟨rfl, nofun⟩

/-- Resumed from the last block number with a great limit, the next range starts at block 0 with
the hash of the last block as its parent hash. The client refuses it. -/
theorem wrapped_range_refused : Refuses chainRows := by
  let first : BlockRange := chainFile.range
  let second : BlockRange := ⟨⟨0, 2 ^ 64 - 2⟩, "net", BitVec.ofNat 256 (2 ^ 64 - 1), some (BitVec.ofNat 256 (2 ^ 64))⟩
  have hwf : ∀ f ∈ chainSnapshot.files, WellFormedFile chainRows f := by
    intro f hf
    cases mem_singleton.mp hf
    exact ⟨by simp [chainRows, chainFile, exampleFile, HashChain, Link, chainBlock],
      ⟨_, rfl, rfl, rfl⟩, ⟨_, rfl, rfl, rfl⟩⟩
  have hfirst : Reachable Init (Next chainRows (fun b => [b]) 0)
      (⟨⟨2 ^ 64 - 2, none, 2, "net", none⟩,
        ⟨some first.watermark, false, [⟨first, false, chainSnapshot⟩], false⟩,
        [transferOf first false 7], []⟩ : Subscription Nat) := by
    refine .step (opened _ _) (.inl ⟨chainSnapshot, hwf, rfl, .inr ⟨transferOf first false 7, ?_, rfl, rfl⟩⟩)
    exact ⟨1, ⟨first, .forwardFrom ⟨2 ^ 64 - 2, some (BitVec.ofNat 256 (2 ^ 64 - 2))⟩⟩, false, by decide, rfl⟩
  have hresumed := Reachable.step hfirst
    (.inr ⟨2, ⟨2 ^ 64 - 2, none, 2 ^ 64 - 1, "net", none⟩, rfl, _, _, flightDataStream_transfers _, rfl, rfl⟩)
  have hsecond : Reachable Init (Next chainRows (fun b => [b]) 0)
      (⟨⟨2 ^ 64 - 2, none, 2 ^ 64 - 1, "net", none⟩,
        ⟨some second.watermark, true, [⟨second, false, chainSnapshot⟩], false⟩,
        [transferOf second false 8], [first]⟩ : Subscription Nat) := by
    refine .step hresumed (.inl ⟨chainSnapshot, hwf, rfl, .inr ⟨transferOf second false 8, ?_, rfl, rfl⟩⟩)
    exact ⟨1, ⟨second, .forwardFrom ⟨0, some (BitVec.ofNat 256 (2 ^ 64))⟩⟩, true, by decide, rfl⟩
  exact ⟨_, hsecond, _, flightDataStream_transfers _, rfl⟩

/-- Without one of the conditions a range can be refused. -/
theorem range_from_zero_refused :
    (BlockTree rootedRows (· ∈ rootedBlocks) ∧ (∀ b ∈ rootedBlocks, b.number + 1 < 2 ^ 64) ∧
      ∃ s : Subscription Nat, Reachable Init (Next rootedRows (fun b => [b]) 0) s ∧ ∃ responses,
        flightDataStream (fun b => [b]) 0 [] (s.transfers.flatMap Transfer.messages) = some responses ∧
        protocolStream s.previous responses = .error .invalidPrevHash) ∧
    (BlockTree chainRows OnChain ∧ Rootless OnChain ∧
      ∃ s : Subscription Nat, Reachable Init (Next chainRows (fun b => [b]) 0) s ∧ ∃ responses,
        flightDataStream (fun b => [b]) 0 [] (s.transfers.flatMap Transfer.messages) = some responses ∧
        protocolStream s.previous responses = .error .invalidPrevHash) :=
  ⟨⟨blockTree_of_list _ rootedRows_mem (by decide) (by decide), by decide,
    genesis_with_parent_refused⟩, chain_tree, chain_rootless, wrapped_range_refused⟩

end Subscription

end CampNode

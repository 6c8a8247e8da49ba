import CampNode.Client.Protocol

/-!
# CampNode.Client.Typescript — the protocol stream of the TypeScript client

`createProtocolStream` maps every response to one message. It does not validate; a response
with a reorg becomes the reorg message, and neither its data nor its ranges are kept.

The messages are those of the Rust client exactly as long as there is no reorg
(`createProtocolStream_eq_iff`). Block numbers are JavaScript numbers, so they have to be safe
integers for the comparisons to be those of `u64`.
-/

namespace CampNode

open List

/-! ## Stream -/

/-- The ranges differ in a field other than the network. -/
def rangesDiffer (inc prev : BlockRange) : Bool :=
  inc.start != prev.start || inc.stop != prev.stop || inc.hash != prev.hash ||
    inc.prevHash != prev.prevHash

/-- The backward jumps of the incoming ranges. -/
def detectReorg (previous incoming : List BlockRange) : List InvalidationRange :=
  incoming.filterMap fun inc =>
    match ofNetwork previous inc.network with
    | none => none
    | some prev =>
        if rangesDiffer inc prev && decide (inc.start ≤ prev.stop) then
          some ⟨inc.network, ⟨inc.start, max inc.stop prev.stop⟩⟩
        else none

variable (previous : Option (List BlockRange))

/-- The previous ranges are undefined before the first response of a stream that is not resumed. -/
def invalidationSince (incoming : List BlockRange) : List InvalidationRange :=
  match previous with
  | none => []
  | some previous => detectReorg previous incoming

def createProtocolStream {β : Type} (previous : Option (List BlockRange)) :
    List (ResponseBatch β) → List (ProtocolMessage β)
  | [] => []
  | response :: rest =>
      if (invalidationSince previous response.ranges).isEmpty then
        response.message :: createProtocolStream (some response.ranges) rest
      else
        -- returns before the data is looked at and the ranges are remembered
        .reorg (previous.getD []) response.ranges (invalidationSince previous response.ranges) ::
          createProtocolStream previous rest

/-! ## Reorgs of both clients -/

/-- All numbers are safe integers of JavaScript. -/
def SafeRanges (ranges : List BlockRange) : Prop :=
  ∀ r ∈ ranges, r.start < 2 ^ 53 ∧ r.stop < 2 ^ 53

theorem rangesDiffer_iff {inc prev : BlockRange} (hnet : prev.network = inc.network) :
    rangesDiffer inc prev = true ↔ inc ≠ prev := by
  obtain ⟨⟨start, stop⟩, network, hash, prevHash⟩ := inc
  obtain ⟨⟨start', stop'⟩, network', hash', prevHash'⟩ := prev
  simp only [rangesDiffer, BlockRange.start, BlockRange.stop, Bool.or_eq_true, bne_iff_ne, ne_eq,
    BlockRange.mk.injEq, RangeInclusive.mk.injEq]
  tauto

theorem detectReorg_eq {previous : List BlockRange} (hsafe : SafeRanges previous)
    (incoming : List BlockRange) :
    detectReorg previous incoming = incoming.filterMap (invalidationOf previous) := by
  unfold detectReorg
  congr 1
  funext inc
  unfold invalidationOf
  cases hprev : ofNetwork previous inc.network with
  | none => rfl
  | some prev =>
    have hnet : prev.network = inc.network := by simpa using find?_some hprev
    have hstop := (hsafe prev (mem_of_find?_eq_some hprev)).2
    have hnext : nextBlock prev.stop = prev.stop + 1 := Nat.mod_eq_of_lt (by omega)
    simp only [hnext, Bool.and_eq_true, rangesDiffer_iff hnet, decide_eq_true_eq, Nat.lt_succ_iff]
    by_cases heq : inc = prev
    · simp [heq]
    · simp [heq]

/-- What the TypeScript client finds is what the Rust client finds. -/
theorem invalidationSince_eq {previous : Option (List BlockRange)}
    (hsafe : SafeRanges (previous.getD [])) (incoming : List BlockRange) :
    invalidationSince previous incoming = incoming.filterMap (invalidationOf (previous.getD [])) := by
  cases previous with
  | none =>
    refine (filterMap_eq_nil_iff.mpr ?_).symm
    intro r _
    rfl
  | some previous => exact detectReorg_eq hsafe incoming

/-! ## Messages of both clients -/

def ProtocolMessage.isReorg {β : Type} : ProtocolMessage β → Bool
  | .reorg _ _ _ => true
  | _ => false

variable {β : Type}

theorem message_not_reorg (response : ResponseBatch β) : response.message.isReorg = false := by
  unfold ResponseBatch.message
  split
  · rfl
  · rfl

theorem length_createProtocolStream (responses : List (ResponseBatch β)) :
    (createProtocolStream previous responses).length = responses.length := by
  induction responses generalizing previous with
  | nil => rfl
  | cons response rest ih =>
    unfold createProtocolStream
    split
    · rw [length_cons, length_cons, ih]
    · rw [length_cons, length_cons, ih]

variable {responses : List (ResponseBatch β)} {out : List (ProtocolMessage β)}

/-- The Rust client has a message for each response, and one more for each reorg. -/
theorem length_protocolStream {previous : List BlockRange}
    (h : protocolStream previous responses = .ok out) :
    out.length = responses.length + out.countP ProtocolMessage.isReorg := by
  induction responses generalizing previous out with
  | nil =>
    cases h
    rfl
  | cons response rest ih =>
    obtain ⟨messages, out', hmessages, hout', rfl⟩ := protocolStream_cons.mp h
    have hrest := ih hout'
    have hnot := message_not_reorg response
    rcases protocolMessages_ok hmessages with ⟨-, ⟨-, rfl⟩ | ⟨-, rfl⟩⟩
    · rw [singleton_append, countP_cons_of_neg (by simp [hnot])]
      simp only [length_cons]
      omega
    · rw [cons_append, singleton_append, countP_cons_of_pos rfl,
        countP_cons_of_neg (by simp [hnot])]
      simp only [length_cons]
      omega

/-- Every range repeats the one before it on its network, or starts after it. -/
def GoesOn (previous incoming : List BlockRange) : Prop :=
  ∀ inc ∈ incoming, ∀ prev ∈ ofNetwork previous inc.network, inc = prev ∨ prev.stop < inc.start

theorem goesOn_iff {previous : List BlockRange} (hsafe : SafeRanges previous)
    (incoming : List BlockRange) :
    incoming.filterMap (invalidationOf previous) = [] ↔ GoesOn previous incoming := by
  rw [filterMap_eq_nil_iff]
  refine forall₂_congr fun inc _ => ?_
  unfold invalidationOf
  cases hprev : ofNetwork previous inc.network with
  | none => simp
  | some prev =>
    have hstop := (hsafe prev (mem_of_find?_eq_some hprev)).2
    have hnext : nextBlock prev.stop = prev.stop + 1 := Nat.mod_eq_of_lt (by omega)
    simp only [hnext, Option.mem_def, Option.some.injEq, forall_eq']
    by_cases heq : inc = prev
    · simp [heq]
    · rw [if_neg heq, or_iff_right heq]
      split
      · exact iff_of_false (by simp) (by omega)
      · exact iff_of_true rfl (by omega)

/-- Without a reorg both clients have the same messages. -/
theorem createProtocolStream_of_goesOn {previous : Option (List BlockRange)}
    (hprev : SafeRanges (previous.getD [])) (hsafe : ∀ r ∈ responses, SafeRanges r.ranges)
    (h : protocolStream (previous.getD []) responses = .ok out)
    (hchain : (previous.getD [] :: responses.map (·.ranges)).IsChain GoesOn) :
    createProtocolStream previous responses = out := by
  induction responses generalizing previous out with
  | nil =>
    cases h
    rfl
  | cons response rest ih =>
    obtain ⟨messages, out', hmessages, hout', rfl⟩ := protocolStream_cons.mp h
    obtain ⟨hgoes, hchain⟩ := isChain_cons_cons.mp hchain
    have hempty := (goesOn_iff hprev _).mpr hgoes
    rcases protocolMessages_ok hmessages with ⟨-, ⟨-, rfl⟩ | ⟨hne, -⟩⟩
    · have hrest : createProtocolStream (some response.ranges) rest = out' := by
        refine ih (hsafe response mem_cons_self) ?_ hout' hchain
        exact fun r hr => hsafe r (mem_cons_of_mem _ hr)
      unfold createProtocolStream
      rw [invalidationSince_eq hprev, hempty, hrest]
      rfl
    · exact absurd hempty hne

theorem goesOn_of_no_reorg {previous : List BlockRange} (hprev : SafeRanges previous)
    (hsafe : ∀ r ∈ responses, SafeRanges r.ranges) (h : protocolStream previous responses = .ok out)
    (hnone : ∀ m ∈ out, m.isReorg = false) :
    (previous :: responses.map (·.ranges)).IsChain GoesOn := by
  induction responses generalizing previous out with
  | nil => exact .singleton _
  | cons response rest ih =>
    obtain ⟨messages, out', hmessages, hout', rfl⟩ := protocolStream_cons.mp h
    rcases protocolMessages_ok hmessages with ⟨-, ⟨hempty, rfl⟩ | ⟨-, rfl⟩⟩
    · refine .cons_cons ((goesOn_iff hprev _).mp hempty) ?_
      refine ih (hsafe response mem_cons_self) ?_ hout' ?_
      · exact fun r hr => hsafe r (mem_cons_of_mem _ hr)
      · exact fun m hm => hnone m (mem_append_right _ hm)
    · -- the reorg message is among the messages
      cases hnone _ mem_cons_self

/-- On responses that the Rust client accepts, the TypeScript client emits the same messages if and
only if no response goes back behind the one before it. -/
theorem createProtocolStream_eq_iff {β : Type} (resume : Option (List BlockRange))
    (responses : List (ResponseBatch β)) (out : List (ProtocolMessage β))
    (hresume : SafeRanges (resume.getD [])) (hsafe : ∀ r ∈ responses, SafeRanges r.ranges)
    (h : protocolStream (resume.getD []) responses = .ok out) :
    createProtocolStream resume responses = out ↔
      (resume.getD [] :: responses.map (·.ranges)).IsChain GoesOn := by
  constructor
  · intro heq
    have hlength := length_protocolStream h
    rw [← heq, length_createProtocolStream, heq] at hlength
    have hcount : out.countP ProtocolMessage.isReorg = 0 := by omega
    refine goesOn_of_no_reorg hresume hsafe h fun m hm => ?_
    simpa using countP_eq_zero.mp hcount m hm
  · exact createProtocolStream_of_goesOn hresume hsafe h

/-! ## A reorg -/

/-- Blocks 0 to 3 and, after a fork at block 2, blocks 2 to 4. -/
def beforeReorg : BlockRange := ⟨⟨0, 3⟩, "net", 13, none⟩
def afterReorg : BlockRange := ⟨⟨2, 4⟩, "net", 24, some 11⟩

/-- A stream without a reorg. -/
theorem createProtocolStream_eq_iff_forward :
    createProtocolStream none [ResponseBatch.mk 7 [beforeReorg] false, ⟨8, [beforeReorg], true⟩] =
      [.data 7 [beforeReorg], .watermark [beforeReorg]] := by
  refine (createProtocolStream_eq_iff none _ [.data 7 [beforeReorg], .watermark [beforeReorg]]
    ?_ ?_ ?_).mpr ?_
  · nofun
  · intro r hr x hx
    have hranges : x = beforeReorg := by
      rcases mem_cons.mp hr with rfl | hr
      · simpa using hx
      · rcases mem_singleton.mp hr with rfl
        simpa using hx
    rw [hranges]
    decide
  · rfl
  · refine .cons_cons ?_ (.cons_cons ?_ (.singleton _))
    · simp [GoesOn, ofNetwork]
    · simp [GoesOn, ofNetwork]

/-- The data of the response with the reorg is not delivered, and the reorg is reported again for
the watermark that follows. -/
theorem createProtocolStream_loses_data :
    protocolStream [beforeReorg] [ResponseBatch.mk 7 [afterReorg] false, ⟨8, [afterReorg], true⟩] =
        .ok [.reorg [beforeReorg] [afterReorg] [⟨"net", ⟨2, 4⟩⟩], .data 7 [afterReorg],
          .watermark [afterReorg]] ∧
      createProtocolStream (some [beforeReorg])
          [ResponseBatch.mk 7 [afterReorg] false, ⟨8, [afterReorg], true⟩] =
        [.reorg [beforeReorg] [afterReorg] [⟨"net", ⟨2, 4⟩⟩],
          .reorg [beforeReorg] [afterReorg] [⟨"net", ⟨2, 4⟩⟩]] := by
  constructor
  · rfl
  · rfl

end CampNode

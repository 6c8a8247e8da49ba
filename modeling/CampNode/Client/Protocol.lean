import CampNode.Segments.Basic
import Mathlib.Data.List.Perm.Subperm

/-!
# CampNode.Client.Protocol — the protocol stream of the client

The server sends batches with the block ranges they cover, one for each network.
`ProtocolStream` checks every response against the one before
(`validation.rs`) and turns it into protocol messages: a reorg message first if a
range jumps backwards, then the data or the watermark.

Nothing checks that the ranges of a response hold any block. Sums of block numbers
are those of `u64`, which wrap around in a release build.
-/

namespace CampNode

open List

/-! ## Validation -/

inductive ValidationError where
  | duplicateNetwork (network : String)
  | networkCountChanged (expected actual : Nat)
  | unexpectedNetwork (network : String)
  | missingPrevHash (network : String) (block : Nat)
  | invalidPrevHash
  | hashMismatchOnConsecutiveBlocks (network : String) (expectedHash actualPrevHash : BlockHash)
  | invalidReorg (network : String)
  | gap (network : String) (missingStart missingEnd : Nat)
deriving DecidableEq, Repr

/-- The hash is present and not zero. -/
def isActuallySet (hash : Option BlockHash) : Bool :=
  match hash with
  | some h => h != 0
  | none => false

/-- A genesis range has no parent hash, every other range has one. -/
def validatePrevHash (incoming : BlockRange) : Except ValidationError Unit :=
  if incoming.start = 0 then
    if isActuallySet incoming.prevHash then .error .invalidPrevHash else .ok ()
  else if isActuallySet incoming.prevHash then .ok ()
  else .error (.missingPrevHash incoming.network incoming.start)

/-- The first network that occurs again later in the list. -/
def duplicateNetwork : List BlockRange → Option String
  | [] => none
  | r :: rest => if rest.any (·.network == r.network) then some r.network else duplicateNetwork rest

/-- One range for each network, and the networks of the response before. -/
def validateNetworks (previous incoming : List BlockRange) : Except ValidationError Unit :=
  match duplicateNetwork incoming with
  | some network => .error (.duplicateNetwork network)
  | none =>
      if previous.isEmpty then .ok ()
      else if previous.length ≠ incoming.length then
        .error (.networkCountChanged previous.length incoming.length)
      else
        match incoming.find? fun r => !previous.any (·.network == r.network) with
        | some r => .error (.unexpectedNetwork r.network)
        | none => .ok ()

/-- The range of the same network. -/
def ofNetwork (ranges : List BlockRange) (network : String) : Option BlockRange :=
  ranges.find? (·.network == network)

/-- The position and the hashes of a range against the range before. -/
def validateStep (prev incoming : BlockRange) : Except ValidationError Unit :=
  -- watermarks can repeat
  if incoming = prev then .ok ()
  else if nextBlock prev.stop < incoming.start then
    .error (.gap incoming.network (nextBlock prev.stop) (incoming.start - 1))
  else if incoming.start = nextBlock prev.stop then
    if incoming.prevHash ≠ some prev.hash then
      .error (.hashMismatchOnConsecutiveBlocks incoming.network prev.hash
        (incoming.prevHash.getD 0))
    else .ok ()
  else if incoming.prevHash = some prev.hash then .error (.invalidReorg incoming.network)
  else .ok ()

def validateConsecutiveness (previous : List BlockRange) :
    List BlockRange → Except ValidationError Unit
  | [] => .ok ()
  | incoming :: rest =>
      match ofNetwork previous incoming.network with
      | none => validateConsecutiveness previous rest
      | some prev =>
          match validateStep prev incoming with
          | .error e => .error e
          | .ok () => validateConsecutiveness previous rest

/-! ## Messages -/

structure InvalidationRange where
  network : String
  numbers : RangeInclusive
deriving DecidableEq, Repr

/-- The backward jump of a range, if it is one. -/
def invalidationOf (previous : List BlockRange) (incoming : BlockRange) :
    Option InvalidationRange :=
  match ofNetwork previous incoming.network with
  | none => none
  | some prev =>
      if incoming = prev then none
      else if incoming.start < nextBlock prev.stop then
        some ⟨incoming.network, ⟨incoming.start, max incoming.stop prev.stop⟩⟩
      else none

structure ResponseBatch (β : Type) where
  data : β
  ranges : List BlockRange
  rangesComplete : Bool

inductive ProtocolMessage (β : Type) where
  | data (batch : β) (ranges : List BlockRange)
  | reorg (previous incoming : List BlockRange) (invalidation : List InvalidationRange)
  | watermark (ranges : List BlockRange)

def validatePrevHashes : List BlockRange → Except ValidationError Unit
  | [] => .ok ()
  | r :: rest =>
      match validatePrevHash r with
      | .error e => .error e
      | .ok () => validatePrevHashes rest

/-- The checks of a response against the ranges before it. -/
def validateResponse (previous ranges : List BlockRange) : Except ValidationError Unit :=
  match validatePrevHashes ranges with
  | .error e => .error e
  | .ok () =>
      match validateNetworks previous ranges with
      | .error e => .error e
      | .ok () => validateConsecutiveness previous ranges

/-- The message of a response that has no reorg. -/
def ResponseBatch.message {β : Type} (response : ResponseBatch β) : ProtocolMessage β :=
  if response.rangesComplete then .watermark response.ranges
  else .data response.data response.ranges

/-- One iteration of the loop of `ProtocolStream`. -/
def protocolMessages {β : Type} (previous : List BlockRange) (response : ResponseBatch β) :
    Except ValidationError (List (ProtocolMessage β)) :=
  match validateResponse previous response.ranges with
  | .error e => .error e
  | .ok () =>
      let invalidation := response.ranges.filterMap (invalidationOf previous)
      if invalidation.isEmpty then .ok [response.message]
      else .ok [.reorg previous response.ranges invalidation, response.message]

/-- The loop of `ProtocolStream`. A response that is refused ends it. -/
def protocolStream {β : Type} (previous : List BlockRange) :
    List (ResponseBatch β) → Except ValidationError (List (ProtocolMessage β))
  | [] => .ok []
  | response :: rest =>
      match protocolMessages previous response with
      | .error e => .error e
      | .ok messages =>
          match protocolStream response.ranges rest with
          | .error e => .error e
          | .ok out => .ok (messages ++ out)

/-! ## What is accepted -/

/-- How an accepted range stands to the range before. -/
inductive Succeeds (prev incoming : BlockRange) : Prop where
  | repeats : incoming = prev → Succeeds prev incoming
  | continues : incoming ≠ prev → incoming.start = nextBlock prev.stop →
      incoming.prevHash = some prev.hash → Succeeds prev incoming
  | rewinds : incoming ≠ prev → incoming.start < nextBlock prev.stop →
      incoming.prevHash ≠ some prev.hash → Succeeds prev incoming

theorem validateStep_ok {prev incoming : BlockRange} :
    validateStep prev incoming = .ok () ↔ Succeeds prev incoming := by
  unfold validateStep
  constructor
  · intro h
    split at h
    · rename_i heq
      exact .repeats heq
    rename_i hne
    split at h
    · cases h
    split at h
    · rename_i hnext
      split at h
      · cases h
      · rename_i hhash
        exact .continues hne hnext (by simpa using hhash)
    · split at h
      · cases h
      · rename_i hhash
        exact .rewinds hne (by omega) hhash
  · intro h
    cases h with
    | repeats heq => rw [if_pos heq]
    | continues hne hnext hhash =>
      rw [if_neg hne, if_neg (by omega), if_pos hnext, if_neg (by simpa using hhash)]
    | rewinds hne hlt hhash =>
      rw [if_neg hne, if_neg (by omega), if_neg (by omega), if_neg hhash]

theorem validateConsecutiveness_ok {previous incoming : List BlockRange}
    (h : validateConsecutiveness previous incoming = .ok ()) :
    ∀ q ∈ incoming, ∀ p ∈ ofNetwork previous q.network, Succeeds p q := by
  induction incoming with
  | nil => simp
  | cons r rest ih =>
    intro q hq p hp
    unfold validateConsecutiveness at h
    cases hprev : ofNetwork previous r.network with
    | none =>
      simp only [hprev] at h
      rcases mem_cons.mp hq with rfl | hq
      · rw [hprev] at hp
        cases hp
      · exact ih h q hq p hp
    | some prev =>
      simp only [hprev] at h
      split at h
      · cases h
      rename_i hstep
      rcases mem_cons.mp hq with rfl | hq
      · rw [hprev] at hp
        cases hp
        exact validateStep_ok.mp hstep
      · exact ih h q hq p hp

variable {incoming : BlockRange} {previous ranges : List BlockRange} {β : Type}

theorem validatePrevHashes_ok (h : validatePrevHashes ranges = .ok ()) :
    ∀ q ∈ ranges, validatePrevHash q = .ok () := by
  induction ranges with
  | nil => simp
  | cons r rest ih =>
    unfold validatePrevHashes at h
    split at h
    · cases h
    rename_i hr
    intro q hq
    rcases mem_cons.mp hq with rfl | hq
    · exact hr
    · exact ih h q hq

theorem duplicateNetwork_none (h : duplicateNetwork ranges = none) :
    (ranges.map (·.network)).Nodup := by
  induction ranges with
  | nil => exact nodup_nil
  | cons r rest ih =>
    unfold duplicateNetwork at h
    split at h
    · cases h
    rename_i hany
    refine nodup_cons.mpr ⟨?_, ih h⟩
    intro hmem
    rcases mem_map.mp hmem with ⟨p, hp, hnet⟩
    exact hany (any_eq_true.mpr ⟨p, hp, beq_iff_eq.mpr hnet⟩)

theorem validateNetworks_ok (h : validateNetworks previous ranges = .ok ()) :
    (ranges.map (·.network)).Nodup ∧ (previous ≠ [] → previous.length = ranges.length ∧
      ∀ q ∈ ranges, ∃ p ∈ previous, p.network = q.network) := by
  unfold validateNetworks at h
  split at h
  · cases h
  rename_i hdup
  refine ⟨duplicateNetwork_none hdup, ?_⟩
  intro hne
  rw [if_neg (by simpa using hne)] at h
  split at h
  · cases h
  rename_i hlen
  refine ⟨not_ne_iff.mp hlen, ?_⟩
  split at h
  · cases h
  rename_i hfind
  intro q hq
  have hq := find?_eq_none.mp hfind q hq
  simp only [Bool.not_eq_true', Bool.not_eq_false, any_eq_true, beq_iff_eq] at hq
  exact hq

/-- What the messages of an accepted response say. -/
theorem protocolMessages_ok {response : ResponseBatch β} {messages : List (ProtocolMessage β)}
    (h : protocolMessages previous response = .ok messages) :
    validateResponse previous response.ranges = .ok () ∧
      ((response.ranges.filterMap (invalidationOf previous) = [] ∧ messages = [response.message]) ∨
        (response.ranges.filterMap (invalidationOf previous) ≠ [] ∧
          messages = [.reorg previous response.ranges
            (response.ranges.filterMap (invalidationOf previous)), response.message])) := by
  unfold protocolMessages at h
  split at h
  · cases h
  rename_i hvalid
  refine ⟨hvalid, ?_⟩
  simp only at h
  split at h
  · rename_i hempty
    cases h
    exact .inl ⟨isEmpty_iff.mp hempty, rfl⟩
  · rename_i hempty
    cases h
    exact .inr ⟨fun hnil => hempty (isEmpty_iff.mpr hnil), rfl⟩

theorem protocolStream_cons {response : ResponseBatch β} {rest : List (ResponseBatch β)}
    {out : List (ProtocolMessage β)} :
    protocolStream previous (response :: rest) = .ok out ↔
      ∃ messages out', protocolMessages previous response = .ok messages ∧
        protocolStream response.ranges rest = .ok out' ∧ out = messages ++ out' := by
  constructor
  · intro h
    unfold protocolStream at h
    split at h
    · cases h
    rename_i messages hmessages
    split at h
    · cases h
    · rename_i out' hout'
      cases h
      exact ⟨messages, out', hmessages, hout', rfl⟩
  · rintro ⟨messages, out', hmessages, hout', rfl⟩
    unfold protocolStream
    rw [hmessages]
    rw [hout']

theorem validateResponse_ok (h : validateResponse previous ranges = .ok ()) :
    (∀ q ∈ ranges, validatePrevHash q = .ok ()) ∧ validateNetworks previous ranges = .ok () ∧
      ∀ q ∈ ranges, ∀ p ∈ ofNetwork previous q.network, Succeeds p q := by
  unfold validateResponse at h
  split at h
  · cases h
  rename_i hprev
  split at h
  · cases h
  · rename_i hnet
    exact ⟨validatePrevHashes_ok hprev, hnet, validateConsecutiveness_ok h⟩

/-- A range that jumps back, with the range before. -/
theorem invalidationOf_some {jump : InvalidationRange}
    (h : invalidationOf previous incoming = some jump) :
    ∃ prev, ofNetwork previous incoming.network = some prev ∧
      incoming.start < nextBlock prev.stop ∧ jump.network = incoming.network ∧
      jump.numbers.start = incoming.start := by
  unfold invalidationOf at h
  split at h
  · cases h
  rename_i prev hprev
  split at h
  · cases h
  split at h
  · rename_i hlt
    cases h
    exact ⟨prev, hprev, hlt, rfl, rfl⟩
  · cases h

/-! ## Networks -/

def networks (ranges : List BlockRange) : List String := ranges.map (·.network)

/-- An accepted response has the networks of the one before. -/
theorem validateNetworks_perm {previous incoming : List BlockRange}
    (h : validateNetworks previous incoming = .ok ()) (hne : previous ≠ []) :
    (networks incoming).Perm (networks previous) := by
  rcases validateNetworks_ok h with ⟨hnodup, hsame⟩
  rcases hsame hne with ⟨hlen, hknown⟩
  have hsub : networks incoming ⊆ networks previous := by
    intro n hn
    rcases mem_map.mp hn with ⟨q, hq, rfl⟩
    exact mem_map.mpr (hknown q hq)
  apply (subperm_of_subset hnodup hsub).perm_of_length_le
  unfold networks
  rw [length_map, length_map]
  exact Nat.le_of_eq hlen

theorem ofNetwork_some {network : String} (h : network ∈ networks ranges) :
    ∃ p, ofNetwork ranges network = some p ∧ p ∈ ranges ∧ p.network = network := by
  rcases mem_map.mp h with ⟨q, hq, hnet⟩
  have hsome : (ofNetwork ranges network).isSome = true :=
    find?_isSome.mpr ⟨q, hq, beq_iff_eq.mpr hnet⟩
  rcases Option.isSome_iff_exists.mp hsome with ⟨p, hp⟩
  have hfound := @List.find?_some _ _ _ _ hp
  exact ⟨p, hp, mem_of_find?_eq_some hp, beq_iff_eq.mp hfound⟩

theorem ofNetwork_of_nodup (h : (networks ranges).Nodup) {p : BlockRange} (hp : p ∈ ranges) :
    ofNetwork ranges p.network = some p := by
  rcases ofNetwork_some (mem_map_of_mem hp) with ⟨p', hfound, hp', hnet⟩
  rw [hfound, inj_on_of_nodup_map h hp' hp hnet]

/-! ## Streams of one network -/

/-- A response with one range is accepted after one with the same network. -/
theorem validateResponse_singleton {prev incoming : BlockRange} (hprev : validatePrevHash incoming = .ok ())
    (hnet : prev.network = incoming.network) (hstep : Succeeds prev incoming) :
    validateResponse [prev] [incoming] = .ok () := by
  have hstep := validateStep_ok.mpr hstep
  simp [validateResponse, validatePrevHashes, hprev, validateNetworks, duplicateNetwork,
    validateConsecutiveness, ofNetwork, hnet, hstep]

/-- The first response of a stream only has to have a valid parent hash. -/
theorem validateResponse_first (hprev : validatePrevHash incoming = .ok ()) :
    validateResponse [] [incoming] = .ok () := by
  simp [validateResponse, validatePrevHashes, hprev, validateNetworks, duplicateNetwork,
    validateConsecutiveness, ofNetwork]

theorem protocolMessages_of_valid {β : Type} {previous : List BlockRange} {response : ResponseBatch β}
    (h : validateResponse previous response.ranges = .ok ()) :
    ∃ messages, protocolMessages previous response = .ok messages := by
  unfold protocolMessages
  rw [h]
  simp only
  split
  · exact ⟨_, rfl⟩
  · exact ⟨_, rfl⟩

/-- Responses that repeat a range are accepted, and the stream goes on from it. -/
theorem protocolStream_repeat {range : BlockRange} {responses rest : List (ResponseBatch β)}
    (hranges : ∀ r ∈ responses, r.ranges = [range])
    (hrepeat : validateResponse [range] [range] = .ok ())
    (hrest : ∃ out, protocolStream [range] rest = .ok out) :
    ∃ out, protocolStream [range] (responses ++ rest) = .ok out := by
  induction responses with
  | nil => exact hrest
  | cons r responses ih =>
    have hr : r.ranges = [range] := hranges r mem_cons_self
    obtain ⟨out, hout⟩ := ih fun x hx => hranges x (mem_cons_of_mem _ hx)
    obtain ⟨messages, hmessages⟩ := @protocolMessages_of_valid β [range] r (by rw [hr]; exact hrepeat)
    refine ⟨messages ++ out, protocolStream_cons.mpr ⟨messages, out, hmessages, ?_, rfl⟩⟩
    rw [hr]
    exact hout

/-- A stream that is cut off is accepted. -/
theorem protocolStream_take {responses : List (ResponseBatch β)} {out : List (ProtocolMessage β)}
    (h : protocolStream previous responses = .ok out) (n : Nat) :
    ∃ out', protocolStream previous (responses.take n) = .ok out' := by
  induction responses generalizing previous out n with
  | nil => exact ⟨[], by simp [protocolStream]⟩
  | cons r responses ih =>
    cases n with
    | zero => exact ⟨[], rfl⟩
    | succ n =>
      obtain ⟨messages, out', hmessages, hout', -⟩ := protocolStream_cons.mp h
      obtain ⟨out'', hout''⟩ := ih hout' n
      exact ⟨messages ++ out'', protocolStream_cons.mpr ⟨messages, out'', hmessages, hout'', rfl⟩⟩

end CampNode

import CampNode.Core.Chunks
import CampNode.Streaming.Session

/-!
# CampNode.Server.Flight — Flight messages of a streaming query

`flight_data_stream` turns the messages of a streaming query into Flight messages. A record batch
is split so that each part is small enough for a gRPC message; each part is encoded to messages
with dictionaries, without metadata, and one message with the rows and the ranges of the microbatch.
The schema goes out when the first microbatch starts, and the end of a microbatch is an empty batch
that says that the ranges are complete.

`CampNode.Streaming.Session` has the same stream with any function that splits batches, without
schema, dictionaries and errors. Here the rest is modelled, and the responses that a client reads
from the messages are shown to be those of that stream. The encoder of the Arrow library is only
known by its type: it has a state, the dictionaries sent so far, and can fail.

* `empty_batch_one_part` — a batch without rows is not split into parts that have rows: it is one
  part, and one message.
* `flight_stream_faithful` — all other batches are split into parts with rows that make up the
  batch; no assertion fails and the schema goes first; and if the encoder does not fail, the rows
  arrive in order, and each microbatch has one message that says that it is complete, at its end.
-/

namespace CampNode.Flight

open List

/-! ## Splitting batches -/

/-- A record batch: its rows, and the memory that the buffers of its columns take. -/
structure RecordBatch (Row : Type) where
  rows : List Row
  bufferSize : Nat
deriving DecidableEq, Repr

/-- A limit for the size of messages. The source divides by it. -/
abbrev Limit := { n : Nat // 1 ≤ n }

section Split

variable {Row : Type}
variable (batch : RecordBatch Row) (limit : Limit)

/-- A slice shares the buffers of the batch. -/
def RecordBatch.slice (offset length : Nat) : RecordBatch Row :=
  ⟨(batch.rows.drop offset).take length, batch.bufferSize⟩

/-- The loop with `offset`, for at most `fuel` rounds. -/
def sliceFrom (batch : RecordBatch Row) (rowsPerBatch : Nat) : Nat → Nat → List (RecordBatch Row)
  | 0, _ => []
  | fuel + 1, offset =>
      if offset < batch.rows.length then
        let length := min rowsPerBatch (batch.rows.length - offset)
        batch.slice offset length :: sliceFrom batch rowsPerBatch fuel (offset + length)
      else []

def rowsPerBatch : Nat :=
  let size := batch.bufferSize
  let nBatches := max (size / limit + (if size % limit ≠ 0 then 1 else 0)) 1
  max (batch.rows.length / nBatches) 1

def splitBatchForGrpcResponse (batch : RecordBatch Row) : List (RecordBatch Row) :=
  if batch.rows.length = 0 then [batch]
  else sliceFrom batch (rowsPerBatch batch limit) batch.rows.length 0

/-- The rows of the slices are pieces of equal length. -/
theorem sliceFrom_rows (per fuel offset : Nat) : (sliceFrom batch per fuel offset).map (·.rows) =
      chunksFrom per fuel (batch.rows.drop offset) := by
  induction fuel generalizing offset with
  | zero => rfl
  | succ fuel ih =>
    unfold sliceFrom
    split
    · rename_i hlt
      obtain ⟨row, rest, hdrop⟩ : ∃ row rest, batch.rows.drop offset = row :: rest :=
        exists_cons_of_ne_nil (by simpa using hlt)
      have hlength : (batch.rows.drop offset).length = batch.rows.length - offset := length_drop
      -- taking and dropping more than there is changes nothing
      have htake : (batch.rows.drop offset).take (min per (batch.rows.length - offset)) =
          (batch.rows.drop offset).take per := by
        rw [← hlength, ← take_take, take_length]
      have hrest : batch.rows.drop (offset + min per (batch.rows.length - offset)) =
          (batch.rows.drop offset).drop per := by
        rw [drop_drop]
        rcases Nat.le_total per (batch.rows.length - offset) with h | h
        · rw [Nat.min_eq_left h]
        · rw [Nat.min_eq_right h, drop_eq_nil_of_le (by omega), drop_eq_nil_of_le (by omega)]
      rw [map_cons, ih, hrest, RecordBatch.slice, htake, hdrop]
      rfl
    · have hnil : batch.rows.drop offset = [] := drop_eq_nil_of_le (by omega)
      rw [hnil]
      rfl

theorem rowsPerBatch_pos : 0 < rowsPerBatch batch limit :=
  Nat.lt_of_lt_of_le Nat.one_pos (Nat.le_max_right _ _)

/-- The rows of the parts are the rows of the batch. -/
theorem split_rows (batch : RecordBatch Row) :
    (splitBatchForGrpcResponse limit batch).flatMap (·.rows) = batch.rows := by
  unfold splitBatchForGrpcResponse
  split
  · exact append_nil _
  · rw [flatMap_def, sliceFrom_rows]
    exact flatten_chunks (rowsPerBatch_pos batch limit) batch.rows

/-- Every part of a batch with rows has rows. -/
theorem split_nonempty {batch : RecordBatch Row} (h : batch.rows ≠ []) :
    ∀ part ∈ splitBatchForGrpcResponse limit batch, part.rows ≠ [] := by
  intro part hpart
  unfold splitBatchForGrpcResponse at hpart
  rw [if_neg (by simpa using h)] at hpart
  have hmem : part.rows ∈ chunks (rowsPerBatch batch limit) batch.rows := by
    have hrows := sliceFrom_rows batch (rowsPerBatch batch limit) batch.rows.length 0
    rw [drop_zero] at hrows
    rw [chunks, ← hrows]
    exact mem_map_of_mem hpart
  exact (mem_chunks (rowsPerBatch_pos batch limit) hmem).1

/-- A batch without rows, as the end of a microbatch sends it, is one part without rows. -/
theorem empty_batch_one_part :
    splitBatchForGrpcResponse ⟨1, Nat.le_refl 1⟩ (⟨[], 0⟩ : RecordBatch Nat) = [⟨[], 0⟩] ∧
      ∃ part ∈ splitBatchForGrpcResponse ⟨1, Nat.le_refl 1⟩ (⟨[], 0⟩ : RecordBatch Nat),
        part.rows = [] :=
  ⟨rfl, _, mem_singleton.mpr rfl, rfl⟩

end Split

/-! ## Encoding -/

/-- The ranges of the microbatch and `ranges_complete`. -/
abbrev AppMetadata := List BlockRange × Bool

/-- A Flight message. -/
inductive FlightData (Schema Dictionary Row : Type) where
  | schema (schema : Schema)
  | dictionary (dictionary : Dictionary)
  | batch (batch : RecordBatch Row) (appMetadata : Option AppMetadata)

/-- The encoder of the Arrow library: the dictionaries to be sent before a batch, and the
dictionaries that it then knows of. -/
structure IpcDataGenerator (Tracker Dictionary Row Status : Type) where
  new : Tracker
  encodedBatch : RecordBatch Row → Tracker → Except Status (List Dictionary × Tracker)

section Encode

variable {Schema Tracker Dictionary Row Status : Type}
  (ipc : IpcDataGenerator Tracker Dictionary Row Status) (limit : Limit)

/-- The loop over the parts of a batch. -/
def encodeParts (appMetadata : Option AppMetadata) : List (RecordBatch Row) → Tracker →
      Except Status (List (FlightData Schema Dictionary Row) × Tracker)
  | [], tracker => .ok ([], tracker)
  | part :: parts, tracker =>
      match ipc.encodedBatch part tracker with
      | .error e => .error e
      | .ok (dictionaries, tracker) =>
          match encodeParts appMetadata parts tracker with
          | .error e => .error e
          | .ok (encoded, tracker) =>
              .ok (dictionaries.map .dictionary ++ .batch part appMetadata :: encoded, tracker)

def encodeRecordBatch (batch : RecordBatch Row) (appMetadata : Option AppMetadata)
    (tracker : Tracker) : Except Status (List (FlightData Schema Dictionary Row) × Tracker) :=
  encodeParts ipc appMetadata (splitBatchForGrpcResponse limit batch) tracker

/-! ## The stream -/

/-- The variables of the stream. -/
structure StreamState (Tracker : Type) where
  dictionaryTracker : Tracker
  ranges : List BlockRange
  firstMessage : Bool

variable (schema : Schema)

/-- What is yielded: a message, or an error as the last item. -/
abbrev Yield (Schema Dictionary Row Status : Type) :=
  Except Status (FlightData Schema Dictionary Row)

/-- The incremental branch of `flight_data_stream`. `none` is a failed assertion. -/
def flightStream (s : StreamState Tracker) : List (Except Status (QueryMessage (RecordBatch Row))) →
      Option (List (Yield Schema Dictionary Row Status))
  | [] => some []
  | .error e :: _ => some [.error e]
  | .ok (.microbatchStart range _) :: rest =>
      if s.ranges.isEmpty then
        let out := flightStream { s with ranges := s.ranges ++ [range], firstMessage := false } rest
        if s.firstMessage then out.map (.ok (.schema schema) :: ·) else out
      else none
  | .ok (.data batch) :: rest =>
      match encodeRecordBatch ipc limit batch (some (s.ranges, false)) s.dictionaryTracker with
      | .error e => some [.error e]
      | .ok (encoded, tracker) =>
          (flightStream { s with dictionaryTracker := tracker } rest).map (encoded.map .ok ++ ·)
  | .ok (.blockComplete _) :: rest => flightStream s rest
  | .ok (.microbatchEnd _) :: rest =>
      if s.ranges.isEmpty then none
      else
        match encodeRecordBatch ipc limit ⟨[], 0⟩ (some (s.ranges, true)) s.dictionaryTracker with
        | .error e => some [.error e]
        | .ok (encoded, tracker) =>
            (flightStream { s with dictionaryTracker := tracker, ranges := [] } rest).map
              (encoded.map .ok ++ ·)

/-- The stream from its start. -/
def flightDataStream (messages : List (Except Status (QueryMessage (RecordBatch Row)))) :
    Option (List (Yield Schema Dictionary Row Status)) :=
  flightStream ipc limit schema ⟨ipc.new, [], true⟩ messages

end Encode

/-! ## What a client reads -/

section Responses

variable {Schema Tracker Dictionary Row Status : Type}
  {ipc : IpcDataGenerator Tracker Dictionary Row Status} {limit : Limit} {schema : Schema}

/-- The batches among the messages, with their metadata. -/
def responseOf : FlightData Schema Dictionary Row → Option (ResponseBatch (RecordBatch Row))
  | .batch batch (some (ranges, complete)) => some ⟨batch, ranges, complete⟩
  | _ => none

def responsesOf (out : List (Yield Schema Dictionary Row Status)) :
    List (ResponseBatch (RecordBatch Row)) :=
  out.filterMap fun item => item.toOption.bind responseOf

@[simp] theorem responsesOf_append (out out' : List (Yield Schema Dictionary Row Status)) :
    responsesOf (out ++ out') = responsesOf out ++ responsesOf out' :=
  filterMap_append ..

variable (ipc) in
/-- The encoder does not fail on these batches, one after the other. -/
def Encodes : List (RecordBatch Row) → Tracker → Prop
  | [], _ => True
  | batch :: batches, tracker => ∃ dictionaries tracker',
      ipc.encodedBatch batch tracker = .ok (dictionaries, tracker') ∧ Encodes batches tracker'

/-- Dictionaries have no metadata, so each part is one response. -/
theorem responsesOf_dictionaries (dictionaries : List Dictionary) :
    responsesOf ((dictionaries.map FlightData.dictionary).map Except.ok :
      List (Yield Schema Dictionary Row Status)) = [] := by
  induction dictionaries with
  | nil => rfl
  | cons d rest ih => exact ih

theorem encodeParts_responses (ranges : List BlockRange) (complete : Bool)
    (parts later : List (RecordBatch Row)) (tracker : Tracker)
    (hipc : Encodes ipc (parts ++ later) tracker) :
    ∃ (encoded : List (FlightData Schema Dictionary Row)) (tracker' : Tracker),
      encodeParts ipc (some (ranges, complete)) parts tracker = .ok (encoded, tracker') ∧
        responsesOf (encoded.map .ok : List (Yield Schema Dictionary Row Status)) =
          parts.map (⟨·, ranges, complete⟩) ∧ Encodes ipc later tracker' := by
  induction parts generalizing tracker with
  | nil => exact ⟨[], tracker, rfl, rfl, hipc⟩
  | cons part parts ih =>
    obtain ⟨dictionaries, tracker₁, hpart, hrest⟩ := hipc
    obtain ⟨encoded, tracker₂, hparts, hresponses, hlater⟩ := ih tracker₁ hrest
    refine ⟨dictionaries.map .dictionary ++ .batch part (some (ranges, complete)) :: encoded,
      tracker₂, ?_, ?_, hlater⟩
    · unfold encodeParts
      simp only [hpart, hparts]
    · rw [map_append, responsesOf_append, responsesOf_dictionaries, nil_append,
        map_cons, map_cons, ← hresponses]
      rfl

/-- A batch is encoded and the stream goes on, or the encoder fails. -/
theorem encode_responses (batch : RecordBatch Row) (ranges : List BlockRange) (complete : Bool)
    (tracker : Tracker) {next : Tracker → Option (List (Yield Schema Dictionary Row Status))}
    {responses : List (ResponseBatch (RecordBatch Row))}
    (hnext : ∀ tracker, ∃ out, next tracker = some out ∧
      (Encodes ipc (responses.map (·.data)) tracker → responsesOf out = responses)) :
    ∃ out, (match encodeRecordBatch ipc limit batch (some (ranges, complete)) tracker with
        | .error e => some [.error e]
        | .ok (encoded, tracker) => (next tracker).map (encoded.map .ok ++ ·)) = some out ∧
      (Encodes ipc (((splitBatchForGrpcResponse limit batch).map
            (ResponseBatch.mk · ranges complete) ++ responses).map (·.data)) tracker →
        responsesOf out =
          (splitBatchForGrpcResponse limit batch).map (⟨·, ranges, complete⟩) ++ responses) := by
  have hdata : ((splitBatchForGrpcResponse limit batch).map (ResponseBatch.mk · ranges complete) ++
        responses).map (·.data) =
      splitBatchForGrpcResponse limit batch ++ responses.map (·.data) := by
    rw [map_append, map_map]
    exact congrArg (· ++ _) (map_id _)
  rw [hdata]
  have hparts := @encodeParts_responses Schema _ _ _ _ ipc ranges complete
    (splitBatchForGrpcResponse limit batch) (responses.map (·.data)) tracker
  unfold encodeRecordBatch
  cases hencoded : (encodeParts ipc (some (ranges, complete))
      (splitBatchForGrpcResponse limit batch) tracker :
      Except Status (List (FlightData Schema Dictionary Row) × Tracker)) with
  | error e =>
    refine ⟨[.error e], rfl, ?_⟩
    intro hipc
    obtain ⟨_, _, hok, -⟩ := hparts hipc
    rw [hok] at hencoded
    cases hencoded
  | ok result =>
    obtain ⟨encoded, tracker'⟩ := result
    obtain ⟨out, hout, hresponses⟩ := hnext tracker'
    refine ⟨encoded.map .ok ++ out, by simp only [hout, Option.map_some], ?_⟩
    intro hipc
    obtain ⟨_, _, hok, heq, hlater⟩ := hparts hipc
    rw [hok] at hencoded
    cases hencoded
    rw [responsesOf_append, heq, hresponses hlater]

/-- If no assertion fails in the stream of the session, none fails here, and the responses are the
same unless the encoder fails. -/
theorem flightStream_responses (s : StreamState Tracker)
    (messages : List (QueryMessage (RecordBatch Row))) (failure : Option Status)
    {responses : List (ResponseBatch (RecordBatch Row))}
    (h : CampNode.flightDataStream (splitBatchForGrpcResponse limit) ⟨[], 0⟩ s.ranges messages =
      some responses) :
    ∃ out : List (Yield Schema Dictionary Row Status),
      flightStream ipc limit schema s (messages.map .ok ++ failure.toList.map .error) = some out ∧
        (Encodes ipc (responses.map (·.data)) s.dictionaryTracker →
          responsesOf out = responses) := by
  induction messages generalizing s responses with
  | nil =>
    cases h
    cases failure with
    | none => exact ⟨[], rfl, fun _ => rfl⟩
    | some e => exact ⟨[.error e], rfl, fun _ => rfl⟩
  | cons message messages ih =>
    rw [map_cons, cons_append]
    cases message with
    | microbatchStart range isReorg =>
      simp only [CampNode.flightDataStream] at h
      split at h
      · rename_i hempty
        obtain ⟨out, hout, hresponses⟩ :=
          ih { s with ranges := s.ranges ++ [range], firstMessage := false } h
        simp only [flightStream, if_pos hempty, hout]
        -- the schema is no response
        cases s.firstMessage with
        | false => exact ⟨out, rfl, hresponses⟩
        | true => exact ⟨.ok (.schema schema) :: out, rfl, hresponses⟩
      · cases h
    | data batch =>
      obtain ⟨rest, hrest, rfl⟩ := Option.map_eq_some_iff.mp h
      exact encode_responses batch s.ranges false s.dictionaryTracker
        fun tracker => ih { s with dictionaryTracker := tracker } hrest
    | blockComplete number =>
      obtain ⟨rest, hrest, rfl⟩ := Option.map_eq_some_iff.mp h
      exact ih s hrest
    | microbatchEnd range =>
      simp only [CampNode.flightDataStream] at h
      split at h
      · cases h
      rename_i hempty
      obtain ⟨rest, hrest, rfl⟩ := Option.map_eq_some_iff.mp h
      simp only [flightStream, if_neg hempty]
      exact encode_responses ⟨[], 0⟩ s.ranges true s.dictionaryTracker
        fun tracker => ih { s with dictionaryTracker := tracker, ranges := [] } hrest

end Responses

/-! ## Whole streams -/

section Whole

variable {Schema Tracker Dictionary Row Status : Type}

/-- The rows of a microbatch. -/
def rowsOf (t : Transfer (RecordBatch Row)) : List Row :=
  t.body.flatMap fun message => match message with
    | .data batch => batch.rows
    | _ => []

/-- A microbatch that has started, up to some message. -/
def started (t : Transfer (RecordBatch Row)) : List (QueryMessage (RecordBatch Row)) :=
  .microbatchStart t.range t.isReorg :: t.body

variable (limit : Limit) (transfers : List (Transfer (RecordBatch Row)))
  (unfinished : Option (Transfer (RecordBatch Row)))

/-- The messages of a streaming query: microbatches, and at last one that is not complete. -/
def queryMessages : List (QueryMessage (RecordBatch Row)) :=
  transfers.flatMap Transfer.messages ++ unfinished.toList.flatMap started

/-- The responses with the rows of a microbatch. -/
def dataResponses (t : Transfer (RecordBatch Row)) : List (ResponseBatch (RecordBatch Row)) :=
  t.body.flatMap (batchResponses (splitBatchForGrpcResponse limit) [t.range])

/-- They have the rows of the microbatch in order, its range, and do not say that it is
complete. -/
theorem dataResponses_spec (t : Transfer (RecordBatch Row)) :
    ((dataResponses limit t).flatMap (·.data.rows)) = rowsOf t ∧
      ∀ r ∈ dataResponses limit t, r.ranges = [t.range] ∧ r.rangesComplete = false := by
  unfold dataResponses rowsOf
  constructor
  · rw [flatMap_assoc]
    apply flatMap_congr
    intro message _
    cases message with
    | data batch =>
      rw [batchResponses, flatMap_map]
      exact split_rows limit batch
    | _ => rfl
  · intro r hr
    obtain ⟨message, -, hr⟩ := mem_flatMap.mp hr
    cases message with
    | data batch =>
      obtain ⟨part, -, rfl⟩ := mem_map.mp hr
      exact ⟨rfl, rfl⟩
    | _ => cases hr

/-- The responses of all messages of a query. -/
def queryResponses : List (ResponseBatch (RecordBatch Row)) :=
  transfers.flatMap (fun t => dataResponses limit t ++ [⟨⟨[], 0⟩, [t.range], true⟩]) ++
    unfinished.toList.flatMap (dataResponses limit)

theorem session_responses : CampNode.flightDataStream (splitBatchForGrpcResponse limit) ⟨[], 0⟩ []
        (queryMessages transfers unfinished) = some (queryResponses limit transfers unfinished) := by
  unfold queryMessages queryResponses
  rw [flightDataStream_append]
  cases unfinished with
  | none => rfl
  | some t =>
    have hstarted : CampNode.flightDataStream (splitBatchForGrpcResponse limit) ⟨[], 0⟩ []
        (started t) = some (dataResponses limit t) := by
      have hbody := @flightDataStream_body _ (splitBatchForGrpcResponse limit) ⟨[], 0⟩ t.range _
        t.inner []
      rw [append_nil] at hbody
      simp [started, CampNode.flightDataStream, hbody, dataResponses]
    simp only [Option.toList_some, flatMap_singleton, hstarted]
    rfl

/-- All rows of the responses, in order. -/
theorem queryResponses_rows : (queryResponses limit transfers unfinished).flatMap (·.data.rows) =
      (transfers ++ unfinished.toList).flatMap rowsOf := by
  have hdata := fun t => (@dataResponses_spec Row limit t).1
  unfold queryResponses
  simp [flatMap_assoc, flatMap_append, hdata]

/-- The schema is the first message, if there is a message at all. -/
theorem schema_first {ipc : IpcDataGenerator Tracker Dictionary Row Status} {schema : Schema}
    {failure : Option Status} {out : List (Yield Schema Dictionary Row Status)}
    (h : flightDataStream ipc limit schema
      ((queryMessages transfers unfinished).map .ok ++ failure.toList.map .error) = some out) :
    out.head? = some (.ok (.schema schema)) ∨ ∀ item ∈ out, ∃ e, item = .error e := by
  -- the first message of a query starts a microbatch
  have hstart : ∀ range isReorg rest, flightDataStream ipc limit schema
      (.ok (.microbatchStart range isReorg) :: rest) = some out →
        out.head? = some (.ok (.schema schema)) := by
    intro range isReorg rest hout
    obtain ⟨out', -, rfl⟩ := Option.map_eq_some_iff.mp hout
    rfl
  cases transfers with
  | cons t transfers => exact .inl (hstart _ _ _ h)
  | nil =>
    cases unfinished with
    | some t => exact .inl (hstart _ _ _ h)
    | none =>
      right
      cases failure with
      | none =>
        cases h
        nofun
      | some e =>
        cases h
        intro item hitem
        exact ⟨e, mem_singleton.mp hitem⟩

end Whole

/-- A batch with rows is split into parts with rows that make up the batch, and one without is left
as it is. For every sequence of microbatches, the last one maybe unfinished and followed by an
error of the query: no assertion fails, and nothing is sent before the schema. If the encoder does
not fail on what is sent, the responses have the rows in order, and those of a microbatch are its
rows, without the mark that it is complete, and then one that has the mark. -/
theorem flight_stream_faithful {Schema Tracker Dictionary Row Status : Type}
    (ipc : IpcDataGenerator Tracker Dictionary Row Status) (limit : Limit) (schema : Schema)
    (transfers : List (Transfer (RecordBatch Row)))
    (unfinished : Option (Transfer (RecordBatch Row))) (failure : Option Status) :
    (∀ batch : RecordBatch Row,
      (splitBatchForGrpcResponse limit batch).flatMap (·.rows) = batch.rows ∧
        (batch.rows ≠ [] → ∀ part ∈ splitBatchForGrpcResponse limit batch, part.rows ≠ []) ∧
        (batch.rows = [] → splitBatchForGrpcResponse limit batch = [batch])) ∧
      (∀ t : Transfer (RecordBatch Row), (dataResponses limit t).flatMap (·.data.rows) = rowsOf t ∧
        ∀ r ∈ dataResponses limit t, r.ranges = [t.range] ∧ r.rangesComplete = false) ∧
      ∃ out, flightDataStream ipc limit schema
          ((queryMessages transfers unfinished).map .ok ++ failure.toList.map .error) = some out ∧
        (out.head? = some (.ok (.schema schema)) ∨ ∀ item ∈ out, ∃ e, item = .error e) ∧
        (Encodes ipc ((queryResponses limit transfers unfinished).map (·.data)) ipc.new →
          responsesOf out =
            transfers.flatMap (fun t => dataResponses limit t ++ [⟨⟨[], 0⟩, [t.range], true⟩]) ++
              unfinished.toList.flatMap (dataResponses limit) ∧
          (responsesOf out).flatMap (·.data.rows) =
            (transfers ++ unfinished.toList).flatMap rowsOf) := by
  refine ⟨?_, dataResponses_spec limit, ?_⟩
  · intro batch
    refine ⟨split_rows limit batch, split_nonempty limit, ?_⟩
    intro hempty
    unfold splitBatchForGrpcResponse
    rw [if_pos (by rw [hempty]; rfl)]
  · obtain ⟨out, hout, hresponses⟩ := @flightStream_responses Schema _ _ _ _ ipc limit schema
      ⟨ipc.new, [], true⟩ (queryMessages transfers unfinished) failure _
      (session_responses limit transfers unfinished)
    refine ⟨out, hout, schema_first _ _ _ hout, ?_⟩
    intro hipc
    rw [hresponses hipc]
    exact ⟨rfl, queryResponses_rows limit transfers unfinished⟩

/-- An encoder whose rows refer to the dictionary of their tens. As with `DictionaryTracker::new`
of `true`, a dictionary is sent once and may not be replaced. -/
def tensIpc : IpcDataGenerator (Option Nat) Nat Nat String where
  new := none
  encodedBatch batch tracker :=
    match batch.rows.head?.map (· / 10), tracker with
    | none, _ => .ok ([], tracker)
    | some tens, none => .ok ([tens], some tens)
    | some tens, some sent => if tens = sent then .ok ([], tracker) else .error "replaced"

def tensTransfer : Transfer (RecordBatch Nat) where
  range := ⟨⟨1, 2⟩, "mainnet", 0, none⟩
  isReorg := false
  body := [.data ⟨[17, 18, 19], 30⟩, .blockComplete 1, .data ⟨[], 0⟩]
  inner := by simp [QueryMessage.Inner]

/-- Three rows of one dictionary in three parts, an empty batch and the end of the microbatch. -/
theorem flight_stream_faithful_tens :
    Encodes tensIpc ((queryResponses ⟨20, by decide⟩ [tensTransfer] none).map (·.data)) none ∧
      ∃ out, flightDataStream tensIpc ⟨20, by decide⟩ "schema"
          ((queryMessages [tensTransfer] none).map .ok ++ []) = some out ∧
        (responsesOf out).map (fun r => (r.data.rows, r.rangesComplete)) =
          [([17], false), ([18], false), ([19], false), ([], false), ([], true)] := by
  have hparts : (queryResponses ⟨20, by decide⟩ [tensTransfer] none).map (·.data) =
      [⟨[17], 30⟩, ⟨[18], 30⟩, ⟨[19], 30⟩, ⟨[], 0⟩, ⟨[], 0⟩] := by decide
  have hipc : Encodes tensIpc
      ((queryResponses ⟨20, by decide⟩ [tensTransfer] none).map (·.data)) none := by
    rw [hparts]
    exact ⟨_, _, rfl, _, _, rfl, _, _, rfl, _, _, rfl, _, _, rfl, trivial⟩
  obtain ⟨-, -, out, hout, -, hresponses⟩ :=
    flight_stream_faithful tensIpc ⟨20, by decide⟩ "schema" [tensTransfer] none none
  refine ⟨hipc, out, hout, ?_⟩
  rw [(hresponses hipc).1]
  decide

end CampNode.Flight

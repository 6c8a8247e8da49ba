import CampNode.Evm.Append
import Mathlib.Data.List.Forall2

/-!
# CampNode.Evm.DecodeLog — the columns of decoded events

`decode` turns a batch of logs into an array with a column for each parameter of an event: first
the indexed parameters, from the topics, and then the others, from the data. A null topic and
data that cannot be decoded become nulls. Anything else that goes wrong is an error, and an
error in one row is an error of the whole batch.

`decode_ok_iff` says which logs do not fail their batch: the values are `Clean`, and the topics of
reference types are not null. `malformed_log_fails_batch` has a batch for each condition that
fails without it.

The ABI decoder is a parameter, of which only the shape of the decoded values is known. Names of
events, their first topic and the texts of traces are left out.
-/

namespace CampNode.Evm

open List Builder

/-! ## Events -/

/-- A parameter of an event signature. -/
structure Param where
  name : String
  type : DynSolType
  indexed : Bool

structure Event where
  topicNames : List String
  topicTypes : List DynSolType
  bodyNames : List String
  bodyTypes : List DynSolType

namespace Event

def new (inputs : List Param) : Except DecodeError Event :=
  let topics := inputs.filter fun param => param.indexed
  let body := inputs.filter fun param => !param.indexed
  if 3 < topics.length then .error (.indexedParameters topics.length)
  else .ok {
    topicNames := topics.map Param.name
    topicTypes := topics.map Param.type
    bodyNames := body.map Param.name
    bodyTypes := body.map Param.type }

end Event

/-- The names zipped with the types of the columns. -/
def fieldsOf (arrowType : DynSolType → Except DecodeError DataType) :
    List String → List DynSolType → Except DecodeError (List (String × DataType))
  | name :: names, ty :: types =>
      match arrowType ty with
      | .error e => .error e
      | .ok t => (fieldsOf arrowType names types).map fun fields => (name, t) :: fields
  | _, _ => .ok []

def Event.fields (event : Event) : Except DecodeError (List (String × DataType)) :=
  match fieldsOf solToArrowTypeForIndexed event.topicNames event.topicTypes with
  | .error e => .error e
  | .ok topics =>
      (fieldsOf solToArrowType event.bodyNames event.bodyTypes).map fun body => topics ++ body

/-! ## Rows -/

structure LogRow where
  topic1 : Option (BitVec 256)
  topic2 : Option (BitVec 256)
  topic3 : Option (BitVec 256)
  data : Option (List (BitVec 8))

/-- `abi_decode_sequence`. -/
structure AbiDecoder where
  decodeSequence : List DynSolType → List (BitVec 8) → Option (List DynSolValue)
  shaped : ∀ {types data values}, decodeSequence types data = some values →
    DynSolValue.ShapedEach values types

variable (ty : DynSolType)

/-- `FieldBuilder::append_null_value`. The type is the one of a parameter that is not indexed. -/
def appendNullValue (b : Builder) : Except DecodeError Builder :=
  match solToArrowType ty with
  | .error e => .error e
  | .ok t => appendNull t b

/-- `FieldBuilder` is an index into the field builders. -/
def updateField (op : Builder → Except DecodeError Builder) :
    Nat → List Builder → Except DecodeError (List Builder)
  | _, [] => .error .panic
  | 0, b :: rest => (op b).map fun b' => b' :: rest
  | i + 1, b :: rest => (updateField op i rest).map fun rest' => b :: rest'

/-- The fields from `start` on, one after the other. -/
def updateFrom (start : Nat) :
    List (Builder → Except DecodeError Builder) → List Builder → Except DecodeError (List Builder)
  | [], columns => .ok columns
  | op :: ops, columns =>
      match updateField op start columns with
      | .error e => .error e
      | .ok columns' => updateFrom (start + 1) ops columns'

/-- `detokenize` on a word; reference types are in the topic as their hash. -/
def topicValue (word : BitVec 256) : DynSolValue :=
  match ty with
  | .bool => .bool (word != 0)
  | .int bits => .int word.toInt bits
  | .uint bits => .uint word.toNat bits
  | .fixedBytes size => .fixedBytes word size
  | .address => .address (word.setWidth 160)
  | .function => .function (word.extractLsb' 64 192)
  | .bytes | .string | .array _ | .fixedArray _ _ | .tuple _ => .fixedBytes word 32

def appendTopic (value : Option (BitVec 256)) : Builder → Except DecodeError Builder :=
  match value with
  | some word => append (topicValue ty word)
  | none => appendNullValue ty

namespace Event

variable (event : Event) (decoder : AbiDecoder) (data : Option (List (BitVec 8))) (row : LogRow)
  (columns : List Builder)

def decodeTopic (number : Nat) (value : Option (BitVec 256)) (columns : List Builder) :
    Except DecodeError (List Builder) :=
  if event.topicNames.length < number then .ok columns
  else
    match event.topicTypes[number - 1]? with
    | none => .error .panic
    | some ty => updateField (appendTopic ty value) (number - 1) columns

/-- The values of the data field, if there is one and it can be decoded. -/
def bodyValues : Option (List DynSolValue) :=
  data.bind (decoder.decodeSequence event.bodyTypes)

def decodeBody : Except DecodeError (List Builder) :=
  if event.bodyTypes.isEmpty then .ok columns
  else
    match event.bodyValues decoder data with
    | some values =>
        updateFrom event.topicTypes.length ((values.zip event.bodyTypes).map fun entry => append entry.1)
          columns
    | none => updateFrom event.topicTypes.length (event.bodyTypes.map appendNullValue) columns

def decodeRow : Except DecodeError (List Builder) := do
  let columns ← event.decodeTopic 1 row.topic1 columns
  let columns ← event.decodeTopic 2 row.topic2 columns
  let columns ← event.decodeTopic 3 row.topic3 columns
  event.decodeBody decoder row.data columns

/-- The loop over the rows, with the validity of the rows of the struct. -/
def decodeRows (event : Event) (decoder : AbiDecoder) :
    List LogRow → List Builder → List Bool → Except DecodeError (List Builder × List Bool)
  | [], columns, validity => .ok (columns, validity)
  | row :: rest, columns, validity =>
      match event.decodeRow decoder row columns with
      | .error e => .error e
      | .ok columns' => decodeRows event decoder rest columns' (validity ++ [true])

end Event

inductive DecodedArray where
  /-- A `NullArray`. -/
  | nulls (length : Nat)
  | structs (names : List String) (columns : List Builder) (validity : List Bool)

def decode (decoder : AbiDecoder) (inputs : List Param) (rows : List LogRow) :
    Except DecodeError DecodedArray :=
  match Event.new inputs with
  | .error e => .error e
  | .ok event =>
      match event.fields with
      | .error e => .error e
      | .ok fields =>
          if fields.isEmpty then .ok (.nulls rows.length)
          else
            match Builder.ofTypes (fields.map Prod.snd) with
            | none => .error .panic
            | some builders =>
                match event.decodeRows decoder rows builders [] with
                | .error e => .error e
                | .ok (columns, validity) =>
                    -- `finish` panics if the lengths of the columns differ.
                    if (Builder.struct (fields.map Prod.fst) columns validity).consistent then
                      .ok (.structs (fields.map Prod.fst) columns validity)
                    else .error .panic

/-! ## Columns -/

/-- The types that are in a topic as their hash. -/
def DynSolType.isReference : DynSolType → Bool
  | .bytes | .string | .array _ | .fixedArray _ _ | .tuple _ => true
  | .bool | .int _ | .uint _ | .fixedBytes _ | .address | .function => false

variable (start : Nat) (op : Builder → Except DecodeError Builder) (c : Column) (row : LogRow)
  (ops ops' : List (Builder → Except DecodeError Builder))

def LogRow.topic : Nat → Option (BitVec 256)
  | 0 => row.topic1
  | 1 => row.topic2
  | _ => row.topic3

/-- What a row does to one column, whether its entry there is valid, and whether the column can take
it. -/
structure Column where
  type : Except DecodeError DataType
  append : LogRow → Builder → Except DecodeError Builder
  valid : LogRow → Bool
  Clean : LogRow → Prop

namespace Event

variable (event : Event) (decoder : AbiDecoder) (i : Nat) (ty : DynSolType)

def topicColumn : Column where
  type := solToArrowTypeForIndexed ty
  append row := appendTopic ty (row.topic i)
  valid row := (row.topic i).isSome
  Clean row := match row.topic i with
    | some word => (topicValue ty word).Clean
    | none => ty.isReference = false

def bodyColumn : Column where
  type := solToArrowType ty
  append row := match event.bodyValues decoder row.data with
    | none => appendNullValue ty
    | some values =>
        match values[i]? with
        | none => .ok
        | some value => Evm.append value
  valid row := (event.bodyValues decoder row.data).isSome
  Clean row := ∀ {values value}, event.bodyValues decoder row.data = some values →
    values[i]? = some value → value.Clean

def columns : List Column :=
  event.topicTypes.mapIdx topicColumn ++ event.bodyTypes.mapIdx (event.bodyColumn decoder)

end Event

theorem map_mapIdx {α β γ : Type} (f : Nat → α → β) (g : β → γ) (l : List α) :
    (l.mapIdx f).map g = l.mapIdx fun i a => g (f i a) := by
  apply ext_getElem
  · simp
  · intro i _ _
    simp

/-! ### One row after the other -/

theorem updateFrom_nil : updateFrom start [] = pure := rfl

theorem updateFrom_cons : updateFrom start (op :: ops) =
      fun columns => updateField op start columns >>= updateFrom (start + 1) ops := by
  funext columns
  rw [updateFrom]
  cases updateField op start columns with
  | error e => rfl
  | ok columns' => rfl

theorem updateFrom_append (columns : List Builder) : updateFrom start (ops ++ ops') columns =
      updateFrom start ops columns >>= updateFrom (start + ops.length) ops' := by
  induction ops generalizing start columns with
  | nil => rfl
  | cons op ops ih =>
    have hstart : start + (op :: ops).length = start + 1 + ops.length := by
      rw [length_cons]
      omega
    simp only [cons_append, updateFrom_cons, bind_assoc, hstart]
    congr 1
    funext columns'
    exact ih (start + 1) columns'

namespace Event

variable {event : Event}

section

variable (hnames : event.topicNames.length = event.topicTypes.length)
include hnames

theorem decodeTopic_some {i : Nat} {ty : DynSolType} (h : event.topicTypes[i]? = some ty) (value : Option (BitVec 256)) :
    event.decodeTopic (i + 1) value = updateField (appendTopic ty value) i := by
  have hi : i < event.topicTypes.length := (List.getElem?_eq_some_iff.mp h).1
  funext columns
  rw [decodeTopic, if_neg (by omega), Nat.add_sub_cancel, h]

/-- A number that is greater than the number of topics leaves the columns as they are. -/
theorem decodeTopic_none {i : Nat} (h : event.topicTypes.length ≤ i) (value : Option (BitVec 256)) :
    event.decodeTopic (i + 1) value = pure := by
  funext columns
  rw [decodeTopic, if_pos (by omega)]
  rfl

/-- The three topics that the loop reads are enough for the topics of the event. -/
theorem decodeTopics_eq (hlength : event.topicTypes.length ≤ 3) (row : LogRow) (columns : List Builder) :
    (event.decodeTopic 1 row.topic1 columns >>= fun columns =>
      event.decodeTopic 2 row.topic2 columns >>= event.decodeTopic 3 row.topic3) =
      updateFrom 0 (event.topicTypes.mapIdx fun i ty => appendTopic ty (row.topic i)) columns := by
  match htypes : event.topicTypes, hlength with
  | [], _ =>
    rw [decodeTopic_none hnames (by simp [htypes]), decodeTopic_none hnames (by simp [htypes]),
      decodeTopic_none hnames (by simp [htypes])]
    rfl
  | [ty], _ =>
    rw [decodeTopic_some hnames (by rw [htypes]; rfl), decodeTopic_none hnames (by simp [htypes]),
      decodeTopic_none hnames (by simp [htypes])]
    simp [updateFrom_cons, updateFrom_nil, LogRow.topic]
  | [ty, ty'], _ =>
    rw [decodeTopic_some hnames (by rw [htypes]; rfl), decodeTopic_some hnames (by rw [htypes]; rfl),
      decodeTopic_none hnames (by simp [htypes])]
    simp [updateFrom_cons, updateFrom_nil, LogRow.topic]
  | [ty, ty', ty''], _ =>
    rw [decodeTopic_some hnames (by rw [htypes]; rfl), decodeTopic_some hnames (by rw [htypes]; rfl),
      decodeTopic_some hnames (by rw [htypes]; rfl)]
    simp [updateFrom_cons, updateFrom_nil, LogRow.topic]

end

variable {decoder : AbiDecoder} {values : List DynSolValue}

/-- The loop over the decoded values appends to every column of the body. -/
theorem bodyOps_some {row : LogRow} (h : event.bodyValues decoder row.data = some values)
    (hshaped : values.length = event.bodyTypes.length) :
    ((values.zip event.bodyTypes).map fun entry => append entry.1) =
      event.bodyTypes.mapIdx fun i ty => (event.bodyColumn decoder i ty).append row := by
  apply ext_getElem
  · simp [hshaped]
  intro i hi hi'
  have hv : i < values.length := by
    simp at hi'
    omega
  simp [bodyColumn, h, getElem?_eq_getElem hv]

theorem bodyOps_none {row : LogRow} (h : event.bodyValues decoder row.data = none) :
    event.bodyTypes.map appendNullValue =
      event.bodyTypes.mapIdx fun i ty => (event.bodyColumn decoder i ty).append row := by
  apply ext_getElem
  · simp
  · intro i hi hi'
    simp [bodyColumn, h]

theorem bodyValues_shaped {data : Option (List (BitVec 8))}
    (h : event.bodyValues decoder data = some values) :
    DynSolValue.ShapedEach values event.bodyTypes := by
  obtain ⟨bytes, -, hdecoded⟩ := Option.bind_eq_some_iff.mp h
  exact decoder.shaped hdecoded

theorem decodeBody_eq (decoder : AbiDecoder) (row : LogRow) (columns : List Builder) :
    event.decodeBody decoder row.data columns = updateFrom event.topicTypes.length
        (event.bodyTypes.mapIdx fun i ty => (event.bodyColumn decoder i ty).append row) columns := by
  by_cases hempty : event.bodyTypes = []
  · simp [decodeBody, hempty, updateFrom_nil, pure, Except.pure]
  have hne : event.bodyTypes.isEmpty = false := isEmpty_eq_false_iff.mpr hempty
  rw [decodeBody, hne, if_neg Bool.false_ne_true]
  cases hvalues : event.bodyValues decoder row.data with
  | none => simp only [bodyOps_none hvalues]
  | some values =>
    simp only [bodyOps_some hvalues (shapedEach_length (bodyValues_shaped hvalues))]

/-- A row is appended to every column, from the first to the last. -/
theorem decodeRow_eq (hnames : event.topicNames.length = event.topicTypes.length)
    (hlength : event.topicTypes.length ≤ 3) (decoder : AbiDecoder) (row : LogRow)
    (columns : List Builder) :
    event.decodeRow decoder row columns =
      updateFrom 0 ((event.columns decoder).map fun c => c.append row) columns := by
  have hops : ((event.columns decoder).map fun c => c.append row) =
      (event.topicTypes.mapIdx fun i ty => appendTopic ty (row.topic i)) ++
        event.bodyTypes.mapIdx fun i ty => (event.bodyColumn decoder i ty).append row := by
    rw [Event.columns, map_append, map_mapIdx, map_mapIdx]
    rfl
  rw [hops, updateFrom_append, ← decodeTopics_eq hnames hlength, length_mapIdx, Nat.zero_add,
    decodeRow, bind_assoc]
  congr 1
  funext columns₁
  rw [bind_assoc]
  congr 1
  funext columns₂
  congr 1
  funext columns₃
  exact decodeBody_eq decoder row columns₃

end Event

/-! ## Rows that do not fail -/

/-- Only the hash of an indexed parameter of a reference type is stored. -/
def Param.Supported (param : Param) : Prop :=
  (param.indexed = true ∧ param.type.isReference = true) ∨ param.type.Supported

/-- The values of a row can be stored in the columns of their types. -/
structure Event.RowOk (event : Event) (decoder : AbiDecoder) (row : LogRow) : Prop where
  topics : ∀ {i ty}, event.topicTypes[i]? = some ty → match row.topic i with
    | some word => (topicValue ty word).Clean
    | none => ty.isReference = false
  body : ∀ {values}, event.bodyValues decoder row.data = some values → ∀ v ∈ values, v.Clean

/-- The values of a row can be stored if every column can take its entry. -/
theorem Event.rowOk_iff {event : Event} {decoder : AbiDecoder} {row : LogRow} :
    event.RowOk decoder row ↔ ∀ c ∈ event.columns decoder, c.Clean row := by
  constructor
  · intro h c hc
    rcases mem_append.mp hc with hc | hc
    · obtain ⟨i, hi, rfl⟩ := mem_mapIdx.mp hc
      exact h.topics (getElem?_eq_getElem hi)
    · obtain ⟨i, hi, rfl⟩ := mem_mapIdx.mp hc
      intro values value hvalues hvalue
      exact h.body hvalues value (mem_of_getElem? hvalue)
  · intro h
    constructor
    · intro i ty hty
      obtain ⟨hi, rfl⟩ := List.getElem?_eq_some_iff.mp hty
      exact h _ (mem_append_left _ (mem_mapIdx.mpr ⟨i, hi, rfl⟩))
    · intro values hvalues v hv
      obtain ⟨i, hi, rfl⟩ := getElem_of_mem hv
      have hlength := shapedEach_length (bodyValues_shaped hvalues)
      exact h _ (mem_append_right _ (mem_mapIdx.mpr ⟨i, hlength ▸ hi, rfl⟩)) hvalues
        (getElem?_eq_getElem hi)

/-- A row adds one entry to a column. -/
def Column.Takes : Prop :=
  ∀ b : Builder, c.type = .ok b.dataType → b.consistent = true →
    ∃ b', c.append row b = .ok b' ∧ b.Grows b' [c.valid row]

/-- A column that can be finished after a row can take the row. -/
def Column.Fills : Prop :=
  ∀ b b' : Builder, c.type = .ok b.dataType → b.Fed → c.append row b = .ok b' →
    b.Fills b' 1 (c.Clean row)

/-- There is a builder for a column. -/
def Column.Built : Prop := ∃ t b, c.type = .ok t ∧ ofType t = some b

variable {ty : DynSolType} {cols : List Column} {builders : List Builder} {rows : List LogRow}

theorem appendNullValue_ok {b : Builder} (hb : b.Holds ty) :
    ∃ b', appendNullValue ty b = .ok b' ∧ b.Grows b' [false] := by
  rw [appendNullValue, hb.type]
  exact appendNull_ok hb

/-- A topic of a value type has the type of the parameter. -/
theorem solToArrowTypeForIndexed_value (h : ty.isReference = false) :
    solToArrowTypeForIndexed ty = solToArrowType ty := by
  cases ty with
  | bool | int | uint | fixedBytes | address | function => rfl
  | bytes | string | array | fixedArray | tuple => cases h

theorem solToArrowTypeForIndexed_reference (h : ty.isReference = true) :
    solToArrowTypeForIndexed ty = .ok (.leaf (.fixedSizeBinary 32)) := by
  cases ty with
  | bool | int | uint | fixedBytes | address | function => cases h
  | bytes | string | array | fixedArray | tuple => rfl

theorem topicValue_shaped (h : ty.isReference = false) (word : BitVec 256) :
    (topicValue ty word).Shaped ty := by
  cases ty with
  | bool | int | uint | fixedBytes | address | function =>
    constructor
  | bytes | string | array | fixedArray | tuple => cases h

theorem topicValue_reference (h : ty.isReference = true) (word : BitVec 256) :
    topicValue ty word = .fixedBytes word 32 := by
  cases ty with
  | bool | int | uint | fixedBytes | address | function => cases h
  | bytes | string | array | fixedArray | tuple => rfl

/-- A null of a reference type is not one of a hash. -/
theorem appendNullValue_reference (h : ty.isReference = true) (values : List (Option Scalar)) :
    ∃ e, appendNullValue ty (.leaf (.fixedSizeBinary 32) values) = .error e := by
  unfold appendNullValue
  cases htype : solToArrowType ty with
  | error e => exact ⟨e, rfl⟩
  | ok t =>
    cases ty with
    | bool | int | uint | fixedBytes | address | function => cases h
    | bytes | string =>
      cases htype
      exact ⟨_, rfl⟩
    | array | fixedArray | tuple =>
      obtain ⟨_, -, rfl⟩ := map_eq_ok htype
      exact ⟨_, rfl⟩

namespace Event

variable {event : Event} {decoder : AbiDecoder} {row : LogRow} {i : Nat}

theorem topicColumn_takes (hs : ty.isReference = true ∨ ty.Supported)
    (hclean : (topicColumn i ty).Clean row) : (topicColumn i ty).Takes row := by
  intro b htype hconsistent
  dsimp only [topicColumn] at htype hclean ⊢
  cases href : ty.isReference with
  | true =>
    -- The column has the type of a hash, so a null of the parameter's own type would not fit.
    rw [solToArrowTypeForIndexed_reference href] at htype
    obtain ⟨values, rfl⟩ := eq_leaf (Except.ok.inj htype).symm
    cases hword : row.topic i with
    | none =>
      rw [hword] at hclean
      exact absurd (href.symm.trans hclean) (by decide)
    | some word =>
      rw [appendTopic, topicValue_reference href, append]
      exact ⟨_, @pushFixed_ok 32 values word, grows_leaf _ values (some (.fixed 32 word))⟩
  | false =>
    have hsupported : ty.Supported := hs.resolve_left (by simp [href])
    rw [solToArrowTypeForIndexed_value href] at htype
    have hb : b.Holds ty := ⟨hsupported, htype, hconsistent⟩
    cases hword : row.topic i with
    | none => exact appendNullValue_ok hb
    | some word =>
      rw [hword] at hclean
      obtain ⟨b', happend, hgrows, -⟩ := append_ok (topicValue_shaped href word) hclean hb
      exact ⟨b', happend, hgrows⟩

theorem topicColumn_fills : (topicColumn i ty).Fills row := by
  intro b b' htype hfed h
  dsimp only [topicColumn] at htype h ⊢
  cases href : ty.isReference with
  | true =>
    rw [solToArrowTypeForIndexed_reference href] at htype
    obtain ⟨values, rfl⟩ := eq_leaf (Except.ok.inj htype).symm
    cases hword : row.topic i with
    | none =>
      rw [hword] at h
      obtain ⟨e, he⟩ := appendNullValue_reference href values
      cases he.symm.trans h
    | some word =>
      rw [hword, appendTopic, topicValue_reference href, append] at h
      cases (@pushFixed_ok 32 values word).symm.trans h
      refine fills_leaf _ values _ ?_
      simp only [topicValue_reference href, DynSolValue.Clean]
  | false =>
    rw [solToArrowTypeForIndexed_value href] at htype
    cases hword : row.topic i with
    | none =>
      rw [hword, appendTopic, appendNullValue, htype] at h
      exact (appendNull_fills rfl hfed h).imp fun _ => rfl
    | some word =>
      rw [hword] at h
      exact append_fills (topicValue_shaped href word) htype hfed h

theorem shapedEach_getElem? : ∀ {values : List DynSolValue} {types : List DynSolType} {i : Nat}
    {ty : DynSolType}, DynSolValue.ShapedEach values types → types[i]? = some ty →
    ∃ value, values[i]? = some value ∧ value.Shaped ty
  | v :: values, _ :: types, i, ty, .cons hs hrest, hty => by
      cases i with
      | zero =>
        cases hty
        exact ⟨v, rfl, hs⟩
      | succ i =>
        rw [getElem?_cons_succ] at hty ⊢
        exact shapedEach_getElem? hrest hty
  | [], [], _, _, _, hty => by cases hty

theorem bodyColumn_takes (hs : ty.Supported) (hty : event.bodyTypes[i]? = some ty)
    (hclean : (event.bodyColumn decoder i ty).Clean row) :
    (event.bodyColumn decoder i ty).Takes row := by
  intro b htype hconsistent
  have hb : b.Holds ty := ⟨hs, htype, hconsistent⟩
  dsimp only [bodyColumn] at hclean ⊢
  cases hvalues : event.bodyValues decoder row.data with
  | none => exact appendNullValue_ok hb
  | some values =>
    obtain ⟨value, hvalue, hshaped⟩ := shapedEach_getElem? (bodyValues_shaped hvalues) hty
    simp only [hvalue]
    obtain ⟨b', happend, hgrows, -⟩ := append_ok hshaped (hclean hvalues hvalue) hb
    exact ⟨b', happend, hgrows⟩

theorem bodyColumn_fills (hty : event.bodyTypes[i]? = some ty) :
    (event.bodyColumn decoder i ty).Fills row := by
  intro b b' htype hfed h
  dsimp only [bodyColumn] at htype h ⊢
  cases hvalues : event.bodyValues decoder row.data with
  | none =>
    simp only [hvalues, appendNullValue, htype] at h
    exact (appendNull_fills rfl hfed h).imp fun _ => nofun
  | some values =>
    obtain ⟨value, hvalue, hshaped⟩ := shapedEach_getElem? (bodyValues_shaped hvalues) hty
    simp only [hvalues, hvalue] at h
    refine (append_fills hshaped htype hfed h).imp fun hclean => ?_
    rintro _ _ ⟨⟩ hvalue'
    cases hvalue.symm.trans hvalue'
    exact hclean

theorem columns_fill : ∀ c ∈ event.columns decoder, c.Fills row := by
  intro c hc
  rcases mem_append.mp hc with hc | hc
  · obtain ⟨i, hi, rfl⟩ := mem_mapIdx.mp hc
    exact topicColumn_fills
  · obtain ⟨i, hi, rfl⟩ := mem_mapIdx.mp hc
    exact bodyColumn_fills (getElem?_eq_getElem hi)

end Event

/-! ### A whole batch -/

/-- A column after the rows `done`. -/
structure Column.After (done : List LogRow) (c : Column) (b : Builder) : Prop where
  type : c.type = .ok b.dataType
  consistent : b.consistent = true
  validity : b.validity = done.map c.valid

theorem updateField_append (pre rest : List Builder) (b : Builder) :
    updateField op pre.length (pre ++ b :: rest) = (op b).map fun b' => pre ++ b' :: rest := by
  induction pre with
  | nil => rfl
  | cons c pre ih =>
    rw [cons_append, length_cons, updateField, ih]
    cases op b <;> rfl

/-- One row, with the columns before it already done. -/
theorem updateFrom_takes {done : List LogRow} {row : LogRow}
    (h : List.Forall₂ (Column.After done) cols builders) (htakes : ∀ c ∈ cols, c.Takes row)
    (pre : List Builder) :
    ∃ builders', updateFrom pre.length (cols.map fun c => c.append row) (pre ++ builders) =
        .ok (pre ++ builders') ∧
      List.Forall₂ (Column.After (done ++ [row])) cols builders' := by
  induction h generalizing pre with
  | nil => exact ⟨[], rfl, .nil⟩
  | @cons c b cols builders hc _ ih =>
    obtain ⟨b', happend, hgrows⟩ := htakes c mem_cons_self b hc.type hc.consistent
    have hpre := ih (fun c' hc' => htakes c' (mem_cons_of_mem _ hc')) (pre ++ [b'])
    obtain ⟨builders', hupdate, hafter⟩ := hpre
    refine ⟨b' :: builders', ?_, .cons ?_ hafter⟩
    · rw [map_cons, updateFrom, updateField_append, happend]
      simpa [Except.map] using hupdate
    · constructor
      · rw [hgrows.dataType, hc.type]
      · exact hgrows.consistent
      · rw [hgrows.validity, hc.validity, map_append, map_singleton]

/-- Columns and their builders, in the middle of a batch. -/
def Filling : List Column → List Builder → Prop :=
  List.Forall₂ fun c b => c.type = .ok b.dataType ∧ b.Fed

/-- A row that was appended to columns that can be finished. -/
theorem updateFrom_fills {row : LogRow} {pre out : List Builder} (h : Filling cols builders)
    (hfills : ∀ c ∈ cols, c.Fills row)
    (hout : updateFrom pre.length (cols.map fun c => c.append row) (pre ++ builders) = .ok out) :
    ∃ builders', out = pre ++ builders' ∧ Filling cols builders' ∧
      ((∀ b ∈ builders', b.consistent = true) →
        (∀ b ∈ builders, b.consistent = true) ∧ ∀ c ∈ cols, c.Clean row) := by
  induction h generalizing pre with
  | nil =>
    cases hout
    exact ⟨[], rfl, .nil, fun _ => ⟨nofun, nofun⟩⟩
  | @cons c b cols builders hc _ ih =>
    rw [map_cons, updateFrom, updateField_append] at hout
    cases happend : c.append row b with
    | error e =>
      rw [happend] at hout
      cases hout
    | ok b' =>
      rw [happend] at hout
      have hout : updateFrom (pre ++ [b']).length (cols.map fun c => c.append row)
          ((pre ++ [b']) ++ builders) = .ok out := by simpa [Except.map] using hout
      obtain ⟨builders', rfl, hfilling, hclean⟩ :=
        ih (fun c' hc' => hfills c' (mem_cons_of_mem _ hc')) hout
      have hb := hfills c mem_cons_self b b' hc.1 hc.2 happend
      refine ⟨b' :: builders', by simp, .cons ⟨by rw [hb.dataType, hc.1], hb.fed⟩ hfilling, ?_⟩
      intro hall
      obtain ⟨hcb, hcrow⟩ := hb.consistent (hall b' mem_cons_self)
      obtain ⟨hrest, hrows⟩ := hclean fun b hb => hall b (mem_cons_of_mem _ hb)
      exact ⟨forall_mem_cons.mpr ⟨hcb, hrest⟩, forall_mem_cons.mpr ⟨hcrow, hrows⟩⟩

namespace Event

variable {event : Event} {decoder : AbiDecoder}

/-- Every row of the batch adds one entry to each column. -/
theorem decodeRows_ok (hnames : event.topicNames.length = event.topicTypes.length)
    (hlength : event.topicTypes.length ≤ 3) (rows : List LogRow)
    (htakes : ∀ row ∈ rows, ∀ c ∈ event.columns decoder, c.Takes row) {done : List LogRow}
    (h : List.Forall₂ (Column.After done) (event.columns decoder) builders) (validity : List Bool) :
    ∃ builders', event.decodeRows decoder rows builders validity =
        .ok (builders', validity ++ replicate rows.length true) ∧
      List.Forall₂ (Column.After (done ++ rows)) (event.columns decoder) builders' := by
  induction rows generalizing done builders validity with
  | nil => exact ⟨builders, by simp [decodeRows], by simpa using h⟩
  | cons row rest ih =>
    have hrow := updateFrom_takes h (htakes row mem_cons_self) []
    obtain ⟨builders₁, hupdate, hafter⟩ := hrow
    have hstep : event.decodeRow decoder row builders = .ok builders₁ :=
      (decodeRow_eq hnames hlength decoder row builders).trans hupdate
    obtain ⟨builders', hrest, hafter'⟩ :=
      ih (fun r hr => htakes r (mem_cons_of_mem _ hr)) hafter (validity ++ [true])
    refine ⟨builders', ?_, by simpa using hafter'⟩
    rw [decodeRows, hstep]
    simpa [replicate_succ] using hrest

/-- Columns that can be finished after the rows could take all of them. -/
theorem decodeRows_fills (hnames : event.topicNames.length = event.topicTypes.length)
    (hlength : event.topicTypes.length ≤ 3) {rows : List LogRow} {out : List Builder}
    {validity validity' : List Bool} (h : Filling (event.columns decoder) builders)
    (hout : event.decodeRows decoder rows builders validity = .ok (out, validity'))
    (hall : ∀ b ∈ out, b.consistent = true) :
    (∀ b ∈ builders, b.consistent = true) ∧ ∀ row ∈ rows, event.RowOk decoder row := by
  induction rows generalizing builders validity with
  | nil =>
    cases hout
    exact ⟨hall, nofun⟩
  | cons row rest ih =>
    rw [decodeRows] at hout
    split at hout
    · cases hout
    rename_i builders₁ hrow
    have hstep := (decodeRow_eq hnames hlength decoder row builders).symm.trans hrow
    obtain ⟨_, rfl, hfilling, hclean⟩ := @updateFrom_fills _ _ _ [] _ h columns_fill hstep
    obtain ⟨hmid, hrest⟩ := ih hfilling hout
    obtain ⟨hbefore, hrow⟩ := hclean hmid
    exact ⟨hbefore, forall_mem_cons.mpr ⟨rowOk_iff.mpr hrow, hrest⟩⟩

end Event

/-! ### Fields -/

variable {arrowType : DynSolType → Except DecodeError DataType}

theorem fieldsOf_ok {types : List DynSolType} (names : List String)
    (h : ∀ ty ∈ types, ∃ t, arrowType ty = .ok t) :
    ∃ fields, fieldsOf arrowType names types = .ok fields := by
  induction types generalizing names with
  | nil => cases names <;> exact ⟨[], rfl⟩
  | cons ty types ih =>
    cases names with
    | nil => exact ⟨[], rfl⟩
    | cons name names =>
      obtain ⟨t, ht⟩ := h ty mem_cons_self
      obtain ⟨fields, hfields⟩ := ih names fun ty' hty' => h ty' (mem_cons_of_mem _ hty')
      refine ⟨(name, t) :: fields, ?_⟩
      rw [fieldsOf, ht, hfields]
      rfl

theorem fieldsOf_types {names : List String} {types : List DynSolType}
    {fields : List (String × DataType)} (hnames : names.length = types.length)
    (h : fieldsOf arrowType names types = .ok fields) :
    List.Forall₂ (fun ty field => arrowType ty = .ok field.2) types fields := by
  induction types generalizing names fields with
  | nil =>
    rw [length_eq_zero_iff.mp hnames] at h
    cases h
    exact .nil
  | cons ty types ih =>
    cases names with
    | nil => cases hnames
    | cons name names =>
      rw [fieldsOf] at h
      split at h
      · cases h
      · obtain ⟨rest, hrest, rfl⟩ := map_eq_ok h
        exact .cons ‹_› (ih (Nat.succ.inj hnames) hrest)

theorem forall₂_mapIdx {column : Nat → DynSolType → Column}
    (hcolumn : ∀ i ty, (column i ty).type = arrowType ty) {types : List DynSolType}
    {fields : List (String × DataType)}
    (h : List.Forall₂ (fun ty field => arrowType ty = .ok field.2) types fields) :
    List.Forall₂ (fun c field => c.type = .ok field.2) (types.mapIdx column) fields := by
  induction h generalizing column with
  | nil => exact .nil
  | cons ht _ ih =>
    rw [mapIdx_cons]
    exact .cons ((hcolumn _ _).trans ht) (ih fun i ty => hcolumn (i + 1) ty)

section

variable {fields : List (String × DataType)}
  (h : List.Forall₂ (fun c field => c.type = .ok field.2) cols fields)
include h

/-- All builders are made, or none is. -/
theorem built_iff : (∃ builders, ofTypes (fields.map Prod.snd) = some builders) ↔
    ∀ c ∈ cols, c.Built := by
  induction h with
  | nil => simp [ofTypes]
  | @cons c field cols fields hc _ ih =>
    have hbuilt : c.Built ↔ ∃ b, ofType field.2 = some b := by
      constructor
      · rintro ⟨t, b, ht, hb⟩
        cases hc.symm.trans ht
        exact ⟨b, hb⟩
      · rintro ⟨b, hb⟩
        exact ⟨_, b, hc, hb⟩
    rw [forall_mem_cons, ← ih, hbuilt, map_cons, ofTypes]
    cases ofType field.2 with
    | none => simp
    | some b => simp

theorem after_nil (hnew : ofTypes (fields.map Prod.snd) = some builders) :
    List.Forall₂ (Column.After []) cols builders := by
  rw [ofTypes_eq_some_iff, forall₂_map_left_iff] at hnew
  induction h generalizing builders with
  | nil =>
    cases hnew
    exact .nil
  | cons hc _ ih =>
    cases hnew with
    | cons hb hrest =>
      obtain ⟨htype, hconsistent, -, hnone⟩ := ofType_new hb
      exact .cons ⟨by rw [hc, htype], hconsistent, hnone⟩ (ih hrest)

end

theorem filling_of_after {done : List LogRow}
    (h : List.Forall₂ (Column.After done) cols builders) : Filling cols builders :=
  h.imp fun _ _ hc => ⟨hc.type, fed_of_consistent hc.consistent⟩

section

variable (h : List.Forall₂ (Column.After rows) cols builders)
include h

theorem after_dataTypes {fields : List (String × DataType)} (hfields : List.Forall₂ (fun c field => c.type = .ok field.2) cols fields) :
    builders.map dataType = fields.map Prod.snd := by
  induction h generalizing fields with
  | nil =>
    cases hfields
    rfl
  | cons hc _ ih =>
    cases hfields with
    | cons hfield hfields =>
      rw [map_cons, map_cons, ih hfields]
      congr 1
      exact Except.ok.inj (hc.type.symm.trans hfield)

theorem after_validity : builders.map validity = cols.map fun c => rows.map c.valid := by
  induction h with
  | nil => rfl
  | cons hc _ ih => rw [map_cons, map_cons, ih, hc.validity]

theorem after_consistent : ∀ b ∈ builders, b.consistent = true ∧ b.length = rows.length := by
  induction h with
  | nil => simp
  | cons hc _ ih =>
    intro b hb
    cases hb with
    | head =>
      refine ⟨hc.consistent, ?_⟩
      rw [Builder.length, hc.validity, length_map]
    | tail _ hb => exact ih b hb

end

/-! ## Batches -/

namespace Event

/-- Which entries are not null: the topics that are there, and the data that can be decoded. -/
def validity (event : Event) (decoder : AbiDecoder) (rows : List LogRow) : List (List Bool) :=
  (event.topicTypes.mapIdx fun i _ => rows.map fun row => (row.topic i).isSome) ++
    event.bodyTypes.map fun _ => rows.map fun row => (event.bodyValues decoder row.data).isSome

/-- An entry for each row, in columns of the announced types. -/
def Decoded (event : Event) (decoder : AbiDecoder) (fields : List (String × DataType))
    (rows : List LogRow) : DecodedArray → Prop
  | .nulls _ => False
  | .structs names columns validity =>
      names = fields.map Prod.fst ∧ validity = List.replicate rows.length true ∧
        columns.map Builder.dataType = fields.map Prod.snd ∧
        (∀ c ∈ columns, c.consistent = true ∧ c.length = rows.length) ∧
        columns.map Builder.validity = event.validity decoder rows

/-- What `new` makes of parameters. -/
structure WellFormed (event : Event) : Prop where
  topicNames : event.topicNames.length = event.topicTypes.length
  bodyNames : event.bodyNames.length = event.bodyTypes.length
  topics : event.topicTypes.length ≤ 3

variable {event : Event} {inputs : List Param}

theorem forall_mem_mapIdx {column : Nat → DynSolType → Column} {P : Column → Prop}
    {Q : DynSolType → Prop} (h : ∀ i ty, P (column i ty) ↔ Q ty) {types : List DynSolType} :
    (∀ c ∈ types.mapIdx column, P c) ↔ ∀ ty ∈ types, Q ty := by
  constructor
  · intro hall ty hty
    obtain ⟨i, hi, rfl⟩ := getElem_of_mem hty
    exact (h i _).mp (hall _ (mem_mapIdx.mpr ⟨i, hi, rfl⟩))
  · intro hall c hc
    obtain ⟨i, hi, rfl⟩ := mem_mapIdx.mp hc
    exact (h i _).mpr (hall _ (getElem_mem hi))

theorem topicColumn_built {i : Nat} :
    (topicColumn i ty).Built ↔ ty.isReference = true ∨ ty.Supported := by
  unfold Column.Built
  dsimp only [topicColumn]
  cases href : ty.isReference with
  | true =>
    simp only [true_or, iff_true]
    exact ⟨_, _, solToArrowTypeForIndexed_reference href, by rw [ofType]⟩
  | false =>
    rw [solToArrowTypeForIndexed_value href]
    simp only [Bool.false_eq_true, false_or]
    exact ⟨fun ⟨_, _, ht, hb⟩ => supported_of_ofType ht hb, solToArrowType_ok⟩

section New

variable (hnew : Event.new inputs = .ok event)
include hnew

theorem new_wellFormed : event.WellFormed := by
  unfold Event.new at hnew
  dsimp only at hnew
  split_ifs at hnew with hindexed
  cases hnew
  exact ⟨by simp, by simp, by simpa using hindexed⟩

theorem new_topicTypes : event.topicTypes = (inputs.filter fun p => p.indexed).map Param.type := by
  unfold Event.new at hnew
  dsimp only at hnew
  split_ifs at hnew
  cases hnew
  rfl

theorem new_bodyTypes : event.bodyTypes = (inputs.filter fun p => !p.indexed).map Param.type := by
  unfold Event.new at hnew
  dsimp only at hnew
  split_ifs at hnew
  cases hnew
  rfl

/-- There are builders for the columns of supported parameters, and of no others. -/
theorem columns_built_iff (decoder : AbiDecoder) :
    (∀ c ∈ event.columns decoder, c.Built) ↔ ∀ p ∈ inputs, p.Supported := by
  have htopic i (ty : DynSolType) :
      (topicColumn i ty).Built ↔ ty.isReference = true ∨ ty.Supported := topicColumn_built
  have hbody i (ty : DynSolType) : (event.bodyColumn decoder i ty).Built ↔ ty.Supported :=
    ⟨fun ⟨_, _, ht, hb⟩ => supported_of_ofType ht hb, solToArrowType_ok⟩
  rw [Event.columns, forall_mem_append, forall_mem_mapIdx htopic, forall_mem_mapIdx hbody,
    new_topicTypes hnew, new_bodyTypes hnew]
  simp only [forall_mem_map, mem_filter, Param.Supported]
  constructor
  · rintro ⟨htopics, hbody⟩ p hp
    cases hindexed : p.indexed with
    | true => exact (htopics p ⟨hp, hindexed⟩).imp (⟨rfl, ·⟩) id
    | false => exact .inr (hbody p ⟨hp, by rw [hindexed]; rfl⟩)
  · intro h
    refine ⟨fun p hp => (h p hp.1).imp And.right id, fun p hp => (h p hp.1).resolve_left ?_⟩
    intro hindexed
    simp [hindexed.1] at hp

theorem length_columns (decoder : AbiDecoder) : (event.columns decoder).length = inputs.length := by
  rw [Event.columns, length_append, length_mapIdx, length_mapIdx, new_topicTypes hnew,
    new_bodyTypes hnew, length_map, length_map]
  exact (length_eq_length_filter_add _).symm

end New

variable {decoder : AbiDecoder} {fields : List (String × DataType)}

theorem fields_ok (decoder : AbiDecoder) (h : ∀ c ∈ event.columns decoder, c.Built) :
    ∃ fields, event.fields = .ok fields := by
  have htype {c : Column} (hc : c ∈ event.columns decoder) : ∃ t, c.type = .ok t := by
    obtain ⟨t, _, ht, -⟩ := h c hc
    exact ⟨t, ht⟩
  have htopic : ∀ ty ∈ event.topicTypes, ∃ t, solToArrowTypeForIndexed ty = .ok t := by
    intro ty hty
    obtain ⟨i, hi, rfl⟩ := getElem_of_mem hty
    exact htype (mem_append_left _ (mem_mapIdx.mpr ⟨i, hi, rfl⟩))
  have hbody : ∀ ty ∈ event.bodyTypes, ∃ t, solToArrowType ty = .ok t := by
    intro ty hty
    obtain ⟨i, hi, rfl⟩ := getElem_of_mem hty
    exact htype (mem_append_right _ (mem_mapIdx.mpr ⟨i, hi, rfl⟩))
  obtain ⟨topics, htopics⟩ := fieldsOf_ok event.topicNames htopic
  obtain ⟨body, hbody⟩ := fieldsOf_ok event.bodyNames hbody
  refine ⟨topics ++ body, ?_⟩
  rw [Event.fields, htopics, hbody]
  rfl

theorem fields_types (h : event.WellFormed) (hfields : event.fields = .ok fields)
    (decoder : AbiDecoder) :
    List.Forall₂ (fun c field => c.type = .ok field.2) (event.columns decoder) fields := by
  unfold Event.fields at hfields
  split at hfields
  · cases hfields
  rename_i topics htopics
  obtain ⟨body, hbody, rfl⟩ := map_eq_ok hfields
  apply rel_append
  · exact @forall₂_mapIdx _ topicColumn (fun _ _ => rfl) _ _ (fieldsOf_types h.topicNames htopics)
  · exact @forall₂_mapIdx _ (event.bodyColumn decoder) (fun _ _ => rfl) _ _
      (fieldsOf_types h.bodyNames hbody)

theorem columns_valid (rows : List LogRow) :
    ((event.columns decoder).map fun c => rows.map c.valid) = event.validity decoder rows := by
  rw [Event.columns, map_append, map_mapIdx, map_mapIdx, validity]
  congr 1
  apply ext_getElem
  · simp
  · intro i _ _
    simp [bodyColumn]

end Event

theorem Event.columns_take {event : Event} {decoder : AbiDecoder} {row : LogRow}
    (hbuilt : ∀ c ∈ event.columns decoder, c.Built) (hrow : event.RowOk decoder row) :
    ∀ c ∈ event.columns decoder, c.Takes row := by
  intro c hc
  have hclean := rowOk_iff.mp hrow c hc
  have hb := hbuilt c hc
  rcases mem_append.mp hc with hc | hc
  · obtain ⟨i, hi, rfl⟩ := mem_mapIdx.mp hc
    exact topicColumn_takes (topicColumn_built.mp hb) hclean
  · obtain ⟨i, hi, rfl⟩ := mem_mapIdx.mp hc
    obtain ⟨_, _, ht, hb⟩ := hb
    exact bodyColumn_takes (supported_of_ofType ht hb) (getElem?_eq_getElem hi) hclean

/-- A batch of logs is decoded to an entry for each log if and only if there are columns, all of
them have builders, and every value of every log can be stored in its column. -/
theorem decode_ok_iff (decoder : AbiDecoder) {inputs : List Param} {event : Event}
    (hnew : Event.new inputs = .ok event) (rows : List LogRow) :
    (∃ fields array, event.fields = .ok fields ∧ decode decoder inputs rows = .ok array ∧
      event.Decoded decoder fields rows array) ↔
      inputs ≠ [] ∧ (∀ p ∈ inputs, p.Supported) ∧ ∀ row ∈ rows, event.RowOk decoder row := by
  have hevent := Event.new_wellFormed hnew
  have hlength := Event.length_columns hnew decoder
  rw [← Event.columns_built_iff hnew decoder]
  constructor
  · rintro ⟨fields, array, hfields, hdecode, hdecoded⟩
    have htypes := Event.fields_types hevent hfields decoder
    rw [htypes.length_eq] at hlength
    simp only [decode, hnew, hfields] at hdecode
    split_ifs at hdecode with hempty
    · cases hdecode
      exact hdecoded.elim
    split at hdecode
    · cases hdecode
    rename_i builders hbuilders
    split at hdecode
    · cases hdecode
    rename_i columns validity hrows
    split_ifs at hdecode with hfinish
    rw [consistent, allConsistent_iff] at hfinish
    refine ⟨?_, (built_iff htypes).mp ⟨builders, hbuilders⟩, ?_⟩
    · rintro rfl
      rw [length_nil, length_eq_zero_iff] at hlength
      simp [hlength] at hempty
    · exact (Event.decodeRows_fills hevent.topicNames hevent.topics
        (filling_of_after (after_nil htypes hbuilders)) hrows fun b hb => (hfinish b hb).1).2
  · rintro ⟨hne, hbuilt, hrows⟩
    obtain ⟨fields, hfields⟩ := Event.fields_ok decoder hbuilt
    have htypes := Event.fields_types hevent hfields decoder
    rw [htypes.length_eq] at hlength
    have hempty : fields.isEmpty = false := by
      refine isEmpty_eq_false_iff.mpr ?_
      rintro rfl
      exact hne (length_eq_zero_iff.mp hlength.symm)
    obtain ⟨builders, hbuilders⟩ := (built_iff htypes).mpr hbuilt
    obtain ⟨columns, hdecode, hafter⟩ :=
      Event.decodeRows_ok hevent.topicNames hevent.topics rows
        (fun row hrow => Event.columns_take hbuilt (hrows row hrow)) (after_nil htypes hbuilders) []
    rw [nil_append] at hdecode hafter
    have hconsistent := after_consistent hafter
    have hfinish : (struct (fields.map Prod.fst) columns
        (replicate rows.length true)).consistent = true := by
      rw [consistent, allConsistent_iff, length_replicate]
      exact hconsistent
    refine ⟨fields, .structs (fields.map Prod.fst) columns (replicate rows.length true), hfields,
      ?_, rfl, rfl, after_dataTypes hafter htypes, hconsistent, ?_⟩
    · simp only [decode, hnew, hfields, hempty, hbuilders, hdecode, hfinish, if_true, if_false,
        Bool.false_eq_true]
    · rw [after_validity hafter, Event.columns_valid]

/-! ### A batch with nulls -/

/-- The value of a word, which has its most significant byte first. -/
def wordOf (bytes : List (BitVec 8)) : BitVec 256 :=
  BitVec.ofNat 256 (bytes.foldl (fun word byte => word * 256 + byte.toNat) 0)

/-- Value types are encoded in one word each. -/
def decodeWords : List DynSolType → List (BitVec 8) → Option (List DynSolValue)
  | [], _ => some []
  | ty :: types, data =>
      if ty.isReference = true ∨ data.length < 32 then none
      else (decodeWords types (data.drop 32)).map fun values =>
        topicValue ty (wordOf (data.take 32)) :: values

theorem decodeWords_shaped {types : List DynSolType} {data : List (BitVec 8)}
    {values : List DynSolValue} (h : decodeWords types data = some values) :
    DynSolValue.ShapedEach values types := by
  induction types generalizing data values with
  | nil =>
    cases h
    exact .nil
  | cons ty types ih =>
    rw [decodeWords] at h
    split_ifs at h with hword
    obtain ⟨rest, hrest, rfl⟩ := Option.map_eq_some_iff.mp h
    rw [not_or] at hword
    exact .cons (topicValue_shaped (Bool.eq_false_iff.mpr hword.1) _) (ih hrest)

/-- The ABI decoder on parameters of value types. -/
def wordDecoder : AbiDecoder where
  decodeSequence := decodeWords
  shaped := decodeWords_shaped

def noteInputs : List Param :=
  [⟨"from", .address, true⟩, ⟨"note", .string, true⟩, ⟨"value", .uint 8, false⟩]

/-- A log with a value, and one with a null topic and no data. -/
def noteRows : List LogRow :=
  [⟨some 1, some 2, none, some (List.replicate 31 0 ++ [7])⟩, ⟨none, some 3, none, some []⟩]

def noteEvent : Event where
  topicNames := ["from", "note"]
  topicTypes := [.address, .string]
  bodyNames := ["value"]
  bodyTypes := [.uint 8]

theorem noteEvent_topics {row : LogRow} (h : row.topic2.isSome) :
    ∀ {i ty}, noteEvent.topicTypes[i]? = some ty → match row.topic i with
      | some word => (topicValue ty word).Clean
      | none => ty.isReference = false
  | 0, _, hty => by
      cases hty
      cases row.topic 0 with
      | none => rfl
      | some word => simp [topicValue, DynSolValue.Clean]
  | 1, _, hty => by
      cases hty
      obtain ⟨word, hword⟩ := Option.isSome_iff_exists.mp h
      simp [LogRow.topic, hword, topicValue, DynSolValue.Clean]
  | _ + 2, _, hty => by cases hty

theorem noteRows_ok : ∀ row ∈ noteRows, noteEvent.RowOk wordDecoder row := by
  intro row hrow
  have htopic : row.topic2.isSome := by
    revert row
    decide
  refine ⟨noteEvent_topics htopic, ?_⟩
  intro values hvalues
  simp only [noteRows, mem_cons, not_mem_nil, or_false] at hrow
  rcases hrow with rfl | rfl
  · have hseven : noteEvent.bodyValues wordDecoder (some (replicate 31 0 ++ [7])) =
        some [.uint 7 8] := rfl
    cases hseven.symm.trans hvalues
    simp [DynSolValue.Clean, Sign.Fits, Sign.min, Sign.max]
  · have hshort : noteEvent.bodyValues wordDecoder (some []) = none := rfl
    cases hshort.symm.trans hvalues

theorem decode_ok_iff_note :
    ∃ fields array, Event.new noteInputs = .ok noteEvent ∧ noteEvent.fields = .ok fields ∧
      decode wordDecoder noteInputs noteRows = .ok array ∧
      noteEvent.Decoded wordDecoder fields noteRows array ∧
      noteEvent.validity wordDecoder noteRows = [[true, false], [true, true], [true, false]] := by
  have hinputs : ∀ p ∈ noteInputs, p.Supported := by
    simp [noteInputs, Param.Supported, DynSolType.isReference, DynSolType.Supported]
  have hnew : Event.new noteInputs = .ok noteEvent := rfl
  obtain ⟨fields, array, hfields, hdecode, hdecoded⟩ :=
    (decode_ok_iff wordDecoder hnew noteRows).mpr ⟨nofun, hinputs, noteRows_ok⟩
  exact ⟨fields, array, hnew, hfields, hdecode, hdecoded, rfl⟩

/-! ### Batches that fail -/

/-- A log with one topic beside the first one, and no data. -/
def topicRow (topic : Option (BitVec 256)) : LogRow := ⟨topic, none, none, none⟩

/-- A null topic of a reference type, an integer that is not in the range of its type and fixed
bytes that do not fill a word each fail the batch, with the rows that can be decoded. A size that
does not fit in `i32` makes the code panic. -/
theorem malformed_log_fails_batch :
    ((∃ array, decode wordDecoder [⟨"s", .string, true⟩] [topicRow (some 1)] = .ok array) ∧
      decode wordDecoder [⟨"s", .string, true⟩] [topicRow (some 1), topicRow none] =
        .error (.downcast .string)) ∧
    ((∃ array, decode wordDecoder [⟨"n", .uint 8, true⟩] [topicRow (some 1)] = .ok array) ∧
      decode wordDecoder [⟨"n", .uint 8, true⟩] [topicRow (some 1), topicRow (some 256)] =
        .error (.converting .unsigned 8 .conversion)) ∧
    ((∃ array, decode wordDecoder [⟨"b", .fixedBytes 4, true⟩] [topicRow none] = .ok array) ∧
      decode wordDecoder [⟨"b", .fixedBytes 4, true⟩] [topicRow none, topicRow (some 1)] =
        .error .sliceLength) ∧
    decode wordDecoder [⟨"a", .fixedArray .bool (2 ^ 31), false⟩] [topicRow none] =
      .error .panic := by
  refine ⟨⟨?_, rfl⟩, ⟨?_, rfl⟩, ⟨?_, rfl⟩, rfl⟩
  · exact ⟨_, rfl⟩
  · exact ⟨_, rfl⟩
  · exact ⟨_, rfl⟩

end CampNode.Evm

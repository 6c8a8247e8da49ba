import Mathlib.Algebra.Order.GroupWithZero.Basic
import Mathlib.Algebra.Order.Ring.Int
import Mathlib.Data.List.Forall2
import Mathlib.Tactic.Common

/-!
# CampNode.Evm.Arrow — Solidity values in Arrow arrays

Three recursions of `evm/udfs.rs` over Solidity and Arrow types: the type of a column
(`sol_to_arrow_type`), the append of a decoded value (`append_sol_value_to_builder`) and the
append of a null (`append_null_value_to_builder`). The last two downcast a dynamic builder, and
fail if it is not the one that the value or the type asks for.

Lengths of builders are plain numbers; the size of a fixed array is cast to `i32`.
-/

namespace CampNode.Evm

open List

/-! ## Types and values -/

/-- `alloy::dyn_abi::DynSolType`. -/
inductive DynSolType where
  | bool
  | int (bits : Nat)
  | uint (bits : Nat)
  | fixedBytes (size : Nat)
  | address
  | function
  | bytes
  | string
  | array (item : DynSolType)
  | fixedArray (item : DynSolType) (size : Nat)
  | tuple (items : List DynSolType)

/-- `alloy::dyn_abi::DynSolValue`; integers are `I256` and `U256`. -/
inductive DynSolValue where
  | bool (b : Bool)
  | int (s : Int) (bits : Nat)
  | uint (u : Nat) (bits : Nat)
  | fixedBytes (word : BitVec 256) (size : Nat)
  | address (a : BitVec 160)
  | function (f : BitVec 192)
  | bytes (b : List (BitVec 8))
  | string (s : String)
  | array (items : List DynSolValue)
  | fixedArray (items : List DynSolValue)
  | tuple (items : List DynSolValue)

/-- The Arrow types without children. The decimals are those with the greatest precision and
scale 0. -/
inductive LeafType where
  | boolean
  | int8
  | int16
  | int32
  | int64
  | uint8
  | uint16
  | uint32
  | uint64
  | decimal128
  | decimal256
  | binary
  | fixedSizeBinary (size : Nat)
  | utf8
deriving DecidableEq, Repr

/-- `arrow::datatypes::DataType`; all fields are nullable. -/
inductive DataType where
  | leaf (type : LeafType)
  | list (item : DataType)
  | fixedSizeList (item : DataType) (size : Int)
  | struct (names : List String) (types : List DataType)

/-- What a builder is downcast to. -/
inductive BuilderKind where
  | boolean
  | int8
  | int16
  | int32
  | int64
  | uint8
  | uint16
  | uint32
  | uint64
  | decimal128
  | decimal256
  | binary
  | fixedSizeBinary
  | string
  | list
  | fixedSizeList
  | struct
deriving DecidableEq, Repr

def LeafType.builder : LeafType → BuilderKind
  | .boolean => .boolean
  | .int8 => .int8
  | .int16 => .int16
  | .int32 => .int32
  | .int64 => .int64
  | .uint8 => .uint8
  | .uint16 => .uint16
  | .uint32 => .uint32
  | .uint64 => .uint64
  | .decimal128 => .decimal128
  | .decimal256 => .decimal256
  | .binary => .binary
  | .fixedSizeBinary _ => .fixedSizeBinary
  | .utf8 => .string

/-- `AppendError`. -/
inductive AppendError where
  | downcast (builder : BuilderKind)
  /-- `BigIntConversionError` or `FromUintError`. -/
  | conversion
  /-- The precision of a decimal. -/
  | precision
deriving DecidableEq, Repr

inductive Sign where
  | signed
  | unsigned
deriving DecidableEq, Repr

inductive DecodeError where
  /-- "event can only have 3 indexed parameters but has ..". -/
  | indexedParameters (count : Nat)
  /-- "failed to downcast to ..". -/
  | downcast (builder : BuilderKind)
  /-- "error converting int8: ..". -/
  | converting (sign : Sign) (bits : Nat) (cause : AppendError)
  /-- "unexpected number of bits for ..". -/
  | unexpectedBits (sign : Sign) (bits : Nat)
  /-- "Byte slice does not have the same length as FixedSizeBinaryBuilder value lengths". -/
  | sliceLength
  /-- "cannot convert solidity type function to arrow data type". -/
  | functionType
  /-- "cannot convert function to arrow scalar". -/
  | functionValue
  /-- An index or a length that makes the code panic. -/
  | panic
deriving DecidableEq, Repr

/-! ## Types of columns -/

def dec128MaxBinaryPrec : Nat := 125
def dec256MaxBinaryPrec : Nat := 251

namespace Sign

def leaf8 : Sign → LeafType
  | .signed => .int8
  | .unsigned => .uint8

def leaf16 : Sign → LeafType
  | .signed => .int16
  | .unsigned => .uint16

def leaf32 : Sign → LeafType
  | .signed => .int32
  | .unsigned => .uint32

def leaf64 : Sign → LeafType
  | .signed => .int64
  | .unsigned => .uint64

/-- The range of an integer with the given number of bits. -/
def min (bits : Nat) : Sign → Int
  | .signed => -2 ^ (bits - 1)
  | .unsigned => 0

def max (bits : Nat) : Sign → Int
  | .signed => 2 ^ (bits - 1) - 1
  | .unsigned => 2 ^ bits - 1

/-- The type of an integer column. -/
def integerType (sign : Sign) (bits : Nat) : Except DecodeError LeafType :=
  if bits = 8 then .ok sign.leaf8
  else if bits = 16 then .ok sign.leaf16
  else if bits ≤ 32 then .ok sign.leaf32
  else if bits ≤ 64 then .ok sign.leaf64
  else if bits ≤ dec128MaxBinaryPrec then .ok .decimal128
  else if bits ≤ dec256MaxBinaryPrec then .ok .decimal256
  else if bits ≤ 256 then .ok .utf8
  else .error (.unexpectedBits sign bits)

end Sign

/-- The cast `as i32`. -/
def asI32 (size : Nat) : Int := (BitVec.ofNat 32 size).toInt

def columnNames (n : Nat) : List String := (List.range n).map fun i => "c" ++ toString i

mutual

def solToArrowType : DynSolType → Except DecodeError DataType
  | .bool => .ok (.leaf .boolean)
  | .int bits => (Sign.signed.integerType bits).map .leaf
  | .uint bits => (Sign.unsigned.integerType bits).map .leaf
  | .fixedBytes size => .ok (.leaf (.fixedSizeBinary size))
  | .address => .ok (.leaf (.fixedSizeBinary 20))
  | .bytes => .ok (.leaf .binary)
  | .string => .ok (.leaf .utf8)
  | .array item => (solToArrowType item).map .list
  | .fixedArray item size => (solToArrowType item).map fun type => .fixedSizeList type (asI32 size)
  | .tuple items => (solToArrowTypes items).map fun types => .struct (columnNames items.length) types
  | .function => .error .functionType

def solToArrowTypes : List DynSolType → Except DecodeError (List DataType)
  | [] => .ok []
  | ty :: rest =>
      match solToArrowType ty with
      | .error e => .error e
      | .ok type => (solToArrowTypes rest).map fun types => type :: types

end

/-- Reference types are stored as their hash in indexed parameters. -/
def solToArrowTypeForIndexed (ty : DynSolType) : Except DecodeError DataType :=
  match ty with
  | .bool | .int _ | .uint _ | .fixedBytes _ | .address => solToArrowType ty
  | .string | .bytes | .array _ | .fixedArray _ _ | .tuple _ => .ok (.leaf (.fixedSizeBinary 32))
  | .function => solToArrowType ty

/-! ## Builders -/

/-- An entry of an array without children. -/
inductive Scalar where
  | bool (b : Bool)
  | int (i : Int)
  | string (s : String)
  | bytes (b : List (BitVec 8))
  | fixed (size : Nat) (value : BitVec (8 * size))

inductive Builder where
  | leaf (type : LeafType) (values : List (Option Scalar))
  /-- Each entry has the length of the items at its end, and says whether it is valid. -/
  | list (items : Builder) (entries : List (Nat × Bool))
  | fixedSizeList (size : Int) (items : Builder) (validity : List Bool)
  | struct (names : List String) (fields : List Builder) (validity : List Bool)

namespace Builder

/-- Which entries are not null. -/
def validity : Builder → List Bool
  | .leaf _ values => values.map Option.isSome
  | .list _ entries => entries.map Prod.snd
  | .fixedSizeList _ _ validity => validity
  | .struct _ _ validity => validity

def length (b : Builder) : Nat := b.validity.length

mutual

def dataType : Builder → DataType
  | .leaf type _ => .leaf type
  | .list items _ => .list items.dataType
  | .fixedSizeList size items _ => .fixedSizeList items.dataType size
  | .struct names fields _ => .struct names (dataTypes fields)

def dataTypes : List Builder → List DataType
  | [] => []
  | b :: rest => b.dataType :: dataTypes rest

end

mutual

/-- What `finish` asserts: the children have the right lengths. -/
def consistent : Builder → Bool
  | .leaf _ _ => true
  | .list items _ => items.consistent
  | .fixedSizeList size items validity =>
      items.consistent && (items.length : Int) == size * validity.length
  | .struct _ fields validity => allConsistent validity.length fields

def allConsistent (n : Nat) : List Builder → Bool
  | [] => true
  | b :: rest => b.consistent && b.length == n && allConsistent n rest

end

mutual

/-- `make_builder`. It panics if a size is negative. -/
def ofType : DataType → Option Builder
  | .leaf type => some (.leaf type [])
  | .list item => (ofType item).map fun items => .list items []
  | .fixedSizeList item size =>
      if size < 0 then none else (ofType item).map fun items => .fixedSizeList size items []
  | .struct names types => (ofTypes types).map fun fields => .struct names fields []

def ofTypes : List DataType → Option (List Builder)
  | [] => some []
  | type :: rest =>
      match ofType type with
      | none => none
      | some b => (ofTypes rest).map fun fields => b :: fields

end

/-- Appends to a builder of the given kind. -/
def push (b : Builder) (kind : BuilderKind) (value : Option Scalar) : Option Builder :=
  match b with
  | .leaf type values => if type.builder = kind then some (.leaf type (values ++ [value])) else none
  | _ => none

/-- Appends to a `FixedSizeBinaryBuilder`, which checks the length. -/
def pushFixed (b : Builder) (size : Nat) (value : BitVec (8 * size)) : Except DecodeError Builder :=
  match b with
  | .leaf (.fixedSizeBinary n) values =>
      if n = size then .ok (.leaf (.fixedSizeBinary n) (values ++ [some (.fixed size value)]))
      else .error .sliceLength
  | _ => .error (.downcast .fixedSizeBinary)

end Builder

/-! ## Appending values -/

/-- An integer with a primitive Arrow type. -/
def appendSized (t : LeafType) (lo hi value : Int) (b : Builder) : Except AppendError Builder :=
  match b.push t.builder (some (.int value)) with
  | none => .error (.downcast t.builder)
  | some b' => if lo ≤ value ∧ value ≤ hi then .ok b' else .error .conversion

/-- An integer as a decimal, after the conversion to an integer of the width of the decimal. -/
def appendDecimal (t : LeafType) (digits : Nat) (value : Int) (b : Builder) : Except AppendError Builder :=
  if -10 ^ digits < value ∧ value < 10 ^ digits then
    match b.push t.builder (some (.int value)) with
    | none => .error (.downcast t.builder)
    | some b' => .ok b'
  else .error .precision

/-- The bytes of a 256 bit integer, read as a signed one. -/
def asI256 (value : Int) : Int := if 2 ^ 255 ≤ value then value - 2 ^ 256 else value

/-- `primitive_int` and `primitive_uint`. -/
def appendPrimitive (sign : Sign) (value : Int) (bits : Nat) (b : Builder) : Except AppendError Builder :=
  if bits = 8 then appendSized sign.leaf8 (sign.min 8) (sign.max 8) value b
  else if bits = 16 then appendSized sign.leaf16 (sign.min 16) (sign.max 16) value b
  else if bits ≤ 32 then appendSized sign.leaf32 (sign.min 32) (sign.max 32) value b
  else if bits ≤ 64 then appendSized sign.leaf64 (sign.min 64) (sign.max 64) value b
  else if bits ≤ dec128MaxBinaryPrec then
    if -2 ^ 127 ≤ value ∧ value < 2 ^ 127 then appendDecimal .decimal128 38 value b
    else .error .conversion
  else if bits ≤ dec256MaxBinaryPrec then appendDecimal .decimal256 76 (asI256 value) b
  else
    match b.push .string (some (.string (toString value))) with
    | none => .error (.downcast .string)
    | some b' => .ok b'

/-- The two integer cases of `append_sol_value_to_builder`. -/
def appendInteger (sign : Sign) (value : Int) (bits : Nat) (b : Builder) : Except DecodeError Builder :=
  if bits ≤ 256 then
    match appendPrimitive sign value bits b with
    | .error cause => .error (.converting sign bits cause)
    | .ok b' => .ok b'
  else .error (.unexpectedBits sign bits)

/-- Appends to a builder without children or fails. -/
def appendTo (kind : BuilderKind) (value : Option Scalar) (b : Builder) : Except DecodeError Builder :=
  match b.push kind value with
  | none => .error (.downcast kind)
  | some b' => .ok b'

mutual

/-- `append_sol_value_to_builder`. -/
def append : DynSolValue → Builder → Except DecodeError Builder
  | .bool v, b => appendTo .boolean (some (.bool v)) b
  | .int s bits, b => appendInteger .signed s bits b
  | .uint u bits, b => appendInteger .unsigned u bits b
  | .fixedBytes word _, b => b.pushFixed 32 word
  | .address a, b => b.pushFixed 20 a
  | .bytes v, b => appendTo .binary (some (.bytes v)) b
  | .string s, b => appendTo .string (some (.string s)) b
  | .array items, b =>
      match b with
      | .list child entries =>
          match appendAll items child with
          | .error e => .error e
          | .ok child' => .ok (.list child' (entries ++ [(child'.length, true)]))
      | _ => .error (.downcast .list)
  | .fixedArray items, b =>
      match b with
      | .fixedSizeList size child validity =>
          match appendAll items child with
          | .error e => .error e
          | .ok child' => .ok (.fixedSizeList size child' (validity ++ [true]))
      | _ => .error (.downcast .list)
  | .tuple items, b =>
      match b with
      | .struct names fields validity =>
          match appendEach items fields with
          | .error e => .error e
          | .ok fields' => .ok (.struct names fields' (validity ++ [true]))
      | _ => .error (.downcast .list)
  | .function _, _ => .error .functionValue

def appendAll : List DynSolValue → Builder → Except DecodeError Builder
  | [], b => .ok b
  | value :: rest, b =>
      match append value b with
      | .error e => .error e
      | .ok b' => appendAll rest b'

/-- The values are zipped with the field builders. -/
def appendEach : List DynSolValue → List Builder → Except DecodeError (List Builder)
  | value :: values, b :: rest =>
      match append value b with
      | .error e => .error e
      | .ok b' => (appendEach values rest).map fun rest' => b' :: rest'
  | _, fields => .ok fields

end

/-! ## Appending nulls -/

def repeatAppend (op : Builder → Except DecodeError Builder) : Nat → Builder → Except DecodeError Builder
  | 0, b => .ok b
  | n + 1, b =>
      match op b with
      | .error e => .error e
      | .ok b' => repeatAppend op n b'

mutual

/-- `append_null_value_to_builder`. -/
def appendNull : DataType → Builder → Except DecodeError Builder
  | .leaf type, b => appendTo type.builder none b
  | .list _, b =>
      match b with
      | .list child entries => .ok (.list child (entries ++ [(child.length, false)]))
      | _ => .error (.downcast .list)
  | .fixedSizeList item n, b =>
      match b with
      | .fixedSizeList size child validity =>
          match repeatAppend (appendNull item) n.toNat child with
          | .error e => .error e
          | .ok child' => .ok (.fixedSizeList size child' (validity ++ [false]))
      | _ => .error (.downcast .fixedSizeList)
  | .struct _ types, b =>
      match b with
      | .struct names fields validity =>
          match appendNulls types fields with
          | .error e => .error e
          | .ok fields' => .ok (.struct names fields' (validity ++ [false]))
      | _ => .error (.downcast .struct)

/-- A type for each field builder. -/
def appendNulls : List DataType → List Builder → Except DecodeError (List Builder)
  | [], fields => .ok fields
  | _ :: _, [] => .error .panic
  | type :: types, b :: rest =>
      match appendNull type b with
      | .error e => .error e
      | .ok b' => (appendNulls types rest).map fun rest' => b' :: rest'

end

/-! ## Builders that grow -/

namespace Builder

/-- `b'` is `b` with more entries, which are valid as `added` says. -/
structure Grows (b b' : Builder) (added : List Bool) : Prop where
  dataType : b'.dataType = b.dataType
  consistent : b'.consistent = true
  validity : b'.validity = b.validity ++ added

theorem Grows.length {b b' : Builder} {added : List Bool} (h : b.Grows b' added) :
    b'.length = b.length + added.length := by
  rw [Builder.length, h.validity, length_append]
  rfl

theorem Grows.trans {b b' b'' : Builder} {first second : List Bool}
    (h : b.Grows b' first) (h' : b'.Grows b'' second) : b.Grows b'' (first ++ second) where
  dataType := h'.dataType.trans h.dataType
  consistent := h'.consistent
  validity := by rw [h'.validity, h.validity, append_assoc]

theorem dataTypes_eq (fields : List Builder) : dataTypes fields = fields.map dataType := by
  induction fields with
  | nil => rfl
  | cons b rest ih => rw [dataTypes, ih, map_cons]

theorem consistent_fixedSizeList {size : Int} {items : Builder} {validity : List Bool} :
    (Builder.fixedSizeList size items validity).consistent = true ↔
      items.consistent = true ∧ (items.length : Int) = size * validity.length := by
  simp only [consistent, Bool.and_eq_true, beq_iff_eq]

theorem allConsistent_cons {n : Nat} {b : Builder} {rest : List Builder} :
    allConsistent n (b :: rest) = true ↔
      (b.consistent = true ∧ b.length = n) ∧ allConsistent n rest = true := by
  simp only [allConsistent, Bool.and_eq_true, beq_iff_eq]

theorem allConsistent_iff (n : Nat) (fields : List Builder) :
    allConsistent n fields = true ↔ ∀ b ∈ fields, b.consistent = true ∧ b.length = n := by
  induction fields with
  | nil => simp [allConsistent]
  | cons b rest ih => rw [allConsistent_cons, ih, forall_mem_cons]

theorem grows_leaf (t : LeafType) (values : List (Option Scalar)) (v : Option Scalar) :
    (leaf t values).Grows (leaf t (values ++ [v])) [v.isSome] where
  dataType := by rw [dataType, dataType]
  consistent := by rw [consistent]
  validity := by simp [validity]

end Builder

/-! ## Types that have columns -/

mutual

/-- No functions, integers of at most 256 bits and no sizes that are negative as `i32`. -/
def DynSolType.Supported : DynSolType → Prop
  | .bool | .address | .bytes | .string | .fixedBytes _ => True
  | .int bits | .uint bits => bits ≤ 256
  | .array item => item.Supported
  | .fixedArray item size => 0 ≤ asI32 size ∧ item.Supported
  | .tuple items => DynSolType.AllSupported items
  | .function => False

def DynSolType.AllSupported : List DynSolType → Prop
  | [] => True
  | ty :: rest => ty.Supported ∧ DynSolType.AllSupported rest

end

/-- The cast never makes a size greater, and keeps those below `2 ^ 31`. -/
theorem asI32_le (size : Nat) : asI32 size ≤ size := by
  rw [asI32, BitVec.toInt_eq_toNat_cond, BitVec.toNat_ofNat]
  split <;> omega

theorem asI32_eq_iff {size : Nat} : asI32 size = size ↔ size < 2 ^ 31 := by
  rw [asI32, BitVec.toInt_eq_toNat_cond, BitVec.toNat_ofNat]
  split <;> omega

variable {bits : Nat} {sign : Sign} {value : Int} {t : LeafType} {b : Builder}

theorem integerType_ok_iff (sign : Sign) : (∃ t, sign.integerType bits = .ok t) ↔ bits ≤ 256 := by
  have h128 : dec128MaxBinaryPrec = 125 := rfl
  have h256 : dec256MaxBinaryPrec = 251 := rfl
  unfold Sign.integerType
  split_ifs
  all_goals simp
  all_goals omega

theorem map_eq_ok {ε α β : Type} {f : α → β} {x : Except ε α} {y : β}
    (h : x.map f = .ok y) : ∃ a, x = .ok a ∧ f a = y := by
  cases x with
  | error e => cases h
  | ok a => exact ⟨a, rfl, Except.ok.inj h⟩

open Builder in
mutual

/-- There is a builder for the column of a supported type. -/
theorem solToArrowType_ok : ∀ {ty : DynSolType}, ty.Supported →
    ∃ t b, solToArrowType ty = .ok t ∧ ofType t = some b
  | .bool, _ | .address, _ | .bytes, _ | .string, _ | .fixedBytes _, _ =>
      ⟨_, _, by rw [solToArrowType], by rw [ofType]⟩
  | .int bits, h => by
      rw [DynSolType.Supported] at h
      obtain ⟨t, ht⟩ := (integerType_ok_iff .signed).mpr h
      exact ⟨.leaf t, _, by rw [solToArrowType, ht]; rfl, by rw [ofType]⟩
  | .uint bits, h => by
      rw [DynSolType.Supported] at h
      obtain ⟨t, ht⟩ := (integerType_ok_iff .unsigned).mpr h
      exact ⟨.leaf t, _, by rw [solToArrowType, ht]; rfl, by rw [ofType]⟩
  | .array item, h => by
      rw [DynSolType.Supported] at h
      obtain ⟨t, b, ht, hb⟩ := solToArrowType_ok h
      exact ⟨.list t, _, by rw [solToArrowType, ht]; rfl, by rw [ofType, hb]; rfl⟩
  | .fixedArray item size, h => by
      rw [DynSolType.Supported] at h
      obtain ⟨t, b, ht, hb⟩ := solToArrowType_ok h.2
      refine ⟨.fixedSizeList t (asI32 size), .fixedSizeList (asI32 size) b [],
        by rw [solToArrowType, ht]; rfl, ?_⟩
      rw [ofType, if_neg (not_lt.mpr h.1), hb]
      rfl
  | .tuple items, h => by
      rw [DynSolType.Supported] at h
      obtain ⟨ts, bs, hts, hbs⟩ := solToArrowTypes_ok h
      exact ⟨.struct (columnNames items.length) ts, _, by rw [solToArrowType, hts]; rfl,
        by rw [ofType, hbs]; rfl⟩
  | .function, h => by
      rw [DynSolType.Supported] at h
      exact h.elim

theorem solToArrowTypes_ok : ∀ {tys : List DynSolType}, DynSolType.AllSupported tys →
    ∃ ts bs, solToArrowTypes tys = .ok ts ∧ ofTypes ts = some bs
  | [], _ => ⟨[], [], by rw [solToArrowTypes], by rw [ofTypes]⟩
  | ty :: rest, h => by
      rw [DynSolType.AllSupported] at h
      obtain ⟨t, b, ht, hb⟩ := solToArrowType_ok h.1
      obtain ⟨ts, bs, hts, hbs⟩ := solToArrowTypes_ok h.2
      exact ⟨t :: ts, b :: bs, by rw [solToArrowTypes, ht, hts]; rfl, by rw [ofTypes, hb, hbs]; rfl⟩

end

open Builder in
mutual

/-- Only supported types have a builder. -/
theorem supported_of_ofType : ∀ {ty : DynSolType} {t : DataType} {b : Builder},
    solToArrowType ty = .ok t → ofType t = some b → ty.Supported
  | .bool, _, _, _, _ | .address, _, _, _, _ | .bytes, _, _, _, _ | .string, _, _, _, _
  | .fixedBytes _, _, _, _, _ => by
      rw [DynSolType.Supported]
      trivial
  | .int bits, _, _, ht, _ | .uint bits, _, _, ht, _ => by
      rw [solToArrowType] at ht
      obtain ⟨t, ht, -⟩ := map_eq_ok ht
      rw [DynSolType.Supported]
      exact (integerType_ok_iff _).mp ⟨t, ht⟩
  | .array item, _, _, ht, hb => by
      rw [solToArrowType] at ht
      obtain ⟨t, hitem, rfl⟩ := map_eq_ok ht
      rw [ofType] at hb
      obtain ⟨b, hb, -⟩ := Option.map_eq_some_iff.mp hb
      rw [DynSolType.Supported]
      exact supported_of_ofType hitem hb
  | .fixedArray item size, _, _, ht, hb => by
      rw [solToArrowType] at ht
      obtain ⟨t, hitem, rfl⟩ := map_eq_ok ht
      rw [ofType] at hb
      split_ifs at hb with hsize
      obtain ⟨b, hb, -⟩ := Option.map_eq_some_iff.mp hb
      rw [DynSolType.Supported]
      exact ⟨not_lt.mp hsize, supported_of_ofType hitem hb⟩
  | .tuple items, _, _, ht, hb => by
      rw [solToArrowType] at ht
      obtain ⟨ts, hitems, rfl⟩ := map_eq_ok ht
      rw [ofType] at hb
      obtain ⟨bs, hbs, -⟩ := Option.map_eq_some_iff.mp hb
      rw [DynSolType.Supported]
      exact allSupported_of_ofTypes hitems hbs
  | .function, _, _, ht, _ => by
      rw [solToArrowType] at ht
      cases ht

theorem allSupported_of_ofTypes : ∀ {tys : List DynSolType} {ts : List DataType}
    {bs : List Builder}, solToArrowTypes tys = .ok ts → ofTypes ts = some bs →
    DynSolType.AllSupported tys
  | [], _, _, _, _ => by
      rw [DynSolType.AllSupported]
      trivial
  | ty :: rest, _, _, hts, hbs => by
      rw [solToArrowTypes] at hts
      split at hts
      · cases hts
      rename_i t ht
      obtain ⟨ts, hrest, rfl⟩ := map_eq_ok hts
      rw [ofTypes] at hbs
      split at hbs
      · cases hbs
      rename_i b hb
      obtain ⟨bs, hbs, -⟩ := Option.map_eq_some_iff.mp hbs
      rw [DynSolType.AllSupported]
      exact ⟨supported_of_ofType ht hb, allSupported_of_ofTypes hrest hbs⟩

end

/-! ## Builders of a Solidity type -/

namespace Builder

/-- A builder of the Arrow type of a Solidity type. -/
def Of (b : Builder) (ty : DynSolType) : Prop := solToArrowType ty = .ok b.dataType

variable {b : Builder} {added : List Bool} {ty : DynSolType}

theorem eq_leaf {t : LeafType} (h : b.dataType = .leaf t) : ∃ values, b = .leaf t values := by
  cases b with
  | leaf t' values =>
    cases h
    exact ⟨values, rfl⟩
  | list | fixedSizeList | struct => simp [dataType] at h

theorem Of.leaf {t : LeafType} (h : b.Of ty) (ht : solToArrowType ty = .ok (.leaf t)) :
    ∃ values, b = .leaf t values :=
  eq_leaf (Except.ok.inj (ht.symm.trans h)).symm

/-- The builder of an integer. -/
theorem Of.integer {sign : Sign} {bits : Nat} (h : b.Of ty)
    (hty : solToArrowType ty = (sign.integerType bits).map .leaf) :
    ∃ t values, sign.integerType bits = .ok t ∧ b = .leaf t values := by
  obtain ⟨t, ht, htb⟩ := map_eq_ok (hty.symm.trans h)
  obtain ⟨values, rfl⟩ := eq_leaf htb.symm
  exact ⟨t, values, ht, rfl⟩

theorem Of.array {item : DynSolType} (h : b.Of (.array item)) :
    ∃ child entries, b = .list child entries ∧ child.Of item := by
  obtain ⟨t, ht, htb⟩ := map_eq_ok h
  cases b with
  | list child entries =>
    cases htb
    exact ⟨child, entries, rfl, ht⟩
  | leaf | fixedSizeList | struct => simp [dataType] at htb

theorem Of.fixedArray {item : DynSolType} {size : Nat} (h : b.Of (.fixedArray item size)) :
    ∃ child validity, b = .fixedSizeList (asI32 size) child validity ∧ child.Of item := by
  obtain ⟨t, ht, htb⟩ := map_eq_ok h
  cases b with
  | fixedSizeList size' child validity =>
    cases htb
    exact ⟨child, validity, rfl, ht⟩
  | leaf | list | struct => simp [dataType] at htb

theorem forall₂_of {tys : List DynSolType} {fields : List Builder}
    (h : solToArrowTypes tys = .ok (fields.map dataType)) : List.Forall₂ Of fields tys := by
  induction tys generalizing fields with
  | nil =>
    rw [map_eq_nil_iff.mp (Except.ok.inj h).symm]
    exact .nil
  | cons ty rest ih =>
    rw [solToArrowTypes] at h
    split at h
    · cases h
    rename_i t ht
    obtain ⟨ts, hts, heq⟩ := map_eq_ok h
    cases fields with
    | nil => simp at heq
    | cons b fields =>
      injection heq with hb hrest
      exact .cons (ht.trans (congrArg Except.ok hb)) (ih (hrest ▸ hts))

theorem Of.tuple {items : List DynSolType} (h : b.Of (.tuple items)) :
    ∃ fields validity, b = .struct (columnNames items.length) fields validity ∧
      List.Forall₂ Of fields items := by
  obtain ⟨ts, hts, htb⟩ := map_eq_ok h
  cases b with
  | struct names fields validity =>
    rw [dataType, dataTypes_eq] at htb
    cases htb
    exact ⟨fields, validity, rfl, forall₂_of hts⟩
  | leaf | list | fixedSizeList => simp [dataType] at htb

theorem not_of_function : ¬ b.Of .function := by
  intro h
  cases h

/-- A builder for the values of a type. -/
structure Holds (b : Builder) (ty : DynSolType) : Prop where
  supported : ty.Supported
  type : b.Of ty
  consistent : b.consistent = true

theorem Grows.of {b' : Builder} (h : b.Grows b' added) (hb : b.Of ty) : b'.Of ty := by
  rw [Of, h.dataType, hb]

theorem Grows.holds {b' : Builder} (h : b.Grows b' added) (hb : b.Holds ty) : b'.Holds ty where
  supported := hb.supported
  type := h.of hb.type
  consistent := h.consistent

theorem Holds.array {item : DynSolType} (h : b.Holds (.array item)) :
    ∃ child entries, b = .list child entries ∧ child.Holds item := by
  obtain ⟨child, entries, rfl, hchild⟩ := h.type.array
  exact ⟨child, entries, rfl, h.supported, hchild, h.consistent⟩

theorem Holds.fixedArray {item : DynSolType} {size : Nat} (h : b.Holds (.fixedArray item size)) :
    ∃ child validity, b = .fixedSizeList (asI32 size) child validity ∧ child.Holds item ∧
      child.length = asI32 size * validity.length := by
  obtain ⟨child, validity, rfl, hchild⟩ := h.type.fixedArray
  have hc := consistent_fixedSizeList.mp h.consistent
  exact ⟨child, validity, rfl, ⟨h.supported.2, hchild, hc.1⟩, hc.2⟩

theorem forall₂_holds {tys : List DynSolType} {fields : List Builder}
    (hs : DynSolType.AllSupported tys) (h : List.Forall₂ Of fields tys)
    (hc : ∀ b ∈ fields, b.consistent = true) : List.Forall₂ Holds fields tys := by
  induction h with
  | nil => exact .nil
  | cons hb _ ih =>
    refine .cons ⟨hs.1, hb, hc _ mem_cons_self⟩ (ih hs.2 ?_)
    intro b' hb'
    exact hc b' (mem_cons_of_mem _ hb')

theorem Holds.tuple {items : List DynSolType} (h : b.Holds (.tuple items)) :
    ∃ fields validity, b = .struct (columnNames items.length) fields validity ∧
      List.Forall₂ Holds fields items ∧ ∀ f ∈ fields, f.length = validity.length := by
  obtain ⟨fields, validity, rfl, hfields⟩ := h.type.tuple
  have hc := h.consistent
  rw [Builder.consistent, allConsistent_iff] at hc
  exact ⟨fields, validity, rfl, forall₂_holds h.supported hfields fun f hf => (hc f hf).1,
    fun f hf => (hc f hf).2⟩

/-! ### What builders with children need to grow -/

theorem grows_list {child child' : Builder} (entries : List (Nat × Bool)) (valid : Bool)
    (h : child.Grows child' added) :
    (list child entries).Grows (list child' (entries ++ [(child'.length, valid)])) [valid] where
  dataType := by rw [dataType, dataType, h.dataType]
  consistent := by rw [consistent, h.consistent]
  validity := by simp [validity]

theorem grows_fixedSizeList {size : Int} {child child' : Builder} {added validity : List Bool}
    (valid : Bool) (h : child.Grows child' added) (hadded : (added.length : Int) = size)
    (hlength : child.length = size * validity.length) :
    (fixedSizeList size child validity).Grows (fixedSizeList size child' (validity ++ [valid]))
      [valid] where
  dataType := by rw [dataType, dataType, h.dataType]
  consistent := by
    refine consistent_fixedSizeList.mpr ⟨h.consistent, ?_⟩
    rw [h.length, length_append, length_singleton, Nat.cast_add, Nat.cast_add, hlength, hadded,
      mul_add, Nat.cast_one, mul_one]
  validity := rfl

theorem grows_struct {fields fields' : List Builder} {validity : List Bool} (names : List String)
    (valid : Bool) (h : List.Forall₂ (fun b b' => b.Grows b' [valid]) fields fields')
    (hlength : ∀ f ∈ fields, f.length = validity.length) :
    (struct names fields validity).Grows (struct names fields' (validity ++ [valid])) [valid] where
  dataType := by
    have htypes : fields'.map Builder.dataType = fields.map Builder.dataType := by
      clear hlength
      induction h with
      | nil => rfl
      | cons hb _ ih => rw [map_cons, map_cons, hb.dataType, ih]
    rw [dataType, dataType, dataTypes_eq, dataTypes_eq, htypes]
  consistent := by
    rw [consistent, allConsistent_iff]
    induction h with
    | nil => simp
    | cons hb _ ih =>
      have hrest := ih fun f hf => hlength f (mem_cons_of_mem _ hf)
      intro f hf
      cases hf with
      | head => exact ⟨hb.consistent, by simp [hb.length, hlength _ mem_cons_self]⟩
      | tail _ hf => exact hrest f hf
  validity := rfl

end Builder

end CampNode.Evm

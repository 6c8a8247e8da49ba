import CampNode.Evm.Cells

/-!
# CampNode.Evm.Append — appending decoded values

`append_ok` and `appendNull_ok` say when `append_sol_value_to_builder` and
`append_null_value_to_builder` succeed on a builder of the right type: the builder then has one
more entry, and its children have the lengths that Arrow requires. Decoded values have the shape
of their type, but not more. The ABI decoder does not check that an integer is in the range of
its type, and the bytes of a `bytesN` are a word of 32 bytes.

`append_exact_iff` — the cell of a value in the range of its type is appended exactly if each
`bytesN` in it is a `bytes32`, since the padding of a shorter one does not fit in its builder, and
fixed arrays have less than `2 ^ 31` items. `append_fills` is the converse: what was appended to a
builder that can be finished is clean.
-/

namespace CampNode.Evm

open Builder Sign DynSolValue List

variable {bits : Nat} {sign : Sign} {value : Int} {t : LeafType} {b : Builder}

/-! ## Decoded values -/

mutual

/-- What the ABI decoder guarantees of a value that it decodes with a type. -/
inductive DynSolValue.Shaped : DynSolValue → DynSolType → Prop
  | bool (b : Bool) : Shaped (.bool b) .bool
  | int (s : Int) (bits : Nat) : Shaped (.int s bits) (.int bits)
  | uint (u bits : Nat) : Shaped (.uint u bits) (.uint bits)
  | fixedBytes (word : BitVec 256) (size : Nat) : Shaped (.fixedBytes word size) (.fixedBytes size)
  | address (a : BitVec 160) : Shaped (.address a) .address
  | function (f : BitVec 192) : Shaped (.function f) .function
  | bytes (b : List (BitVec 8)) : Shaped (.bytes b) .bytes
  | string (s : String) : Shaped (.string s) .string
  | array {items : List DynSolValue} {item : DynSolType} (h : ShapedAll items item) :
      Shaped (.array items) (.array item)
  | fixedArray {items : List DynSolValue} {item : DynSolType} (h : ShapedAll items item) :
      Shaped (.fixedArray items) (.fixedArray item items.length)
  | tuple {items : List DynSolValue} {types : List DynSolType} (h : ShapedEach items types) :
      Shaped (.tuple items) (.tuple types)

inductive DynSolValue.ShapedAll : List DynSolValue → DynSolType → Prop
  | nil (item : DynSolType) : ShapedAll [] item
  | cons {v : DynSolValue} {rest : List DynSolValue} {item : DynSolType} (h : Shaped v item)
      (hrest : ShapedAll rest item) : ShapedAll (v :: rest) item

inductive DynSolValue.ShapedEach : List DynSolValue → List DynSolType → Prop
  | nil : ShapedEach [] []
  | cons {v : DynSolValue} {rest : List DynSolValue} {ty : DynSolType} {types : List DynSolType}
      (h : Shaped v ty) (hrest : ShapedEach rest types) : ShapedEach (v :: rest) (ty :: types)

end

theorem shapedEach_length : ∀ {values : List DynSolValue} {types : List DynSolType},
    DynSolValue.ShapedEach values types → values.length = types.length
  | [], _, .nil => rfl
  | _ :: _, _ :: _, .cons _ hrest => by
      rw [length_cons, length_cons, shapedEach_length hrest]

/-- Integers of 252 bits and more are stored as text. -/
def Sign.InRange (sign : Sign) (bits : Nat) (value : Int) : Prop :=
  bits ≤ dec256MaxBinaryPrec → sign.min bits ≤ value ∧ value ≤ sign.max bits

mutual

/-- The integers in a value are in the range of their types. -/
def DynSolValue.Ranged : DynSolValue → Prop
  | .int s bits => Sign.signed.InRange bits s
  | .uint u bits => Sign.unsigned.InRange bits u
  | .array items | .fixedArray items | .tuple items => DynSolValue.AllRanged items
  | .bool _ | .fixedBytes _ _ | .address _ | .function _ | .bytes _ | .string _ => True

def DynSolValue.AllRanged : List DynSolValue → Prop
  | [] => True
  | v :: rest => v.Ranged ∧ DynSolValue.AllRanged rest

end

/-- The Arrow type of its column has room for an integer. -/
def Sign.Fits (sign : Sign) (bits : Nat) (value : Int) : Prop :=
  if bits = 8 then sign.min 8 ≤ value ∧ value ≤ sign.max 8
  else if bits = 16 then sign.min 16 ≤ value ∧ value ≤ sign.max 16
  else if bits ≤ 32 then sign.min 32 ≤ value ∧ value ≤ sign.max 32
  else if bits ≤ 64 then sign.min 64 ≤ value ∧ value ≤ sign.max 64
  else if bits ≤ dec128MaxBinaryPrec then -10 ^ 38 < value ∧ value < 10 ^ 38
  else if bits ≤ dec256MaxBinaryPrec then -10 ^ 76 < asI256 value ∧ asI256 value < 10 ^ 76
  else True

mutual

/-- What the ABI decoder does not guarantee: integers fit in their columns, fixed bytes fill a word,
and fixed arrays have a size that is the same as an `i32`. -/
def DynSolValue.Clean : DynSolValue → Prop
  | .int s bits => Sign.signed.Fits bits s
  | .uint u bits => Sign.unsigned.Fits bits u
  | .fixedBytes _ size => size = 32
  | .array items | .tuple items => DynSolValue.AllClean items
  | .fixedArray items => items.length < 2 ^ 31 ∧ DynSolValue.AllClean items
  | .bool _ | .address _ | .function _ | .bytes _ | .string _ => True

def DynSolValue.AllClean : List DynSolValue → Prop
  | [] => True
  | v :: rest => v.Clean ∧ DynSolValue.AllClean rest

end

/-! ### Integers -/

theorem Sign.range_mono (sign : Sign) {bits width : Nat} (h : bits ≤ width) :
    sign.min width ≤ sign.min bits ∧ sign.max bits ≤ sign.max width := by
  have hpow : (2 : Int) ^ bits ≤ 2 ^ width := pow_le_pow_right₀ (by decide) h
  have hpow' : (2 : Int) ^ (bits - 1) ≤ 2 ^ (width - 1) :=
    pow_le_pow_right₀ (by decide) (Nat.sub_le_sub_right h 1)
  cases sign with
  | signed =>
    simp only [min, max]
    omega
  | unsigned =>
    simp only [min, max]
    omega

/-- A value in the range of its type is in the range of any wider type. -/
theorem Sign.InRange.widen {bits width : Nat} (h : sign.InRange bits value) (hw : bits ≤ width)
    (hmax : bits ≤ dec256MaxBinaryPrec) :
    sign.min width ≤ value ∧ value ≤ sign.max width := by
  obtain ⟨hlo, hhi⟩ := h hmax
  obtain ⟨hmin, hmax'⟩ := sign.range_mono hw
  exact ⟨hmin.trans hlo, hhi.trans hmax'⟩

theorem push_leaf (t : LeafType) (values : List (Option Scalar)) (v : Option Scalar) :
    (leaf t values).push t.builder v = some (.leaf t (values ++ [v])) :=
  if_pos rfl

variable (values : List (Option Scalar))

theorem appendSized_ok {lo hi value : Int} (h : lo ≤ value ∧ value ≤ hi) :
    appendSized t lo hi value (.leaf t values) = .ok (.leaf t (values ++ [some (.int value)])) := by
  rw [appendSized, push_leaf]
  exact if_pos h

theorem appendDecimal_ok {digits : Nat} (h : -10 ^ digits < value ∧ value < 10 ^ digits) :
    appendDecimal t digits value (.leaf t values) =
      .ok (.leaf t (values ++ [some (.int value)])) := by
  rw [appendDecimal, if_pos h, push_leaf]

/-- Decimals have room for the integers that are stored in them. -/
theorem Sign.range_decimal256
    (h : sign.min dec256MaxBinaryPrec ≤ value ∧ value ≤ sign.max dec256MaxBinaryPrec) :
    value < 2 ^ 255 ∧ (-10 ^ 76 < value ∧ value < 10 ^ 76) := by
  cases sign <;> simp only [min, max, dec256MaxBinaryPrec] at h <;> omega

/-- What an integer is stored as: the widest ones as text. -/
def integerScalar (bits : Nat) (value : Int) : Scalar :=
  if bits ≤ dec128MaxBinaryPrec then .int value
  else if bits ≤ dec256MaxBinaryPrec then .int (asI256 value)
  else .string (toString value)

section Primitive

variable (ht : sign.integerType bits = .ok t)
include ht

theorem appendPrimitive_ok (h : sign.Fits bits value) :
    appendPrimitive sign value bits (.leaf t values) =
      .ok (.leaf t (values ++ [some (integerScalar bits value)])) := by
  have h128 : dec128MaxBinaryPrec = 125 := rfl
  have hint (hb : bits ≤ 125) : integerScalar bits value = .int value := if_pos hb
  unfold integerType at ht
  unfold Sign.Fits at h
  unfold appendPrimitive
  -- The appender splits on the number of bits as the type does.
  split_ifs at ht h ⊢ with h8 h16 h32 h64 hdec hrange hwide
  all_goals cases ht
  · rw [hint (by omega)]
    exact appendSized_ok values h
  · rw [hint (by omega)]
    exact appendSized_ok values h
  · rw [hint (by omega)]
    exact appendSized_ok values h
  · rw [hint (by omega)]
    exact appendSized_ok values h
  · rw [hint (by omega)]
    exact appendDecimal_ok values h
  · exact absurd (by omega) hrange
  · rw [integerScalar, if_neg hdec, if_pos hwide]
    exact appendDecimal_ok values h
  · rw [integerScalar, if_neg hdec, if_neg hwide]
    have hpush := push_leaf .utf8 values (some (.string (toString value)))
    rw [LeafType.builder] at hpush
    rw [hpush]

/-- Only integers that fit are appended. -/
theorem fits_of_appendPrimitive {b' : Builder}
    (h : appendPrimitive sign value bits (.leaf t values) = .ok b') : sign.Fits bits value := by
  have hsized {lo hi : Int} (h : appendSized t lo hi value (.leaf t values) = .ok b') :
      lo ≤ value ∧ value ≤ hi := by
    rw [appendSized, push_leaf] at h
    by_contra hout
    simp [hout] at h
  have hdecimal {digits : Nat} {i : Int} (h : appendDecimal t digits i (.leaf t values) = .ok b') :
      -10 ^ digits < i ∧ i < 10 ^ digits := by
    unfold appendDecimal at h
    split_ifs at h with hdigits
    exact hdigits
  unfold integerType at ht
  unfold appendPrimitive at h
  unfold Sign.Fits
  split_ifs at ht h ⊢
  all_goals cases ht
  · exact hsized h
  · exact hsized h
  · exact hsized h
  · exact hsized h
  · exact hdecimal h
  · exact hdecimal h

theorem slot_integerScalar (h : sign.InRange bits value) :
    t.slot (integerScalar bits value) = sign.slot bits value := by
  have h128 : dec128MaxBinaryPrec = 125 := rfl
  have h256 : dec256MaxBinaryPrec = 251 := rfl
  have hsame (hb : bits ≤ 251) : asI256 value = value := by
    obtain ⟨hpos, -⟩ := range_decimal256 (h.widen hb hb)
    exact if_neg (by omega)
  unfold integerType at ht
  unfold slot integerScalar
  split_ifs at ht ⊢
  all_goals first | omega | cases ht
  all_goals first | rw [hsame ‹_›]; rfl | cases sign <;> rfl

end Primitive

/-- A leaf has one more entry, which holds the value. -/
theorem appended_leaf (t : LeafType) (values : List (Option Scalar)) (v : Scalar) {cell : Cell}
    {ranged : Prop} (h : ranged → .leaf (t.slot v) = cell) :
    (leaf t values).Grows (.leaf t (values ++ [some v])) [true] ∧
      ((leaf t values).Packed → ranged →
        (leaf t values).Extended (.leaf t (values ++ [some v])) [cell]) :=
  ⟨grows_leaf t values (some v), fun _ hr => h hr ▸ extended_leaf t values v⟩

variable {ty : DynSolType}

theorem appendInteger_ok (hb : b.Of ty)
    (hty : solToArrowType ty = (sign.integerType bits).map .leaf) (hbits : bits ≤ 256)
    (h : sign.Fits bits value) :
    ∃ b', appendInteger sign value bits b = .ok b' ∧ b.Grows b' [true] ∧
      (b.Packed → sign.InRange bits value → b.Extended b' [.leaf (sign.slot bits value)]) := by
  obtain ⟨t, values, ht, rfl⟩ := hb.integer hty
  refine ⟨_, ?_, appended_leaf t values (integerScalar bits value) fun hr => ?_⟩
  · rw [appendInteger, if_pos hbits, appendPrimitive_ok values ht h]
  · rw [slot_integerScalar ht hr]

/-! ### Values -/

/-- Appending to the builder of a type without children. -/
theorem appendTo_ok (t : LeafType) (values : List (Option Scalar)) (v : Option Scalar) :
    appendTo t.builder v (.leaf t values) = .ok (.leaf t (values ++ [v])) := by
  rw [appendTo, push_leaf]

theorem pushFixed_ok {size : Nat} (values : List (Option Scalar)) (v : BitVec (8 * size)) :
    (leaf (.fixedSizeBinary size) values).pushFixed size v =
      .ok (.leaf (.fixedSizeBinary size) (values ++ [some (.fixed size v)])) :=
  if_pos rfl

mutual

/-- A decoded value is appended to the builder of its type. -/
theorem append_ok : ∀ {v : DynSolValue} {ty : DynSolType} {b : Builder}, v.Shaped ty → v.Clean →
    b.Holds ty → ∃ b', append v b = .ok b' ∧ b.Grows b' [true] ∧
      (b.Packed → v.Ranged → b.Extended b' [v.cell])
  | _, _, b, .bool v, _, hb => by
      obtain ⟨values, rfl⟩ := hb.type.leaf (by rw [solToArrowType])
      rw [append]
      exact ⟨_, appendTo_ok .boolean values _, appended_leaf .boolean values (.bool v) fun _ => rfl⟩
  | _, _, b, .int _ bits, hv, hb | _, _, b, .uint _ bits, hv, hb => by
      rw [DynSolValue.Clean] at hv
      have hbits := hb.supported
      rw [DynSolType.Supported] at hbits
      rw [append, cell, DynSolValue.Ranged]
      exact appendInteger_ok hb.type (by rw [solToArrowType]) hbits hv
  | _, _, b, .fixedBytes word size, hv, hb => by
      rw [DynSolValue.Clean] at hv
      subst hv
      obtain ⟨values, rfl⟩ := hb.type.leaf (by rw [solToArrowType])
      rw [append]
      exact ⟨_, pushFixed_ok values _,
        appended_leaf (.fixedSizeBinary 32) values (.fixed 32 word) fun _ => rfl⟩
  | _, _, b, .address a, _, hb => by
      obtain ⟨values, rfl⟩ := hb.type.leaf (by rw [solToArrowType])
      rw [append]
      exact ⟨_, pushFixed_ok values _,
        appended_leaf (.fixedSizeBinary 20) values (.fixed 20 a) fun _ => rfl⟩
  | _, _, b, .bytes v, _, hb => by
      obtain ⟨values, rfl⟩ := hb.type.leaf (by rw [solToArrowType])
      rw [append]
      exact ⟨_, appendTo_ok .binary values _, appended_leaf .binary values (.bytes v) fun _ => rfl⟩
  | _, _, b, .string s, _, hb => by
      obtain ⟨values, rfl⟩ := hb.type.leaf (by rw [solToArrowType])
      rw [append]
      exact ⟨_, appendTo_ok .utf8 values _, appended_leaf .utf8 values (.string s) fun _ => rfl⟩
  | .array items, _, b, .array hs, hv, hb => by
      rw [DynSolValue.Clean] at hv
      obtain ⟨child, entries, rfl, hchild⟩ := hb.array
      obtain ⟨child', happend, hgrows, hext⟩ := appendAll_ok hs hv hchild
      refine ⟨_, ?_, grows_list entries true hgrows, fun hp hr => ?_⟩
      · rw [append, happend]
      have hchildp := hp
      rw [Builder.Packed] at hchildp
      rw [DynSolValue.Ranged] at hr
      rw [cell]
      refine extended_list (hext hchildp.2.2 hr) ?_ hp
      rw [hgrows.length, length_replicate, cells_length]
  | .fixedArray items, _, b, .fixedArray hs, hv, hb => by
      rw [DynSolValue.Clean] at hv
      obtain ⟨child, validity, rfl, hchild, hlength⟩ := hb.fixedArray
      obtain ⟨child', happend, hgrows, hext⟩ := appendAll_ok hs hv.2 hchild
      -- The cast keeps the size, which is what makes the length of the items fit.
      rw [asI32_eq_iff.mpr hv.1] at hlength ⊢
      have hadded : ((replicate items.length true).length : Int) = items.length := by
        rw [length_replicate]
      refine ⟨_, ?_, grows_fixedSizeList true hgrows hadded hlength, fun hp hr => ?_⟩
      · rw [append, happend]
      · rw [Builder.Packed] at hp
        rw [DynSolValue.Ranged] at hr
        rw [cell]
        exact extended_fixedSizeList (hext hp hr) (cells_length items) (by exact_mod_cast hlength)
  | .tuple items, _, b, .tuple hs, hv, hb => by
      rw [DynSolValue.Clean] at hv
      obtain ⟨fields, validity, rfl, hfields, hlength⟩ := hb.tuple
      obtain ⟨fields', happend, hgrows, hext⟩ := appendEach_ok hs hv hfields hlength
      refine ⟨_, ?_, grows_struct _ true hgrows hlength, fun hp hr => ?_⟩
      · rw [append, happend]
      · rw [Builder.Packed] at hp
        rw [DynSolValue.Ranged] at hr
        obtain ⟨hp', hkept, hadded⟩ := hext hp hr
        exact extended_struct hp' hkept (by rw [hadded])
  | _, _, b, .function f, _, hb => (not_of_function hb.type).elim

theorem appendAll_ok : ∀ {items : List DynSolValue} {ty : DynSolType} {b : Builder},
    DynSolValue.ShapedAll items ty → DynSolValue.AllClean items → b.Holds ty →
    ∃ b', appendAll items b = .ok b' ∧ b.Grows b' (replicate items.length true) ∧
      (b.Packed → DynSolValue.AllRanged items → b.Extended b' (cells items))
  | [], _, b, _, _, hb =>
      ⟨b, by rw [appendAll], ⟨rfl, hb.consistent, (append_nil _).symm⟩, fun hp _ => .refl hp⟩
  | v :: rest, ty, b, .cons hs hrest, hv, hb => by
      rw [DynSolValue.AllClean] at hv
      obtain ⟨b', happend, hgrows, hext⟩ := append_ok hs hv.1 hb
      obtain ⟨b'', happend', hgrows', hext'⟩ := appendAll_ok hrest hv.2 (hgrows.holds hb)
      refine ⟨b'', ?_, hgrows.trans hgrows', fun hp hr => ?_⟩
      · rw [appendAll, happend]
        exact happend'
      · rw [DynSolValue.AllRanged] at hr
        have hfirst := hext hp hr.1
        rw [cells]
        exact hfirst.trans (hext' hfirst.packed hr.2) hgrows.length

theorem appendEach_ok : ∀ {items : List DynSolValue} {types : List DynSolType}
    {fields : List Builder} {n : Nat}, DynSolValue.ShapedEach items types →
    DynSolValue.AllClean items → List.Forall₂ Builder.Holds fields types →
    (∀ f ∈ fields, f.length = n) →
    ∃ fields', appendEach items fields = .ok fields' ∧
      List.Forall₂ (fun b b' => b.Grows b' [true]) fields fields' ∧
      (Builder.AllPacked fields → DynSolValue.AllRanged items → Builder.AllPacked fields' ∧
        (∀ i < n, cellsAt fields' i = cellsAt fields i) ∧ cellsAt fields' n = cells items)
  | [], [], _, _, .nil, _, .nil, _ =>
      ⟨[], by rw [appendEach]; simp, .nil, fun hp _ => ⟨hp, fun _ _ => rfl, rfl⟩⟩
  | v :: rest, ty :: types, b :: fields, n, .cons hs hrest, hv, .cons hb hfields, hn => by
      rw [DynSolValue.AllClean] at hv
      obtain ⟨b', happend, hgrows, hext⟩ := append_ok hs hv.1 hb
      obtain ⟨fields', happend', hall, hext'⟩ :=
        appendEach_ok hrest hv.2 hfields fun f hf => hn f (mem_cons_of_mem _ hf)
      refine ⟨b' :: fields', ?_, .cons hgrows hall, fun hp hr => ?_⟩
      · rw [appendEach, happend, happend']
        rfl
      rw [Builder.AllPacked] at hp
      rw [DynSolValue.AllRanged] at hr
      have hfirst := hext hp.1 hr.1
      obtain ⟨hp', hkept, hadded⟩ := hext' hp.2 hr.2
      rw [Builder.AllPacked]
      refine ⟨⟨hfirst.packed, hp'⟩, fun i hi => ?_, ?_⟩
      · rw [cellsAt, cellsAt, hkept i hi, hfirst.kept i (hn b mem_cons_self ▸ hi)]
      · have hcell := hfirst.added
        rw [hn b mem_cons_self] at hcell
        rw [cellsAt, cells, hadded]
        exact congrArg (· :: cells rest) (singleton_injective hcell)

end

/-! ### Nulls -/

theorem repeatAppend_ok {op : Builder → Except DecodeError Builder}
    (hop : ∀ {b : Builder}, b.Holds ty → ∃ b', op b = .ok b' ∧ b.Grows b' [false]) (n : Nat)
    (hb : b.Holds ty) :
    ∃ b', repeatAppend op n b = .ok b' ∧ b.Grows b' (replicate n false) := by
  induction n generalizing b with
  | zero => exact ⟨b, rfl, rfl, hb.consistent, (append_nil _).symm⟩
  | succ n ih =>
    obtain ⟨b', happend, hgrows⟩ := hop hb
    obtain ⟨b'', hrest, hgrows'⟩ := ih (hgrows.holds hb)
    refine ⟨b'', ?_, hgrows.trans hgrows'⟩
    rw [repeatAppend, happend]
    exact hrest

theorem appendNull_leaf (h : b.dataType = .leaf t) :
    ∃ b', appendNull (.leaf t) b = .ok b' ∧ b.Grows b' [false] := by
  obtain ⟨values, rfl⟩ := eq_leaf h
  exact ⟨_, appendTo_ok t values none, grows_leaf t values none⟩

mutual

/-- A null is appended to the builder of any type, if the null is one of that type. -/
theorem appendNull_ok : ∀ {ty : DynSolType} {b : Builder}, b.Holds ty →
    ∃ b', appendNull b.dataType b = .ok b' ∧ b.Grows b' [false]
  | .bool, b, hb | .address, b, hb | .bytes, b, hb | .string, b, hb | .fixedBytes _, b, hb => by
      obtain ⟨values, rfl⟩ := hb.type.leaf (by rw [solToArrowType])
      exact appendNull_leaf (by rw [dataType])
  | .int bits, b, hb | .uint bits, b, hb => by
      obtain ⟨t, values, -, rfl⟩ := hb.type.integer (by rw [solToArrowType])
      exact appendNull_leaf (by rw [dataType])
  | .array item, b, hb => by
      obtain ⟨child, entries, rfl, hchild⟩ := hb.array
      have hsame : child.Grows child [] := ⟨rfl, hchild.consistent, (append_nil _).symm⟩
      refine ⟨_, ?_, grows_list entries false hsame⟩
      rw [dataType, appendNull]
  | .fixedArray item size, b, hb => by
      have hpos := hb.supported.1
      obtain ⟨child, validity, rfl, hchild, hlength⟩ := hb.fixedArray
      -- The items get as many nulls as the list has places.
      have hop {b' : Builder} (hb' : b'.Holds item) :
          ∃ b'', appendNull child.dataType b' = .ok b'' ∧ b'.Grows b'' [false] := by
        have hsame : child.dataType = b'.dataType := Except.ok.inj (hchild.type.symm.trans hb'.type)
        rw [hsame]
        exact appendNull_ok hb'
      obtain ⟨child', hrepeat, hgrows⟩ := repeatAppend_ok hop (asI32 size).toNat hchild
      have hadded : ((replicate (asI32 size).toNat false).length : Int) = asI32 size := by
        rw [length_replicate, Int.toNat_of_nonneg hpos]
      refine ⟨_, ?_, grows_fixedSizeList false hgrows hadded hlength⟩
      rw [dataType, appendNull, hrepeat]
  | .tuple items, b, hb => by
      obtain ⟨fields, validity, rfl, hfields, hlength⟩ := hb.tuple
      obtain ⟨fields', happend, hgrows⟩ := appendNulls_ok hfields
      refine ⟨_, ?_, grows_struct _ false hgrows hlength⟩
      rw [dataType, appendNull, dataTypes_eq, happend]
  | .function, b, hb => (not_of_function hb.type).elim

theorem appendNulls_ok : ∀ {types : List DynSolType} {fields : List Builder},
    List.Forall₂ Builder.Holds fields types →
    ∃ fields', appendNulls (fields.map dataType) fields = .ok fields' ∧
      List.Forall₂ (fun b b' => b.Grows b' [false]) fields fields'
  | [], _, .nil => ⟨[], by rw [map_nil, appendNulls], .nil⟩
  | ty :: types, b :: fields, .cons hb hfields => by
      obtain ⟨b', happend, hgrows⟩ := appendNull_ok hb
      obtain ⟨fields', hrest, hall⟩ := appendNulls_ok hfields
      refine ⟨b' :: fields', ?_, .cons hgrows hall⟩
      rw [map_cons, appendNulls, happend, hrest]
      rfl

end

/-! ## New builders -/

namespace Builder

mutual

/-- A new builder has its type, children of the right lengths, and no items left over. -/
theorem ofType_new : ∀ {t : DataType} {b : Builder}, ofType t = some b →
    b.dataType = t ∧ b.consistent = true ∧ b.Packed ∧ b.validity = []
  | .leaf type, _, h => by
      rw [ofType] at h
      cases h
      rw [dataType, consistent, Packed]
      exact ⟨rfl, rfl, trivial, rfl⟩
  | .list item, _, h => by
      rw [ofType] at h
      obtain ⟨items, hitems, rfl⟩ := Option.map_eq_some_iff.mp h
      obtain ⟨htype, hconsistent, hpacked, hnone⟩ := ofType_new hitems
      rw [dataType, consistent, Packed, htype, length, hnone]
      exact ⟨rfl, hconsistent, ⟨nofun, rfl, hpacked⟩, rfl⟩
  | .fixedSizeList item size, _, h => by
      rw [ofType] at h
      split_ifs at h
      obtain ⟨items, hitems, rfl⟩ := Option.map_eq_some_iff.mp h
      obtain ⟨htype, hconsistent, hpacked, hnone⟩ := ofType_new hitems
      rw [dataType, Packed, htype]
      refine ⟨rfl, ?_, hpacked, rfl⟩
      simp [consistent, hconsistent, length, hnone]
  | .struct names types, _, h => by
      rw [ofType] at h
      obtain ⟨fields, hfields, rfl⟩ := Option.map_eq_some_iff.mp h
      obtain ⟨htypes, hconsistent, hpacked⟩ := ofTypes_new hfields
      rw [dataType, consistent, Packed, htypes]
      exact ⟨rfl, hconsistent, hpacked, rfl⟩

theorem ofTypes_new : ∀ {types : List DataType} {fields : List Builder},
    ofTypes types = some fields →
    dataTypes fields = types ∧ allConsistent 0 fields = true ∧ AllPacked fields
  | [], _, h => by
      rw [ofTypes] at h
      cases h
      rw [dataTypes, allConsistent, AllPacked]
      exact ⟨rfl, rfl, trivial⟩
  | t :: rest, _, h => by
      rw [ofTypes] at h
      split at h
      · cases h
      rename_i b hb
      obtain ⟨fields, hfields, rfl⟩ := Option.map_eq_some_iff.mp h
      simp [dataTypes, allConsistent, AllPacked, ofType_new hb, ofTypes_new hfields, length]

end

theorem ofTypes_eq_some_iff {types : List DataType} {fields : List Builder} :
    ofTypes types = some fields ↔ List.Forall₂ (fun t b => ofType t = some b) types fields := by
  induction types generalizing fields with
  | nil => simp [ofTypes, eq_comm]
  | cons t rest ih =>
    rw [ofTypes, forall₂_cons_left_iff]
    cases ofType t with
    | none => simp
    | some b => simp [ih, eq_comm, and_comm]

/-! ## What was appended -/

mutual

/-- Fixed-size lists have at least their items. A value of another size than its column has one
too many for good. -/
def Fed : Builder → Prop
  | .leaf _ _ => True
  | .list items _ => items.Fed
  | .fixedSizeList size items validity => items.Fed ∧ size * validity.length ≤ items.length
  | .struct _ fields validity => AllFed validity.length fields

def AllFed (n : Nat) : List Builder → Prop
  | [] => True
  | b :: rest => (b.Fed ∧ b.length = n) ∧ AllFed n rest

end

mutual

theorem fed_of_consistent : ∀ {b : Builder}, b.consistent = true → b.Fed
  | .leaf _ _, _ => by
      rw [Fed]
      trivial
  | .list _ _, h => by
      rw [Fed]
      exact fed_of_consistent h
  | .fixedSizeList _ _ _, h => by
      obtain ⟨hitems, hlength⟩ := consistent_fixedSizeList.mp h
      rw [Fed]
      exact ⟨fed_of_consistent hitems, hlength.ge⟩
  | .struct _ _ _, h => by
      rw [Fed]
      exact allFed_of_consistent h

theorem allFed_of_consistent : ∀ {n : Nat} {fields : List Builder},
    allConsistent n fields = true → AllFed n fields
  | _, [], _ => by
      rw [AllFed]
      trivial
  | _, _ :: _, h => by
      obtain ⟨⟨hb, hlength⟩, hrest⟩ := allConsistent_cons.mp h
      rw [AllFed]
      exact ⟨⟨fed_of_consistent hb, hlength⟩, allFed_of_consistent hrest⟩

end

/-- `b'` is `b` with `n` more entries, and can be finished only if `b` can and `ok` holds. -/
structure Fills (b b' : Builder) (n : Nat) (ok : Prop) : Prop where
  dataType : b'.dataType = b.dataType
  length : b'.length = b.length + n
  fed : b'.Fed
  consistent : b'.consistent = true → b.consistent = true ∧ ok

/-- The same for the fields of a struct with `n` rows, which get one entry each. -/
structure FillsEach (fields fields' : List Builder) (n : Nat) (ok : Prop) : Prop where
  dataTypes : dataTypes fields' = dataTypes fields
  fed : AllFed (n + 1) fields'
  consistent : allConsistent (n + 1) fields' = true → allConsistent n fields = true ∧ ok

variable {b b' b'' child child' : Builder} {n m : Nat} {ok ok' : Prop}

theorem Fills.trans (h : b.Fills b' n ok) (h' : b'.Fills b'' m ok') :
    b.Fills b'' (n + m) (ok ∧ ok') where
  dataType := h'.dataType.trans h.dataType
  length := by rw [h'.length, h.length, Nat.add_assoc]
  fed := h'.fed
  consistent hc :=
    have ⟨hc', hok'⟩ := h'.consistent hc
    have ⟨hb, hok⟩ := h.consistent hc'
    ⟨hb, hok, hok'⟩

theorem Fills.imp (h : b.Fills b' n ok) (hok : ok → ok') : b.Fills b' n ok' where
  dataType := h.dataType
  length := h.length
  fed := h.fed
  consistent hc := (h.consistent hc).imp id hok

theorem fills_leaf (t : LeafType) (values : List (Option Scalar)) (v : Option Scalar) (hok : ok) :
    (leaf t values).Fills (leaf t (values ++ [v])) 1 ok where
  dataType := rfl
  length := by simp [length, validity]
  fed := by
    rw [Fed]
    trivial
  consistent _ := ⟨rfl, hok⟩

theorem fills_list (h : child.Fills child' n ok) (entries : List (Nat × Bool))
    (entry : Nat × Bool) : (list child entries).Fills (list child' (entries ++ [entry])) 1 ok where
  dataType := by rw [dataType, dataType, h.dataType]
  length := by simp [length, validity]
  fed := by
    rw [Fed]
    exact h.fed
  consistent := h.consistent

/-- If the items are finished, exactly as many were appended as the list has places. -/
theorem fills_fixedSizeList {size : Int} {validity : List Bool} (h : child.Fills child' n ok)
    (hn : size ≤ n) (hfed : size * validity.length ≤ child.length) (valid : Bool) :
    (fixedSizeList size child validity).Fills (fixedSizeList size child' (validity ++ [valid])) 1
      (n = size ∧ ok) := by
  have hlength := h.length
  have hplaces : size * ((validity ++ [valid]).length : Nat) = size * validity.length + size := by
    rw [length_append, length_singleton, Nat.cast_add, mul_add, Nat.cast_one, mul_one]
  refine ⟨by rw [dataType, dataType, h.dataType], by simp [length, Builder.validity], ?_, ?_⟩
  · rw [Fed, hplaces]
    exact ⟨h.fed, by omega⟩
  · intro hc
    rw [consistent_fixedSizeList, hplaces] at hc
    rw [consistent_fixedSizeList]
    obtain ⟨hchild, hok⟩ := h.consistent hc.1
    exact ⟨⟨hchild, by omega⟩, by omega, hok⟩

theorem fills_struct {fields fields' : List Builder} {validity : List Bool}
    (h : FillsEach fields fields' validity.length ok) (names : List String) (valid : Bool) :
    (struct names fields validity).Fills (struct names fields' (validity ++ [valid])) 1 ok := by
  have hrows : (validity ++ [valid]).length = validity.length + 1 := length_append
  refine ⟨by rw [dataType, dataType, h.dataTypes], by simp [length, Builder.validity], ?_, ?_⟩
  · rw [Fed, hrows]
    exact h.fed
  · rw [consistent, consistent, hrows]
    exact h.consistent

theorem fillsEach_nil (hok : ok) : FillsEach [] [] n ok where
  dataTypes := rfl
  fed := by
    rw [AllFed]
    trivial
  consistent _ := ⟨rfl, hok⟩

theorem FillsEach.cons {rest rest' : List Builder} (h : b.Fills b' 1 ok) (hb : b.length = n)
    (hrest : FillsEach rest rest' n ok') : FillsEach (b :: rest) (b' :: rest') n (ok ∧ ok') where
  dataTypes := by rw [Builder.dataTypes, Builder.dataTypes, h.dataType, hrest.dataTypes]
  fed := by
    rw [AllFed, h.length, hb]
    exact ⟨⟨h.fed, rfl⟩, hrest.fed⟩
  consistent hc := by
    rw [allConsistent_cons] at hc ⊢
    obtain ⟨hcb, hok⟩ := h.consistent hc.1.1
    obtain ⟨hcrest, hok'⟩ := hrest.consistent hc.2
    exact ⟨⟨⟨hcb, hb⟩, hcrest⟩, hok, hok'⟩

end Builder

section Fills

variable {b' : Builder}

theorem appendInteger_fills (hb : b.Of ty)
    (hty : solToArrowType ty = (sign.integerType bits).map .leaf)
    (h : appendInteger sign value bits b = .ok b') : b.Fills b' 1 (sign.Fits bits value) := by
  obtain ⟨t, values, ht, rfl⟩ := hb.integer hty
  unfold appendInteger at h
  split_ifs at h
  split at h
  · cases h
  · rename_i hprimitive
    have hfits := fits_of_appendPrimitive values ht hprimitive
    cases (appendPrimitive_ok values ht hfits).symm.trans hprimitive
    cases h
    exact fills_leaf t values _ hfits

end Fills

mutual

/-- What is appended to a builder that can be finished afterwards is clean. -/
theorem append_fills : ∀ {v : DynSolValue} {ty : DynSolType} {b b' : Builder}, v.Shaped ty →
    b.Of ty → b.Fed → append v b = .ok b' → b.Fills b' 1 v.Clean
  | _, _, b, _, .bool v, hb, _, h => by
      obtain ⟨values, rfl⟩ := hb.leaf (by rw [solToArrowType])
      rw [append] at h
      cases (appendTo_ok .boolean values _).symm.trans h
      exact fills_leaf _ values _ (by rw [DynSolValue.Clean]; trivial)
  | _, _, b, _, .int _ bits, hb, _, h | _, _, b, _, .uint _ bits, hb, _, h => by
      rw [append] at h
      rw [DynSolValue.Clean]
      exact appendInteger_fills hb (by rw [solToArrowType]) h
  | _, _, b, _, .fixedBytes word size, hb, _, h => by
      obtain ⟨values, rfl⟩ := hb.leaf (by rw [solToArrowType])
      rw [append, pushFixed] at h
      rw [DynSolValue.Clean]
      split_ifs at h with hsize
      cases h
      exact fills_leaf _ values _ hsize
  | _, _, b, _, .address a, hb, _, h => by
      obtain ⟨values, rfl⟩ := hb.leaf (by rw [solToArrowType])
      rw [append] at h
      cases (pushFixed_ok values _).symm.trans h
      exact fills_leaf _ values _ (by rw [DynSolValue.Clean]; trivial)
  | _, _, b, _, .bytes v, hb, _, h => by
      obtain ⟨values, rfl⟩ := hb.leaf (by rw [solToArrowType])
      rw [append] at h
      cases (appendTo_ok .binary values _).symm.trans h
      exact fills_leaf _ values _ (by rw [DynSolValue.Clean]; trivial)
  | _, _, b, _, .string s, hb, _, h => by
      obtain ⟨values, rfl⟩ := hb.leaf (by rw [solToArrowType])
      rw [append] at h
      cases (appendTo_ok .utf8 values _).symm.trans h
      exact fills_leaf _ values _ (by rw [DynSolValue.Clean]; trivial)
  | .array items, _, b, _, .array hs, hb, hfed, h => by
      obtain ⟨child, entries, rfl, hchild⟩ := hb.array
      rw [append] at h
      rw [Builder.Fed] at hfed
      rw [DynSolValue.Clean]
      split at h
      · cases h
      · cases h
        exact fills_list (appendAll_fills hs hchild hfed ‹_›) ..
  | .fixedArray items, _, b, _, .fixedArray hs, hb, hfed, h => by
      obtain ⟨child, validity, rfl, hchild⟩ := hb.fixedArray
      rw [append] at h
      rw [Builder.Fed] at hfed
      rw [DynSolValue.Clean, ← asI32_eq_iff, eq_comm]
      split at h
      · cases h
      · cases h
        exact fills_fixedSizeList (appendAll_fills hs hchild hfed.1 ‹_›) (asI32_le _) hfed.2 true
  | .tuple items, _, b, _, .tuple hs, hb, hfed, h => by
      obtain ⟨fields, validity, rfl, hfields⟩ := hb.tuple
      rw [append] at h
      rw [Builder.Fed] at hfed
      rw [DynSolValue.Clean]
      split at h
      · cases h
      · cases h
        exact fills_struct (appendEach_fills hs hfields hfed ‹_›) ..
  | _, _, b, _, .function f, hb, _, _ => (not_of_function hb).elim

theorem appendAll_fills : ∀ {items : List DynSolValue} {ty : DynSolType} {b b' : Builder},
    DynSolValue.ShapedAll items ty → b.Of ty → b.Fed → appendAll items b = .ok b' →
    b.Fills b' items.length (DynSolValue.AllClean items)
  | [], _, b, _, _, _, hfed, h => by
      rw [appendAll] at h
      cases h
      rw [DynSolValue.AllClean]
      exact ⟨rfl, rfl, hfed, fun hc => ⟨hc, trivial⟩⟩
  | v :: rest, ty, b, _, .cons hs hrest, hb, hfed, h => by
      rw [appendAll] at h
      split at h
      · cases h
      rename_i b₁ happend
      have hfirst := append_fills hs hb hfed happend
      have hof : b₁.Of ty := by rw [Builder.Of, hfirst.dataType, hb]
      rw [DynSolValue.AllClean, length_cons, Nat.add_comm]
      exact hfirst.trans (appendAll_fills hrest hof hfirst.fed h)

theorem appendEach_fills : ∀ {items : List DynSolValue} {types : List DynSolType}
    {fields fields' : List Builder} {n : Nat}, DynSolValue.ShapedEach items types →
    List.Forall₂ Builder.Of fields types → AllFed n fields →
    appendEach items fields = .ok fields' → FillsEach fields fields' n (DynSolValue.AllClean items)
  | [], [], _, _, _, .nil, .nil, _, h => by
      rw [appendEach] at h
      · cases h
        rw [DynSolValue.AllClean]
        exact fillsEach_nil trivial
      · simp
  | v :: rest, _ :: _, b :: fields, _, _, .cons hs hrest, .cons hb hfields, hfed, h => by
      rw [AllFed] at hfed
      rw [appendEach] at h
      split at h
      · cases h
      · obtain ⟨fields₁, hfields₁, rfl⟩ := map_eq_ok h
        rw [DynSolValue.AllClean]
        exact .cons (append_fills hs hb hfed.1.1 ‹_›) hfed.1.2
          (appendEach_fills hrest hfields hfed.2 hfields₁)

end

theorem repeatAppend_fills {op : Builder → Except DecodeError Builder} {type : DataType}
    (hop : ∀ {b b' : Builder}, b.dataType = type → b.Fed → op b = .ok b' → b.Fills b' 1 True)
    {n : Nat} {b' : Builder} (htype : b.dataType = type) (hfed : b.Fed)
    (h : repeatAppend op n b = .ok b') : b.Fills b' n True := by
  induction n generalizing b with
  | zero =>
    cases h
    exact ⟨rfl, rfl, hfed, fun hc => ⟨hc, trivial⟩⟩
  | succ n ih =>
    rw [repeatAppend] at h
    split at h
    · cases h
    · have hfirst := hop htype hfed ‹_›
      rw [Nat.add_comm]
      exact (hfirst.trans (ih (hfirst.dataType.trans htype) hfirst.fed h)).imp And.left

mutual

/-- Nulls do not make a builder one that can be finished. -/
theorem appendNull_fills : ∀ {type : DataType} {b b' : Builder}, b.dataType = type → b.Fed →
    appendNull type b = .ok b' → b.Fills b' 1 True
  | .leaf _, b, _, htype, _, h => by
      obtain ⟨values, rfl⟩ := eq_leaf htype
      rw [appendNull] at h
      cases (appendTo_ok _ values none).symm.trans h
      exact fills_leaf _ values none trivial
  | .list _, b, _, htype, hfed, h => by
      cases b with
      | list child entries =>
        cases h
        rw [Builder.Fed] at hfed
        exact fills_list (n := 0) ⟨rfl, rfl, hfed, fun hc => ⟨hc, trivial⟩⟩ ..
      | leaf | fixedSizeList | struct => simp [dataType] at htype
  | .fixedSizeList item size, b, _, htype, hfed, h => by
      cases b with
      | fixedSizeList size' child validity =>
        rw [dataType] at htype
        injection htype with hitem hsize
        subst hsize
        rw [Builder.Fed] at hfed
        rw [appendNull] at h
        split at h
        · cases h
        · cases h
          have hitems := repeatAppend_fills appendNull_fills hitem hfed.1 ‹_›
          exact (fills_fixedSizeList hitems (Int.self_le_toNat _) hfed.2 false).imp And.right
      | leaf | list | struct => simp [dataType] at htype
  | .struct _ types, b, _, htype, hfed, h => by
      cases b with
      | struct names fields validity =>
        rw [dataType] at htype
        injection htype with _ htypes
        rw [Builder.Fed] at hfed
        rw [appendNull] at h
        split at h
        · cases h
        · cases h
          exact fills_struct (appendNulls_fills htypes hfed ‹_›) ..
      | leaf | list | fixedSizeList => simp [dataType] at htype

theorem appendNulls_fills : ∀ {types : List DataType} {fields fields' : List Builder} {n : Nat},
    dataTypes fields = types → AllFed n fields → appendNulls types fields = .ok fields' →
    FillsEach fields fields' n True
  | [], [], _, _, _, _, h => by
      rw [appendNulls] at h
      cases h
      exact fillsEach_nil trivial
  | _ :: _, b :: fields, _, _, htypes, hfed, h => by
      rw [dataTypes] at htypes
      injection htypes with htype hrest
      rw [AllFed] at hfed
      rw [appendNulls] at h
      split at h
      · cases h
      · obtain ⟨fields₁, hfields₁, rfl⟩ := map_eq_ok h
        have hcons := FillsEach.cons (appendNull_fills htype hfed.1.1 ‹_›) hfed.1.2
          (appendNulls_fills hrest hfed.2 hfields₁)
        exact ⟨hcons.dataTypes, hcons.fed, fun hc => (hcons.consistent hc).imp id And.left⟩

end

/-- A value is appended to the builders of its type, as one cell that holds it exactly, if and only
if there is a builder of the type and the value has no fixed bytes of less than a word and no fixed
arrays of `2 ^ 31` items. -/
theorem append_exact_iff {v : DynSolValue} {ty : DynSolType} {t : DataType}
    (ht : solToArrowType ty = .ok t) (hshape : v.Shaped ty) (hrange : v.Ranged) :
    ((ofType t).isSome = true ∧ ∀ b : Builder, b.dataType = t → b.consistent = true → b.Packed →
      ∃ b', append v b = .ok b' ∧ b.Grows b' [true] ∧ b.Extended b' [v.cell]) ↔
      ty.Supported ∧ v.Clean := by
  constructor
  · rintro ⟨hsome, hall⟩
    obtain ⟨b, hb⟩ := Option.isSome_iff_exists.mp hsome
    obtain ⟨htype, hconsistent, hpacked, -⟩ := ofType_new hb
    obtain ⟨b', happend, hgrows, -⟩ := hall b htype hconsistent hpacked
    have hof : b.Of ty := by rw [Builder.Of, htype, ht]
    have hfills := append_fills hshape hof (fed_of_consistent hconsistent) happend
    exact ⟨supported_of_ofType ht hb, (hfills.consistent hgrows.consistent).2⟩
  · rintro ⟨hs, hclean⟩
    obtain ⟨_, new, ht', hnew⟩ := solToArrowType_ok hs
    cases ht.symm.trans ht'
    refine ⟨by rw [hnew]; rfl, ?_⟩
    intro b htype hconsistent hpacked
    have hb : b.Holds ty := ⟨hs, by rw [Builder.Of, htype, ht], hconsistent⟩
    obtain ⟨b', happend, hgrows, hext⟩ := append_ok hshape hclean hb
    exact ⟨b', happend, hgrows, hext hpacked hrange⟩

/-- A tuple of a number, a list of texts and a pair of flags, in a new builder. -/
theorem append_exact_tuple : ∃ t b b', solToArrowType
      (.tuple [.int 24, .array .string, .fixedArray .bool 2]) = .ok t ∧ ofType t = some b ∧
    append (.tuple [.int (-5) 24, .array [.string "a", .string "b"],
      .fixedArray [.bool true, .bool false]]) b = .ok b' ∧ b.Grows b' [true] ∧
    b.Extended b' [.struct [.leaf (.int (-5)), .list [.leaf (.utf8 "a"), .leaf (.utf8 "b")],
      .fixedSizeList [.leaf (.boolean true), .leaf (.boolean false)]]] := by
  have hs : (DynSolType.tuple [.int 24, .array .string, .fixedArray .bool 2]).Supported := by
    simp [DynSolType.Supported, DynSolType.AllSupported, asI32]
  have hshape : (tuple [.int (-5) 24, .array [.string "a", .string "b"],
      .fixedArray [.bool true, .bool false]]).Shaped
      (.tuple [.int 24, .array .string, .fixedArray .bool 2]) :=
    .tuple (.cons (.int ..) (.cons (.array (.cons (.string _) (.cons (.string _) (.nil _))))
      (.cons (.fixedArray (.cons (.bool _) (.cons (.bool _) (.nil _)))) .nil)))
  obtain ⟨t, b, ht, hb⟩ := solToArrowType_ok hs
  obtain ⟨htype, hconsistent, hpacked, -⟩ := ofType_new hb
  obtain ⟨-, hall⟩ := (append_exact_iff ht hshape
    (by simp [DynSolValue.Ranged, DynSolValue.AllRanged, Sign.InRange, Sign.min, Sign.max])).mpr
    ⟨hs, by simp [DynSolValue.Clean, DynSolValue.AllClean, Sign.Fits, Sign.min, Sign.max]⟩
  obtain ⟨b', happend, hgrows, hext⟩ := hall b htype hconsistent hpacked
  exact ⟨t, b, b', ht, hb, happend, hgrows, by simpa [cell, cells, slot] using hext⟩

/-- A `bytes4` cannot be appended to the builder of `bytes4`, and a type with a size of `2 ^ 31` has
no builder. -/
theorem append_bytes4 : ((fixedBytes 0 4).Shaped (.fixedBytes 4) ∧
      solToArrowType (.fixedBytes 4) = .ok (.leaf (.fixedSizeBinary 4)) ∧
      ∃ b, ofType (.leaf (.fixedSizeBinary 4)) = some b ∧
        append (.fixedBytes 0 4) b = .error .sliceLength) ∧
    solToArrowType (.fixedArray .bool (2 ^ 31)) = .ok (.fixedSizeList (.leaf .boolean) (-2 ^ 31)) ∧
      ofType (.fixedSizeList (.leaf .boolean) (-2 ^ 31)) = none := by
  refine ⟨⟨.fixedBytes 0 4, by rw [solToArrowType], _, by rw [ofType], by rw [append]; rfl⟩, ?_, ?_⟩
  · rw [solToArrowType, solToArrowType]
    rfl
  · rw [ofType, if_pos (by decide)]

end CampNode.Evm

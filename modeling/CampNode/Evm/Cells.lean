import CampNode.Evm.Arrow
import Mathlib.Data.List.GetD

/-!
# CampNode.Evm.Cells — what the arrays of decoded values hold

The array of a builder is read row by row: a `Cell` is one slot, with the slots of its children.
`Builder.Extended` says that a builder has new cells after the old ones, which are as they were.
A list begins where the list before it ends, so that its builder must be `Packed`: no items are
left over after the last list.
-/

namespace CampNode.Evm

open List

/-- A slot of an array without children. The constructor is the type of the array. -/
inductive Slot where
  | boolean (b : Bool)
  /-- `Int8` to `Int64`. -/
  | int (i : Int)
  /-- `UInt8` to `UInt64`. -/
  | uint (u : Int)
  | decimal128 (d scale : Int)
  | decimal256 (d scale : Int)
  | utf8 (s : String)
  | utf8View (s : String)
  | largeUtf8 (s : String)
  | binary (b : List (BitVec 8))
  | binaryView (b : List (BitVec 8))
  | largeBinary (b : List (BitVec 8))
  | fixedSizeBinary (size : Nat) (value : BitVec (8 * size))
  | other

inductive Cell where
  | leaf (slot : Slot)
  | list (items : List Cell)
  | fixedSizeList (items : List Cell)
  | struct (columns : List Cell)
  /-- A null, with what the buffers hold in its place. -/
  | null (cell : Cell)

def Cell.mark (valid : Bool) (cell : Cell) : Cell := if valid then cell else .null cell

namespace LeafType

def slot : LeafType → Scalar → Slot
  | .boolean, .bool b => .boolean b
  | .int8, .int i | .int16, .int i | .int32, .int i | .int64, .int i => .int i
  | .uint8, .int u | .uint16, .int u | .uint32, .int u | .uint64, .int u => .uint u
  | .decimal128, .int d => .decimal128 d 0
  | .decimal256, .int d => .decimal256 d 0
  | .binary, .bytes b => .binary b
  | .fixedSizeBinary _, .fixed size value => .fixedSizeBinary size value
  | .utf8, .string s => .utf8 s
  | _, _ => .other

/-- What a builder puts in the place of a null. -/
def blank : LeafType → Scalar
  | .boolean => .bool false
  | .binary => .bytes []
  | .fixedSizeBinary size => .fixed size 0
  | .utf8 => .string ""
  | _ => .int 0

def cell (t : LeafType) : Option Scalar → Cell
  | some v => .leaf (t.slot v)
  | none => .null (.leaf (t.slot t.blank))

end LeafType

/-! ## Values in cells -/

/-- The slot of an integer: text if it has more bits than a decimal has room for. -/
def Sign.slot (sign : Sign) (bits : Nat) (value : Int) : Slot :=
  if bits ≤ 64 then
    match sign with
    | .signed => .int value
    | .unsigned => .uint value
  else if bits ≤ dec128MaxBinaryPrec then .decimal128 value 0
  else if bits ≤ dec256MaxBinaryPrec then .decimal256 value 0
  else .utf8 (toString value)

mutual

/-- The cell that holds a value exactly. -/
def DynSolValue.cell : DynSolValue → Cell
  | .bool b => .leaf (.boolean b)
  | .int s bits => .leaf (Sign.signed.slot bits s)
  | .uint u bits => .leaf (Sign.unsigned.slot bits u)
  | .fixedBytes word _ => .leaf (.fixedSizeBinary 32 word)
  | .address a => .leaf (.fixedSizeBinary 20 a)
  | .function _ => .leaf .other
  | .bytes b => .leaf (.binary b)
  | .string s => .leaf (.utf8 s)
  | .array items => .list (DynSolValue.cells items)
  | .fixedArray items => .fixedSizeList (DynSolValue.cells items)
  | .tuple items => .struct (DynSolValue.cells items)

def DynSolValue.cells : List DynSolValue → List Cell
  | [] => []
  | v :: rest => v.cell :: DynSolValue.cells rest

end

theorem DynSolValue.cells_length (items : List DynSolValue) :
    (cells items).length = items.length := by
  induction items with
  | nil => rfl
  | cons v rest ih => rw [cells, length_cons, ih, length_cons]

/-! ## Cells of builders -/

namespace Builder

/-- Where the items of an entry of a list begin. -/
def startOf (entries : List (Nat × Bool)) (i : Nat) : Nat :=
  if i = 0 then 0 else (entries.getD (i - 1) (0, false)).1

mutual

/-- A slot of the array that `finish` returns. -/
def cellAt : Builder → Nat → Cell
  | .leaf t values, i => t.cell (values.getD i none)
  | .list items entries, i =>
      let entry := entries.getD i (0, false)
      .mark entry.2 (.list ((List.range' (startOf entries i) (entry.1 - startOf entries i)).map
        items.cellAt))
  | .fixedSizeList size items validity, i =>
      .mark (validity.getD i false)
        (.fixedSizeList ((List.range' (size.toNat * i) size.toNat).map items.cellAt))
  | .struct _ fields validity, i => .mark (validity.getD i false) (.struct (cellsAt fields i))

def cellsAt : List Builder → Nat → List Cell
  | [], _ => []
  | b :: rest, i => b.cellAt i :: cellsAt rest i

end

mutual

/-- Lists end within the items, and the last one at their end. -/
def Packed : Builder → Prop
  | .leaf _ _ => True
  | .list items entries => (∀ entry ∈ entries, entry.1 ≤ items.length) ∧
      startOf entries entries.length = items.length ∧ items.Packed
  | .fixedSizeList _ items _ => items.Packed
  | .struct _ fields _ => AllPacked fields

def AllPacked : List Builder → Prop
  | [] => True
  | b :: rest => b.Packed ∧ AllPacked rest

end

/-- `b'` is `b` with new cells at its end. -/
structure Extended (b b' : Builder) (new : List Cell) : Prop where
  packed : b'.Packed
  kept : ∀ i < b.length, b'.cellAt i = b.cellAt i
  added : (List.range' b.length new.length).map b'.cellAt = new

variable {b b' b'' child child' : Builder} {new : List Cell}

theorem Extended.refl (h : b.Packed) : b.Extended b [] := ⟨h, fun _ _ => rfl, rfl⟩

theorem Extended.trans {new' : List Cell} (h : b.Extended b' new) (h' : b'.Extended b'' new')
    (hlength : b'.length = b.length + new.length) : b.Extended b'' (new ++ new') := by
  refine ⟨h'.packed, fun i hi => ?_, ?_⟩
  · rw [h'.kept i (by omega), h.kept i hi]
  have hfirst : (range' b.length new.length).map b''.cellAt = new := by
    refine (map_congr_left fun i hi => h'.kept i ?_).trans h.added
    rw [mem_range'_1] at hi
    omega
  rw [length_append, ← range'_append_1, map_append, hfirst, ← hlength, h'.added]

theorem extended_leaf (t : LeafType) (values : List (Option Scalar)) (v : Scalar) :
    (leaf t values).Extended (leaf t (values ++ [some v])) [.leaf (t.slot v)] := by
  have hlength : (leaf t values).length = values.length := by simp [length, validity]
  refine ⟨by rw [Packed]; trivial, fun i hi => ?_, ?_⟩
  · rw [cellAt, cellAt, getD_append _ _ _ _ (hlength ▸ hi)]
  · simp [hlength, cellAt, LeafType.cell]

theorem startOf_append {entries : List (Nat × Bool)} {i : Nat} (hi : i ≤ entries.length)
    (entry : Nat × Bool) : startOf (entries ++ [entry]) i = startOf entries i := by
  by_cases h0 : i = 0
  · rw [startOf, startOf, if_pos h0, if_pos h0]
  · rw [startOf, startOf, if_neg h0, if_neg h0, getD_append _ _ _ _ (by omega)]

theorem extended_list {entries : List (Nat × Bool)} (h : child.Extended child' new)
    (hlength : child'.length = child.length + new.length) (hp : (list child entries).Packed) :
    (list child entries).Extended (list child' (entries ++ [(child'.length, true)]))
      [.list new] := by
  obtain ⟨hends, hlast, -⟩ := hp
  have hrows : (list child entries).length = entries.length := by simp [length, validity]
  refine ⟨?_, fun i hi => ?_, ?_⟩
  · refine ⟨?_, by simp [startOf], h.packed⟩
    intro entry hentry
    rcases mem_append.mp hentry with hentry | hentry
    · exact (hends entry hentry).trans (hlength ▸ Nat.le_add_right ..)
    · rw [mem_singleton.mp hentry]
  · rw [hrows] at hi
    have hstop : (entries.getD i (0, false)).1 ≤ child.length := by
      rw [getD_eq_getElem _ _ hi]
      exact hends _ (getElem_mem hi)
    rw [cellAt, cellAt, getD_append _ _ _ _ hi, startOf_append hi.le]
    congr 2
    refine map_congr_left fun j hj => h.kept j ?_
    rw [mem_range'_1] at hj
    omega
  · have hcell := h.added
    simp only [hrows, length_singleton, range'_one, map_singleton, cellAt]
    rw [startOf_append le_rfl, hlast]
    simp [hlength, hcell, Cell.mark]

theorem extended_fixedSizeList {size : Nat} {validity : List Bool} (h : child.Extended child' new)
    (hnew : new.length = size) (hlength : child.length = size * validity.length) :
    (fixedSizeList size child validity).Extended
      (fixedSizeList size child' (validity ++ [true])) [.fixedSizeList new] := by
  have hrows : (fixedSizeList size child validity).length = validity.length := rfl
  refine ⟨by rw [Packed]; exact h.packed, fun i hi => ?_, ?_⟩
  · rw [hrows] at hi
    rw [cellAt, cellAt, getD_append _ _ _ _ hi, Int.toNat_natCast]
    congr 2
    refine map_congr_left fun j hj => h.kept j ?_
    have hle : size * (i + 1) ≤ size * validity.length := Nat.mul_le_mul_left size hi
    rw [Nat.mul_add, Nat.mul_one] at hle
    rw [mem_range'_1] at hj
    omega
  · have hcell := h.added
    rw [hnew, hlength] at hcell
    simp [hrows, cellAt, hcell, Cell.mark]

theorem extended_struct {names : List String} {fields fields' : List Builder}
    {validity : List Bool} (hp : AllPacked fields')
    (hkept : ∀ i < validity.length, cellsAt fields' i = cellsAt fields i)
    (hadded : cellsAt fields' validity.length = new) :
    (struct names fields validity).Extended (struct names fields' (validity ++ [true]))
      [.struct new] := by
  refine ⟨by rw [Packed]; exact hp, fun i (hi : i < validity.length) => ?_, ?_⟩
  · rw [cellAt, cellAt, getD_append _ _ _ _ hi, hkept i hi]
  · have hrows : (struct names fields validity).length = validity.length := rfl
    simp [hrows, cellAt, hadded, Cell.mark]

end Builder

end CampNode.Evm

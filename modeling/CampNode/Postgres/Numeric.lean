import CampNode.Core.Radix

/-!
# CampNode.Postgres.Numeric — the binary format of NUMERIC

A NUMERIC is sent as a length, a header of four 16-bit fields (the count of the
digits, the weight of the first digit, the sign and the display scale) and its
digits in base 10000, the most significant first.

The writing side is the code of the encoders. The reading side is what PostgreSQL
makes of the bytes: the sign times the sum of the digits with their weights, shown
with `dscale` fractional digits.
-/

namespace CampNode

open List

/-! ## Writing -/

def numericBase : Nat := 10000
def numericPos : Int := 0x0000
def numericNeg : Int := 0x4000
def numericHeaderSize : Nat := 8

def digitBytes (digits : List Nat) : List UInt8 :=
  digits.flatMap fun d : Nat => putBE 2 (d : Int)

/-- The bytes of a NUMERIC, with the most significant digit first. -/
def numericBytes (weight sign dscale : Int) (digits : List Nat) : List UInt8 :=
  putBE 4 (numericHeaderSize + digits.length * 2 : Nat) ++ (putBE 2 digits.length ++
    (putBE 2 weight ++ (putBE 2 sign ++ (putBE 2 dscale ++ digitBytes digits))))

/-- The part of the encoders for numbers other than zero: the digits go into an array
of fixed size, and the first one gets the weight of its position. -/
def encodeDigits (maxDigits : Nat) (sign dscale : Int) (remaining : Nat) : Option (List UInt8) :=
  match digitsWithin numericBase maxDigits remaining with
  | none => none
  | some digits => some (numericBytes (digits.length - 1) sign dscale digits.reverse)

/-! ## Reading -/

structure Numeric where
  weight : Int
  negative : Bool
  dscale : Nat
  digits : List Int
deriving DecidableEq, Repr

def Numeric.value (n : Numeric) : ℚ :=
  (if n.negative then -1 else 1) * positional numericBase n.weight n.digits

def readDigits : Nat → List UInt8 → Option (List Int × List UInt8)
  | 0, bytes => some ([], bytes)
  | n + 1, bytes => do
      let (d, bytes) ← getBE 2 bytes
      let (digits, bytes) ← readDigits n bytes
      some (signed 2 d :: digits, bytes)

/-- The sign field, if it is one of a number. -/
def readSign (sign : Nat) : Option Bool :=
  if (sign : Int) = numericPos then some false
  else if (sign : Int) = numericNeg then some true
  else none

/-- Read a field with its length. All of it has to be used up, and every digit has to
be below the base. -/
def readNumeric (bytes : List UInt8) : Option Numeric := do
  let (length, bytes) ← getBE 4 bytes
  guard (length = bytes.length)
  let (ndigits, bytes) ← getBE 2 bytes
  let (weight, bytes) ← getBE 2 bytes
  let (sign, bytes) ← getBE 2 bytes
  let (dscale, bytes) ← getBE 2 bytes
  let (digits, bytes) ← readDigits ndigits bytes
  guard (bytes = [])
  guard (∀ d ∈ digits, 0 ≤ d ∧ d < numericBase)
  let negative ← readSign sign
  some ⟨signed 2 weight, negative, dscale, digits⟩

/-! ## What is written is read back -/

theorem readDigits_put {digits : List Nat} (h : ∀ d ∈ digits, d < numericBase) (rest : List UInt8) :
    readDigits digits.length (digitBytes digits ++ rest) = some (digits.map Int.ofNat, rest) := by
  induction digits with
  | nil => rfl
  | cons d digits ih =>
    have hd : d < 10000 := h d mem_cons_self
    have hsigned : signed 2 ((d : Int) % 256 ^ 2).toNat = d := signed_emod (by omega) (by omega)
    have hrest := ih fun x hx => h x (mem_cons_of_mem _ hx)
    have hbytes : digitBytes (d :: digits) = putBE 2 (d : Int) ++ digitBytes digits := rfl
    simp only [hbytes, append_assoc, length_cons, readDigits, getBE_putBE,
      Option.bind_eq_bind, Option.bind_some, hrest, hsigned]
    rfl

/-- The fields of a number as they are written. -/
structure NumericFits (weight dscale : Int) (digits : List Nat) : Prop where
  below : ∀ d ∈ digits, d < numericBase
  count : digits.length < 2 ^ 15
  weight_range : -2 ^ 15 ≤ weight ∧ weight < 2 ^ 15
  dscale_range : 0 ≤ dscale ∧ dscale < 2 ^ 15

theorem length_digitBytes (digits : List Nat) : (digitBytes digits).length = digits.length * 2 := by
  simp [digitBytes, length_flatMap]

theorem readNumeric_numericBytes {weight dscale : Int} {digits : List Nat}
    (h : NumericFits weight dscale digits) (negative : Bool) :
    readNumeric (numericBytes weight (if negative then numericNeg else numericPos) dscale digits) =
      some ⟨weight, negative, dscale.toNat, digits.map Int.ofNat⟩ := by
  have hlen := h.count
  have hweight := h.weight_range
  have hdscale := h.dscale_range
  have hsize : ((numericHeaderSize + digits.length * 2 : Nat) % 256 ^ 4 : Int).toNat =
      numericHeaderSize + digits.length * 2 := by
    unfold numericHeaderSize
    omega
  have hcount : ((digits.length : Int) % 256 ^ 2).toNat = digits.length := by omega
  have hsigned : signed 2 (weight % 256 ^ 2).toNat = weight := signed_emod (by omega) (by omega)
  have hscale : (dscale % 256 ^ 2).toNat = dscale.toNat := by omega
  have hsign : readSign ((if negative then numericNeg else numericPos) % 256 ^ 2).toNat =
      some negative := by
    cases negative with
    | false => rfl
    | true => rfl
  have hdigits : ∀ d ∈ digits.map Int.ofNat, 0 ≤ d ∧ d < (numericBase : Int) := by
    intro d hd
    rcases mem_map.mp hd with ⟨n, hn, rfl⟩
    exact ⟨Int.natCast_nonneg n, Int.ofNat_lt.mpr (h.below n hn)⟩
  have hread := readDigits_put h.below []
  rw [append_nil] at hread
  have hlength : (putBE 2 (digits.length : Int) ++ (putBE 2 weight ++
      (putBE 2 (if negative then numericNeg else numericPos) ++ (putBE 2 dscale ++
        digitBytes digits)))).length =
      numericHeaderSize + digits.length * 2 := by
    simp only [length_append, length_putBE, length_digitBytes]
    unfold numericHeaderSize
    omega
  unfold readNumeric numericBytes
  simp only [getBE_putBE, Option.bind_eq_bind, Option.bind_some, hsize, hlength, hcount, hread,
    hsign, hsigned, hscale, guard, if_true, if_pos hdigits]
  rfl

/-- A number whose digits fit in the array is read back as it is. -/
theorem read_encodeDigits {maxDigits n scale : Nat} (hmax : maxDigits < 2 ^ 15)
    (hn : n < numericBase ^ maxDigits) (hscale : scale < 2 ^ 15) (negative : Bool) :
    ∃ bytes m, encodeDigits maxDigits (if negative then numericNeg else numericPos) scale n =
        some bytes ∧ readNumeric bytes = some m ∧
      m.value = (if negative then -1 else 1) * (n : ℚ) ∧ m.dscale = scale ∧
      m.digits = (Nat.digits numericBase n).reverse.map Int.ofNat := by
  have hlength : (Nat.digits numericBase n).length ≤ maxDigits :=
    (Nat.digits_length_le_iff (by decide) n).mpr hn
  have hdigits : digitsWithin numericBase maxDigits n = some (Nat.digits numericBase n) := by
    rw [digitsWithin_eq (by decide)]
    exact if_pos hlength
  have hfits : NumericFits ((Nat.digits numericBase n).length - 1) scale
      (Nat.digits numericBase n).reverse := by
    constructor
    · intro d hd
      exact Nat.digits_lt_base (by decide) (mem_reverse.mp hd)
    · rw [length_reverse]
      omega
    · omega
    · omega
  refine ⟨_, _, ?_, readNumeric_numericBytes hfits negative, ?_, Int.toNat_natCast scale, rfl⟩
  · unfold encodeDigits
    rw [hdigits]
  · unfold Numeric.value
    rw [positional_reverse (by decide), Nat.ofDigits_digits]

/-! ## Unsigned integers -/

def maxU64Base10000Digits : Nat := 5

/-- `UInt64Encoder::encode`. A null is sent as the length -1, and the outer `none` is a write
past the array of digits. -/
def UInt64Encoder.encode (value : Option UInt64) : Option (List UInt8) :=
  match value with
  | none => some (putBE 4 (-1))
  | some value =>
      if value = 0 then some (numericBytes 0 numericPos 0 [])
      else encodeDigits maxU64Base10000Digits numericPos 0 value.toNat

/-- PostgreSQL reads every number as it is, from digits without leading zeros. -/
theorem UInt64Encoder.reads_value (v : UInt64) :
    ∃ bytes m, encode (some v) = some bytes ∧ readNumeric bytes = some m ∧ m.value = v.toNat ∧
      m.dscale = 0 ∧ (∀ d ∈ m.digits, 0 ≤ d ∧ d ≤ 9999) ∧
      (0 < v → ∃ d ∈ m.digits.head?, d ≠ 0) := by
  by_cases hzero : v = 0
  · subst hzero
    have hfits : NumericFits 0 0 [] := ⟨by simp, by decide, by decide, by decide⟩
    refine ⟨_, _, rfl, readNumeric_numericBytes hfits false, ?_, rfl, by simp, by decide⟩
    simp [Numeric.value, positional]
  have hpos : 0 < v.toNat := Nat.pos_of_ne_zero fun h => hzero (UInt64.toNat_inj.mp h)
  have hlt : v.toNat < numericBase ^ maxU64Base10000Digits := lt_trans v.toNat_lt (by decide)
  rcases @read_encodeDigits maxU64Base10000Digits _ 0 (by decide) hlt (by decide) false with
    ⟨bytes, m, hbytes, hread, hvalue, hdscale, hdigits⟩
  refine ⟨bytes, m, (if_neg hzero).trans hbytes, hread, by simpa using hvalue, hdscale, ?_, ?_⟩
  · rw [hdigits]
    intro d hd
    rcases mem_map.mp hd with ⟨n, hn, rfl⟩
    have hbase : n < numericBase := Nat.digits_lt_base (by decide) (mem_reverse.mp hn)
    exact ⟨Int.natCast_nonneg n, Int.ofNat_le.mpr (Nat.le_of_lt_succ hbase)⟩
  · -- the last digit that was extracted is not zero
    intro _
    have hne : Nat.digits numericBase v.toNat ≠ [] := Nat.digits_ne_nil_iff_ne_zero.mpr (by omega)
    rw [hdigits, head?_map, head?_reverse, getLast?_eq_getLast_of_ne_nil hne]
    have hlast := Nat.getLast_digit_ne_zero numericBase (m := v.toNat) (by omega)
    exact ⟨_, rfl, Int.ofNat_ne_zero.mpr hlast⟩

end CampNode

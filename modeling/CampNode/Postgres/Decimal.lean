import CampNode.Postgres.Numeric
import Mathlib.Algebra.Order.Ring.Rat
import Mathlib.Tactic.Linarith

/-!
# CampNode.Postgres.Decimal — decimals as NUMERIC

A `Decimal128` of scale `s` holds the integer `v` for the number `v / 10 ^ s`. The
encoder writes the digits of `v` itself, with the weights of an integer, and the
scale as the display scale only: PostgreSQL reads `v`, shown with `s` zeros after
the point.

Values are those of `i128`, whose absolute value wraps around at the least one.
-/

namespace CampNode

inductive PostgresType where
  | numeric (precision : Option Nat) (scale : Option Int)
deriving DecidableEq, Repr

structure Column where
  dataType : PostgresType
  nullable : Bool
deriving DecidableEq, Repr

def maxI128Base10000Digits : Nat := 10

/-- `i128::abs` in a release build. -/
def absI128 (value : Int) : Int := Int.bmod value.natAbs (2 ^ 128)

namespace Decimal128Encoder

/-- A null is sent as the length -1. The outer `none` is a write past the array of
digits. -/
def encode (value : Option Int) (scale : Int) : Option (List UInt8) :=
  match value with
  | none => some (putBE 4 (-1))
  | some value =>
      if value = 0 then some (numericBytes 0 numericPos scale [])
      else if value < 0 then
        encodeDigits maxI128Base10000Digits numericNeg scale (absI128 value).toNat
      else encodeDigits maxI128Base10000Digits numericPos scale value.toNat

/-- The column of a field of type `Decimal128(precision, scale)`. -/
def schema (precision : Nat) (scale : Int) (nullable : Bool) : Column :=
  ⟨.numeric (some precision) (some scale), nullable⟩

/-! ## What PostgreSQL reads -/

variable {value : Int} {scale : Nat}

theorem absI128_eq (h : |value| < 10 ^ 38) : absI128 value = |value| := by
  have hnat : (value.natAbs : Int) = |value| := Int.natCast_natAbs value
  unfold absI128
  rw [hnat]
  apply Int.bmod_eq_of_le
  · omega
  · omega

/-- The digits of the value are read as those of an integer, whatever the scale. -/
theorem read_encode (hvalue : |value| < 10 ^ 38) (hscale : scale ≤ 38) :
    ∃ bytes m, encode (some value) scale = some bytes ∧ readNumeric bytes = some m ∧
      m.value = value ∧ m.dscale = scale := by
  by_cases hzero : value = 0
  · -- zero has no digits
    subst hzero
    have hfits : NumericFits 0 scale [] := by
      constructor
      · simp
      · simp
      · omega
      · omega
    refine ⟨_, _, rfl, readNumeric_numericBytes hfits false, ?_, Int.toNat_natCast scale⟩
    simp [Numeric.value, positional]
  have hnat : (value.natAbs : Int) = |value| := Int.natCast_natAbs value
  have hten : maxI128Base10000Digits < 2 ^ 15 := by decide
  have hlt : value.natAbs < numericBase ^ maxI128Base10000Digits :=
    lt_trans (b := 10 ^ 38) (by omega) (by decide)
  have hdisplay : scale < 2 ^ 15 := by omega
  by_cases hneg : value < 0
  · rcases read_encodeDigits hten hlt hdisplay true with
      ⟨bytes, m, hbytes, hread, hm, hdscale, -⟩
    refine ⟨bytes, m, ?_, hread, ?_, hdscale⟩
    · have habs : (absI128 value).toNat = value.natAbs := by
        rw [absI128_eq hvalue]
        omega
      simp only [encode]
      rw [if_neg hzero, if_pos hneg, habs]
      exact hbytes
    · rw [hm, Nat.cast_natAbs, abs_of_neg hneg]
      simp
  · rcases read_encodeDigits hten hlt hdisplay false with
      ⟨bytes, m, hbytes, hread, hm, hdscale, -⟩
    refine ⟨bytes, m, ?_, hread, ?_, hdscale⟩
    · have hsame : value.toNat = value.natAbs := by omega
      simp only [encode]
      rw [if_neg hzero, if_neg hneg, hsame]
      exact hbytes
    · rw [hm, Nat.cast_natAbs, abs_of_nonneg (by omega)]
      simp

/-- The display scale of a value is the scale of its column. -/
theorem schema_scale {precision scale : Nat} {nullable : Bool} {bytes : List UInt8} {m : Numeric}
    (hvalue : |value| < 10 ^ 38) (hscale : scale ≤ 38)
    (hbytes : encode (some value) scale = some bytes) (hread : readNumeric bytes = some m) :
    (schema precision scale nullable).dataType = .numeric (some precision) (some m.dscale) := by
  rcases read_encode hvalue hscale with ⟨bytes', m', hbytes', hread', -, hdscale⟩
  rw [hbytes] at hbytes'
  cases hbytes'
  rw [hread] at hread'
  cases hread'
  rw [hdscale]
  rfl

/-- PostgreSQL reads `value / 10 ^ scale` with `scale` fractional digits. -/
def ReadsExactly (value : Int) (scale : Nat) : Prop :=
  ∃ bytes m, encode (some value) scale = some bytes ∧ readNumeric bytes = some m ∧
    m.value = value / 10 ^ scale ∧ m.dscale = scale

theorem readsExactly_iff_eq_div (hvalue : |value| < 10 ^ 38) (hscale : scale ≤ 38) :
    ReadsExactly value scale ↔ (value : ℚ) = value / 10 ^ scale := by
  rcases read_encode hvalue hscale with ⟨bytes, m, hbytes, hread, hm, hdscale⟩
  constructor
  · rintro ⟨bytes', m', hbytes', hread', hm', -⟩
    rw [hbytes] at hbytes'
    cases hbytes'
    rw [hread] at hread'
    cases hread'
    exact hm.symm.trans hm'
  · intro h
    exact ⟨bytes, m, hbytes, hread, hm.trans h, hdscale⟩

/-- A decimal arrives as it is exactly if it has no fractional digits or is zero. -/
theorem reads_exactly_iff {value : Int} {scale : Nat} (hvalue : |value| < 10 ^ 38)
    (hscale : scale ≤ 38) : ReadsExactly value scale ↔ scale = 0 ∨ value = 0 := by
  rw [readsExactly_iff_eq_div hvalue hscale]
  constructor
  · intro h
    by_contra hnot
    rw [not_or] at hnot
    have hpow : (10 : ℚ) ^ scale ≠ 0 := by positivity
    have hmul : (value : ℚ) * 10 ^ scale = value * 1 := by
      rw [mul_one]
      exact (eq_div_iff hpow).mp h
    have hone : (10 : ℚ) ^ scale = 1 := mul_left_cancel₀ (Int.cast_ne_zero.mpr hnot.2) hmul
    exact absurd hone (one_lt_pow₀ (by norm_num) hnot.1).ne'
  · rintro (rfl | rfl)
    · simp
    · simp

theorem reads_exactly_integer : ReadsExactly (-12345678) 0 :=
  (reads_exactly_iff (by decide) (by decide)).mpr (.inl rfl)

/-- `123.45` is read as `12345.00`. -/
theorem decimal_read_without_scale :
    (∃ bytes m, encode (some 12345) 2 = some bytes ∧ readNumeric bytes = some m ∧
      m.value = 12345 ∧ m.dscale = 2) ∧ ¬ ReadsExactly 12345 2 := by
  constructor
  · exact read_encode (by decide) (by decide)
  · rw [readsExactly_iff_eq_div (by decide) (by decide)]
    norm_num

end Decimal128Encoder

end CampNode

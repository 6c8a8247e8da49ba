import Mathlib.Data.List.Lex
import Mathlib.Data.Nat.Digits.Lemmas
import Mathlib.Data.Rat.Cast.Defs
import Mathlib.Tactic.Ring
import Mathlib.Tactic.LinearCombination

/-!
# CampNode.Core.Radix — numbers as digits

Numbers are written as bytes, the most significant first, and as digits in any base
with the weight of the first digit. `putBE` and `getBE` are inverse on the numbers
that fit, and the order of the bytes is that of the numbers; the digits of a number have its
value at the weight of their count.
-/

namespace CampNode

open List

/-! ## Bytes -/

/-- The last `width` bytes of a number in two's complement, the most significant
first. -/
def putBE : Nat → Int → List UInt8
  | 0, _ => []
  | width + 1, x => putBE width (x / 256) ++ [UInt8.ofNat (x % 256).toNat]

variable (b : UInt8) (width n : Nat) (x : Int) (bytes : List UInt8)

/-- The number that the bytes stand for. -/
def ofBE : Nat := bytes.foldl (fun n b => n * 256 + b.toNat) 0

/-- Read the next `width` bytes. -/
def getBE : Option (Nat × List UInt8) :=
  if width ≤ bytes.length then some (ofBE (bytes.take width), bytes.drop width) else none

/-- A number of `width` bytes read in two's complement. -/
def signed : Int := Int.bmod n (256 ^ width)

@[simp]
theorem length_putBE : (putBE width x).length = width := by
  induction width generalizing x with
  | zero => rfl
  | succ width ih => simp [putBE, ih]

theorem ofBE_append (b : UInt8) : ofBE (bytes ++ [b]) = ofBE bytes * 256 + b.toNat := by
  simp [ofBE]

/-- The bytes before the last one are those of the quotient. -/
theorem emod_mul_byte {p : Int} (hp : 0 < p) : x % (p * 256) = x / 256 % p * 256 + x % 256 := by
  have hx := Int.mul_ediv_add_emod x 256
  have hq := Int.mul_ediv_add_emod (x / 256) p
  have hnonneg := Int.emod_nonneg (x / 256) hp.ne'
  have hlt := Int.emod_lt_of_pos (x / 256) hp
  have hsum : x = (x / 256 % p * 256 + x % 256) + p * 256 * (x / 256 / p) := by
    linear_combination -hx - 256 * hq
  calc x % (p * 256)
      = ((x / 256 % p * 256 + x % 256) + p * 256 * (x / 256 / p)) % (p * 256) := by rw [← hsum]
    _ = x / 256 % p * 256 + x % 256 := by
      rw [Int.add_mul_emod_self_left]
      exact Int.emod_eq_of_lt (by omega) (by omega)

theorem ofBE_putBE : (ofBE (putBE width x) : Int) = x % 256 ^ width := by
  induction width generalizing x with
  | zero => simp [putBE, ofBE]
  | succ width ih =>
    have hlt : (x % 256).toNat < 256 := by omega
    have hbyte := UInt8.toNat_ofNat_of_lt' hlt
    have hlow : ((x % 256).toNat : Int) = x % 256 :=
      Int.toNat_of_nonneg (Int.emod_nonneg _ (by decide))
    unfold putBE
    rw [ofBE_append, hbyte]
    push_cast
    rw [ih, hlow, pow_succ, emod_mul_byte x (by positivity)]

theorem getBE_putBE (rest : List UInt8) :
    getBE width (putBE width x ++ rest) = some ((x % 256 ^ width).toNat, rest) := by
  unfold getBE
  rw [if_pos (by simp)]
  have htake : (putBE width x ++ rest).take width = putBE width x := by simp
  have hdrop : (putBE width x ++ rest).drop width = rest := by simp
  rw [htake, hdrop, ← ofBE_putBE, Int.toNat_natCast]

/-- A number that fits is read back. -/
theorem signed_emod {width : Nat} {x : Int} (hlo : -(256 ^ width : Int) ≤ 2 * x)
    (hhi : 2 * x < 256 ^ width) : signed width (x % 256 ^ width).toNat = x := by
  have hpos : (0 : Int) < 256 ^ width := by positivity
  have hcast : (256 ^ width : Int) = (256 ^ width : Nat) := by push_cast; rfl
  unfold signed
  rw [Int.toNat_of_nonneg (Int.emod_nonneg _ hpos.ne'), hcast, Int.emod_bmod]
  apply Int.bmod_eq_of_le
  · omega
  · omega

/-! ## The order of bytes -/

instance byteLinearOrder : LinearOrder UInt8 where
  le_refl := UInt8.le_refl
  le_trans _ _ _ := UInt8.le_trans
  le_antisymm _ _ := UInt8.le_antisymm
  le_total := UInt8.le_total
  toDecidableLE := inferInstance
  lt_iff_le_not_ge a b := by
    rw [UInt8.not_le]
    exact ⟨fun h => ⟨UInt8.le_of_lt h, h⟩, fun h => h.2⟩

theorem ofBE_cons : ofBE (b :: bytes) = b.toNat * 256 ^ bytes.length + ofBE bytes := by
  induction bytes using reverseRecOn with
  | nil => simp [ofBE]
  | append_singleton bytes last ih =>
    rw [← cons_append, ofBE_append, ofBE_append, ih, length_append, length_singleton]
    ring

theorem ofBE_lt : ofBE bytes < 256 ^ bytes.length := by
  induction bytes with
  | nil => decide
  | cons b bytes ih =>
    have hb := b.toNat_lt
    rw [ofBE_cons, length_cons, pow_succ]
    calc b.toNat * 256 ^ bytes.length + ofBE bytes
        < b.toNat * 256 ^ bytes.length + 256 ^ bytes.length := Nat.add_lt_add_left ih _
      _ = (b.toNat + 1) * 256 ^ bytes.length := by ring
      _ ≤ 256 * 256 ^ bytes.length := Nat.mul_le_mul_right _ hb
      _ = 256 ^ bytes.length * 256 := by ring

/-- On bytes of one length the lexicographic order is the order of the numbers. -/
theorem ofBE_lt_ofBE {a b : List UInt8} (hlength : a.length = b.length) (h : a < b) :
    ofBE a < ofBE b := by
  induction a generalizing b with
  | nil =>
    rw [eq_nil_of_length_eq_zero hlength.symm] at h
    exact absurd h (not_lt_nil _)
  | cons x a ih =>
    cases b with
    | nil => cases hlength
    | cons y b =>
      have htail : a.length = b.length := Nat.succ.inj hlength
      rw [ofBE_cons, ofBE_cons, htail]
      rcases cons_lt_cons_iff.mp h with hxy | ⟨rfl, hab⟩
      · -- the first byte outweighs all others
        have ha := ofBE_lt a
        rw [htail] at ha
        calc x.toNat * 256 ^ b.length + ofBE a
            < x.toNat * 256 ^ b.length + 256 ^ b.length := Nat.add_lt_add_left ha _
          _ = (x.toNat + 1) * 256 ^ b.length := by ring
          _ ≤ y.toNat * 256 ^ b.length := Nat.mul_le_mul_right _ hxy
          _ ≤ y.toNat * 256 ^ b.length + ofBE b := Nat.le_add_right _ _
      · exact Nat.add_lt_add_left (ih htail hab) _

/-- The bytes of two numbers that fit compare like the numbers. -/
theorem putBE_lt_putBE {width n m : Nat} (hm : m < 256 ^ width) (h : n < m) :
    putBE width n < putBE width m := by
  have hread : ∀ k : Nat, k < 256 ^ width → ofBE (putBE width k) = k := by
    intro k hk
    have hput := ofBE_putBE width k
    have hmod : (k : Int) % 256 ^ width = k := Int.emod_eq_of_lt (by omega) (by exact_mod_cast hk)
    omega
  have hlength : ∀ k l : Nat, (putBE width k).length = (putBE width l).length := by
    intro k l
    rw [length_putBE, length_putBE]
  rcases lt_trichotomy (putBE width n) (putBE width m) with hlt | heq | hgt
  · exact hlt
  · have hn := hread n (h.trans hm)
    rw [heq, hread m hm] at hn
    omega
  · have hlt := ofBE_lt_ofBE (hlength m n) hgt
    rw [hread n (h.trans hm), hread m hm] at hlt
    omega

/-! ## Digits -/

/-- The loop that writes the digits of a number into an array of fixed size, the
least significant first. `none` is a write past the array. -/
def digitsWithin (base : Nat) : Nat → Nat → Option (List Nat)
  | _, 0 => some []
  | 0, _ + 1 => none
  | capacity + 1, n + 1 =>
      (digitsWithin base capacity ((n + 1) / base)).map fun digits => (n + 1) % base :: digits

theorem digitsWithin_eq {base : Nat} (hbase : 1 < base) (capacity n : Nat) :
    digitsWithin base capacity n =
      if (Nat.digits base n).length ≤ capacity then some (Nat.digits base n) else none := by
  induction capacity generalizing n with
  | zero =>
    cases n with
    | zero => simp [digitsWithin]
    | succ n => simp [digitsWithin, Nat.digits_def' hbase (Nat.succ_pos n)]
  | succ capacity ih =>
    cases n with
    | zero => simp [digitsWithin]
    | succ n =>
      have hdigits : Nat.digits base (n + 1) = (n + 1) % base :: Nat.digits base ((n + 1) / base) :=
        Nat.digits_def' hbase (Nat.succ_pos n)
      rw [digitsWithin, ih, hdigits, length_cons]
      by_cases hlen : (Nat.digits base ((n + 1) / base)).length ≤ capacity
      · rw [if_pos hlen, if_pos (by omega)]
        rfl
      · rw [if_neg hlen, if_neg (by omega)]
        rfl

/-- The value of digits, the most significant first, if the first has the weight. -/
def positional (base : ℚ) : Int → List Int → ℚ
  | _, [] => 0
  | weight, d :: digits => d * base ^ weight + positional base (weight - 1) digits

theorem positional_append (base : ℚ) (weight : Int) (l l' : List Int) :
    positional base weight (l ++ l') =
      positional base weight l + positional base (weight - l.length) l' := by
  induction l generalizing weight with
  | nil => simp [positional]
  | cons d l ih =>
    have hweight : weight - 1 - (l.length : Int) = weight - (l.length + 1 : Nat) := by
      push_cast
      ring
    simp only [cons_append, positional, length_cons, ih, hweight]
    ring

theorem positional_succ {base : ℚ} (hbase : base ≠ 0) (weight : Int) (l : List Int) :
    positional base (weight + 1) l = base * positional base weight l := by
  induction l generalizing weight with
  | nil => simp [positional]
  | cons d l ih =>
    have hweight : weight + 1 - 1 = weight - 1 + 1 := by ring
    simp only [positional, hweight, ih, zpow_add_one₀ hbase]
    ring

/-- The digits of a number, the last with weight 0. -/
theorem positional_reverse {base : Nat} (hbase : 0 < base) (l : List Nat) :
    positional base (l.length - 1 : Int) (l.reverse.map Int.ofNat) = Nat.ofDigits base l := by
  have hne : (base : ℚ) ≠ 0 := by positivity
  induction l with
  | nil => simp [positional]
  | cons d l ih =>
    have hweight : ((d :: l).length - 1 : Int) = l.length - 1 + 1 := by
      simp
    rw [reverse_cons, map_append, positional_append, hweight, positional_succ hne, ih]
    simp [positional, Nat.ofDigits_cons]
    ring

end CampNode

import Mathlib.Algebra.Group.Nat.Defs
import Mathlib.Tactic.Common

/-!
# CampNode.Dump.EndBlock — the end block of a dump

The end block is configured as a block number, as the latest block of the provider
or as an offset before it, and is resolved when the dump starts. `LatestMinus` goes
through `resolve_relative`, whose end is a signed number: not negative for a block
number, negative for an offset.

Block numbers are `u64`, the signed end is `i64`, and the casts between them and the
sum keep the bits. A release build does not check for overflow.
-/

namespace CampNode

inductive EndBlock where
  /-- Continuous dumping. -/
  | none
  | latest
  | absolute (n : UInt64)
  | latestMinus (offset : UInt64)
deriving DecidableEq, Repr

inductive ResolvedEndBlock where
  | continuous
  | block (n : UInt64)
  | noDataAvailable
deriving DecidableEq, Repr

inductive ResolutionError where
  | invalidEndBlock (startBlock endBlock : UInt64)
  | fetchLatestFailed (message : String)
deriving DecidableEq, Repr

/-- A negative end is relative to the latest block, no end is the latest block. -/
def resolveRelative (start : UInt64) (stop : Option Int64) (latestBlock : UInt64) :
    Except ResolutionError UInt64 :=
  let stop := match stop with
    | .none => latestBlock
    | some n => if 0 ≤ n then n.toUInt64 else (latestBlock.toInt64 + n).toUInt64
  if stop < start then .error (.invalidEndBlock start stop) else .ok stop

namespace EndBlock

variable (e : EndBlock) (start : UInt64) (getLatest : Except String (Option UInt64))
  (offset latestBlock : UInt64)

/-- `getLatest` is what the provider answers when it is asked for its latest block. -/
def resolve : Except ResolutionError ResolvedEndBlock :=
  match e with
  | none => .ok .continuous
  | latest =>
      match getLatest with
      | .error message => .error (.fetchLatestFailed message)
      | .ok (some block) => .ok (.block block)
      | .ok .none => .ok .noDataAvailable
  | absolute n => if n < start then .error (.invalidEndBlock start n) else .ok (.block n)
  | latestMinus offset =>
      match getLatest with
      | .error message => .error (.fetchLatestFailed message)
      | .ok (some latestBlock) =>
          match resolveRelative start (some (-offset.toInt64)) latestBlock with
          | .error e => .error e
          | .ok resolved => .ok (.block resolved)
      | .ok .none => .ok .noDataAvailable

/-! ## The end block over the integers -/

/-- The configured end block, if there is one and the provider knows its latest
block. -/
def exact : Option Int :=
  match e, getLatest with
  | absolute n, _ => some n.toNat
  | latest, .ok (some block) => some block.toNat
  | latestMinus offset, .ok (some block) => some (block.toNat - offset.toNat)
  | _, _ => .none

/-- A block is resolved only if it is the configured one and not before the start;
every other bounded setting gives an error or no data. -/
structure ResolvesExactly : Prop where
  block : ∀ b, e.resolve start getLatest = .ok (.block b) →
    e.exact getLatest = some (b.toNat : Int) ∧ start ≤ b
  other : e ≠ none → (∀ n ∈ e.exact getLatest, n < start.toNat) →
    e.resolve start getLatest = .ok .noDataAvailable ∨ ∃ err, e.resolve start getLatest = .error err

/-- What has to be known of the latest block. `latest` takes it as it is. An offset
from 1 to `2 ^ 63` must not be greater than the latest block, unless the difference
wraps around to a number below the start. The offset 0 and the offsets above
`2 ^ 63` are not negative as a signed end, and become block numbers. -/
def InRange : Prop :=
  match e, getLatest with
  | latest, .ok (some block) => start ≤ block
  | latestMinus offset, .ok (some block) =>
      if offset = 0 then 0 < start ∨ block = 0
      else if offset.toNat ≤ 2 ^ 63 then
        offset ≤ block ∨ 2 ^ 64 + block.toNat - offset.toNat < start.toNat
      else 2 ^ 64 - offset.toNat < start.toNat
  | _, _ => True

/-! ## Offsets -/

theorem eq_zero_iff (n : UInt64) : n = 0 ↔ n.toNat = 0 := by
  rw [← UInt64.toNat_inj]
  rfl

/-- The sign of the negated offset. -/
theorem neg_offset_nonneg : 0 ≤ -offset.toInt64 ↔ offset = 0 ∨ 2 ^ 63 < offset.toNat := by
  have hlt := offset.toNat_lt
  have hsigned : offset.toInt64.toInt =
      if 2 * offset.toNat < 2 ^ 64 then (offset.toNat : Int) else offset.toNat - (2 ^ 64 : Nat) :=
    BitVec.toInt_eq_toNat_cond offset.toBitVec
  rw [Int64.le_iff_toInt_le, Int64.toInt_neg, hsigned, ← UInt64.toNat_inj]
  simp [Int.bmod]
  omega

/-- The block number that an offset stands for. -/
def wrappedEnd : UInt64 :=
  if offset = 0 ∨ 2 ^ 63 < offset.toNat then -offset else latestBlock - offset

theorem resolveRelative_offset : resolveRelative start (some (-offset.toInt64)) latestBlock =
      if wrappedEnd offset latestBlock < start then
        .error (.invalidEndBlock start (wrappedEnd offset latestBlock))
      else .ok (wrappedEnd offset latestBlock) := by
  have hstop : (if 0 ≤ -offset.toInt64 then (-offset.toInt64).toUInt64
      else (latestBlock.toInt64 + -offset.toInt64).toUInt64) = wrappedEnd offset latestBlock := by
    unfold wrappedEnd
    simp only [neg_offset_nonneg]
    split
    · simp
    · simp [UInt64.sub_eq_add_neg]
  unfold resolveRelative
  simp only [hstop]

/-- An offset between 1 and `2 ^ 63` is subtracted, if need be with a wrap-around;
the others are negated. -/
theorem wrappedEnd_cases : (offset.toNat = 0 ∧ (wrappedEnd offset latestBlock).toNat = 0) ∨
    (0 < offset.toNat ∧ offset.toNat ≤ 2 ^ 63 ∧ offset.toNat ≤ latestBlock.toNat ∧
      (wrappedEnd offset latestBlock).toNat = latestBlock.toNat - offset.toNat) ∨
    (0 < offset.toNat ∧ offset.toNat ≤ 2 ^ 63 ∧ latestBlock.toNat < offset.toNat ∧
      (wrappedEnd offset latestBlock).toNat = 2 ^ 64 + latestBlock.toNat - offset.toNat) ∨
    (2 ^ 63 < offset.toNat ∧ (wrappedEnd offset latestBlock).toNat = 2 ^ 64 - offset.toNat) := by
  have hlatest := latestBlock.toNat_lt
  unfold wrappedEnd
  by_cases hneg : offset = 0 ∨ 2 ^ 63 < offset.toNat
  · have h : (-offset).toNat = (2 ^ 64 - offset.toNat) % 2 ^ 64 := UInt64.toNat_ofNat
    rw [if_pos hneg, h]
    rw [eq_zero_iff] at hneg
    rcases hneg with hzero | hlarge
    · left
      exact ⟨hzero, by omega⟩
    · right; right; right
      exact ⟨hlarge, by omega⟩
  · have h := UInt64.toNat_sub latestBlock offset
    rw [if_neg hneg, h]
    rw [eq_zero_iff] at hneg
    rcases Nat.lt_or_ge latestBlock.toNat offset.toNat with hwraps | hle
    · right; right; left
      exact ⟨by omega, by omega, hwraps, by omega⟩
    · right; left
      exact ⟨by omega, by omega, hle, by omega⟩

/-- An offset is resolved to the wrapped end if that is not before the start. -/
theorem resolve_latestMinus : (latestMinus offset).resolve start (.ok (some latestBlock)) =
      if wrappedEnd offset latestBlock < start then
        .error (.invalidEndBlock start (wrappedEnd offset latestBlock))
      else .ok (.block (wrappedEnd offset latestBlock)) := by
  unfold resolve
  simp only [resolveRelative_offset]
  split
  · rename_i h
    split at h
    · rename_i hlt
      cases h
      rw [if_pos hlt]
    · cases h
  · rename_i h
    split at h
    · cases h
    · rename_i hlt
      cases h
      rw [if_neg hlt]

/-! ## When the end block is the configured one -/

/-- Only a block that is resolved can be wrong. -/
theorem exactly_of_block {e : EndBlock} {start b : UInt64} {n : Int}
    {getLatest : Except String (Option UInt64)} (hexact : e.exact getLatest = some n)
    (hresolve : e.resolve start getLatest = .ok (.block b)) :
    e.ResolvesExactly start getLatest ↔ n = b.toNat ∧ start ≤ b := by
  constructor
  · intro h
    have hblock := h.block b hresolve
    rw [hexact] at hblock
    exact ⟨Option.some.inj hblock.1, hblock.2⟩
  rintro ⟨hn, hstart⟩
  constructor
  · intro b' hb'
    rw [hresolve] at hb'
    cases hb'
    rw [hexact, hn]
    exact ⟨rfl, hstart⟩
  · intro _ hlt
    have := hlt n hexact
    have := UInt64.le_iff_toNat_le.mp hstart
    omega

variable {e start getLatest} in
theorem exactly_of_no_block (h : e.resolve start getLatest = .ok .noDataAvailable ∨
      ∃ err, e.resolve start getLatest = .error err) : e.ResolvesExactly start getLatest := by
  constructor
  · intro b hb
    rcases h with h | ⟨err, h⟩
    · rw [h] at hb
      cases hb
    · rw [h] at hb
      cases hb
  · intro _ _
    exact h

theorem latestMinus_exactly_iff :
    (latestMinus offset).ResolvesExactly start (.ok (some latestBlock)) ↔
      (latestMinus offset).InRange start (.ok (some latestBlock)) := by
  have hresolve := resolve_latestMinus start offset latestBlock
  have hcases := wrappedEnd_cases offset latestBlock
  have hlatest := latestBlock.toNat_lt
  -- in the terms of natural numbers
  have hrange : (latestMinus offset).InRange start (.ok (some latestBlock)) ↔
      if offset.toNat = 0 then 0 < start.toNat ∨ latestBlock.toNat = 0
      else if offset.toNat ≤ 2 ^ 63 then offset.toNat ≤ latestBlock.toNat ∨
        2 ^ 64 + latestBlock.toNat - offset.toNat < start.toNat
      else 2 ^ 64 - offset.toNat < start.toNat := by
    unfold InRange
    simp only [eq_zero_iff, UInt64.le_iff_toNat_le, UInt64.lt_iff_toNat_lt, UInt64.toNat_zero]
  rw [hrange]
  by_cases hbefore : wrappedEnd offset latestBlock < start
  · -- the wrapped end is refused
    rw [if_pos hbefore] at hresolve
    have hlt := UInt64.lt_iff_toNat_lt.mp hbefore
    have hexactly := exactly_of_no_block (.inr ⟨_, hresolve⟩)
    split_ifs <;> simp only [hexactly, true_iff] <;> omega
  · rw [if_neg hbefore] at hresolve
    have hle : start ≤ wrappedEnd offset latestBlock := UInt64.not_lt.mp hbefore
    have hle' := UInt64.le_iff_toNat_le.mp hle
    have hexact : (latestMinus offset).exact (.ok (some latestBlock)) =
      some (latestBlock.toNat - offset.toNat : Int) := rfl
    rw [exactly_of_block hexact hresolve]
    simp only [hle, and_true]
    split_ifs <;> omega

/-- The end block is the configured one exactly if the latest block and the offset
are in range. -/
theorem resolve_exactly_iff (e : EndBlock) (start : UInt64)
    (getLatest : Except String (Option UInt64)) :
    e.ResolvesExactly start getLatest ↔ e.InRange start getLatest := by
  cases e with
  | none =>
    refine iff_of_true ⟨?_, ?_⟩ trivial
    · intro b hb
      cases hb
    · intro hne
      exact absurd rfl hne
  | absolute n =>
    refine iff_of_true ?_ trivial
    by_cases hlt : n < start
    · exact exactly_of_no_block (.inr ⟨_, if_pos hlt⟩)
    · have hblock : (absolute n).resolve start getLatest = .ok (.block n) := if_neg hlt
      exact (exactly_of_block rfl hblock).mpr ⟨rfl, UInt64.not_lt.mp hlt⟩
  | latest =>
    cases getLatest with
    | error message => exact iff_of_true (exactly_of_no_block (.inr ⟨_, rfl⟩)) trivial
    | ok answer =>
      cases answer with
      | none => exact iff_of_true (exactly_of_no_block (.inl rfl)) trivial
      | some block =>
        -- nothing compares the latest block with the start
        rw [exactly_of_block rfl rfl]
        exact and_iff_right rfl
  | latestMinus offset =>
    cases getLatest with
    | error message => exact iff_of_true (exactly_of_no_block (.inr ⟨_, rfl⟩)) trivial
    | ok answer =>
      cases answer with
      | none => exact iff_of_true (exactly_of_no_block (.inl rfl)) trivial
      | some block => exact latestMinus_exactly_iff start offset block

/-- The latest block before the start is taken; 100 blocks before block 50 is the
block `2 ^ 64 - 50`; no block before block 50 is block 0. -/
theorem resolve_wraps_around : latest.resolve 100 (.ok (some 50)) = .ok (.block 50) ∧
    (latestMinus 100).resolve 0 (.ok (some 50)) = .ok (.block 18446744073709551566) ∧
    (latestMinus 0).resolve 0 (.ok (some 50)) = .ok (.block 0) ∧
    ¬ latest.ResolvesExactly 100 (.ok (some 50)) ∧
    ¬ (latestMinus 100).ResolvesExactly 0 (.ok (some 50)) ∧
    ¬ (latestMinus 0).ResolvesExactly 0 (.ok (some 50)) := by
  refine ⟨by decide, by decide, by decide, ?_, ?_, ?_⟩
  · intro h
    exact absurd (h.block 50 (by decide)).2 (by decide)
  · intro h
    exact absurd (h.block 18446744073709551566 (by decide)).1 (by decide)
  · intro h
    exact absurd (h.block 0 (by decide)).1 (by decide)

end EndBlock

end CampNode

import Mathlib.Data.List.Infix
import Mathlib.Tactic.Common

/-!
# CampNode.Core.Resume — loops that ask again where a stream failed

A loop asks a source for a stream from some position on, and passes the elements on. When
the stream fails, the loop asks again from another position; when the stream ends, the loop ends.
Elements have numbers. If every attempt yields the numbers from its position on, and the next
attempt starts where it stopped, then the whole loop yields an initial part of the numbers from
the first position on, and all of them if it ends (`retryLoop_covers`).
-/

namespace CampNode

/-- How the loop goes on after an attempt: from another state, or not at all. -/
inductive Outcome (σ : Type) where
  | resume (state : σ)
  | ended
  | aborted
deriving DecidableEq, Repr

structure Attempt (α σ : Type) where
  yielded : List α
  outcome : Outcome σ
deriving DecidableEq, Repr

section Loop

variable {α σ : Type} (attempt : Nat → σ → Attempt α σ)

/-- Another attempt, if the loop goes on. -/
def Attempt.andThen (a : Attempt α σ) (next : σ → Attempt α σ) : Attempt α σ :=
  match a.outcome with
  | .resume s => ⟨a.yielded ++ (next s).yielded, (next s).outcome⟩
  | .ended => a
  | .aborted => a

/-- What the loop has yielded after a number of attempts. The attempts are numbered, since the
source can answer each in another way. -/
def retryLoop (s : σ) : Nat → Attempt α σ
  | 0 => ⟨[], .resume s⟩
  | k + 1 => (retryLoop s k).andThen (attempt k)

variable (number : α → Nat) (position : σ → Nat) (stop : Nat)

/-- The elements are numbered from a position on and stay below `stop`. The loop resumes where
they end, does not end before `stop` and is not given up. -/
structure Covers (start : Nat) (a : Attempt α σ) : Prop where
  numbers : a.yielded.map number = List.range' start a.yielded.length
  below : start + a.yielded.length ≤ max start stop
  resumes : ∀ s', a.outcome = .resume s' → position s' = start + a.yielded.length
  complete : a.outcome = .ended → stop ≤ start + a.yielded.length
  goesOn : a.outcome ≠ .aborted

variable {attempt number position stop}
variable {start : Nat} {a : Attempt α σ} {s s' : σ}

/-- An attempt that starts where the loop was. -/
theorem Covers.append {a b : Attempt α σ} (ha : Covers number position stop start a)
    (hs : a.outcome = .resume s) (hb : Covers number position stop (position s) b) :
    Covers number position stop start ⟨a.yielded ++ b.yielded, b.outcome⟩ := by
  have hpos := ha.resumes s hs
  have hbelow := ha.below
  have hbelow' := hb.below
  constructor
  · rw [List.map_append, ha.numbers, hb.numbers, hpos, List.length_append, List.range'_append_1]
  · rw [List.length_append]
    omega
  · intro s' hs'
    rw [hb.resumes s' hs', hpos, List.length_append, Nat.add_assoc]
  · intro hended
    have hstop := hb.complete hended
    rw [List.length_append]
    omega
  · exact hb.goesOn

/-- The rule for loops: what every attempt that is made covers, the loop covers. -/
theorem retryLoop_covers (inv : σ → Prop) (hinit : inv s) (k : Nat)
    (hattempt : ∀ j < k, ∀ s', (retryLoop attempt s j).outcome = .resume s' → inv s' →
      Covers number position stop (position s') (attempt j s') ∧
        ∀ s'', (attempt j s').outcome = .resume s'' → inv s'') :
    Covers number position stop (position s) (retryLoop attempt s k) ∧
      ∀ s', (retryLoop attempt s k).outcome = .resume s' → inv s' := by
  induction k with
  | zero =>
    refine ⟨⟨rfl, Nat.le_max_left _ _, ?_, nofun, nofun⟩, ?_⟩
    · intro s' hs'
      cases hs'
      rfl
    · intro s' hs'
      cases hs'
      exact hinit
  | succ k ih =>
    obtain ⟨hcovers, hstate⟩ := ih fun j hj => hattempt j (by omega)
    have hlast := hattempt k (by omega)
    rw [retryLoop]
    generalize retryLoop attempt s k = before at hcovers hstate hlast ⊢
    obtain ⟨yielded, outcome⟩ := before
    cases outcome with
    | resume s' =>
      obtain ⟨hcovers', hstate'⟩ := hlast s' rfl (hstate s' rfl)
      exact ⟨hcovers.append rfl hcovers', hstate'⟩
    | ended => exact ⟨hcovers, nofun⟩
    | aborted => exact ⟨hcovers, nofun⟩

/-- What an attempt yields, the loop has yielded at all later times. -/
theorem retryLoop_yields {j k : Nat} (hjk : j < k)
    (hs : (retryLoop attempt s j).outcome = .resume s') :
    (attempt j s').yielded <:+: (retryLoop attempt s k).yielded := by
  induction k with
  | zero => omega
  | succ k ih =>
    rw [retryLoop, Attempt.andThen]
    rcases Nat.lt_succ_iff_lt_or_eq.mp hjk with hlt | rfl
    · have hk := ih hlt
      split
      · exact hk.trans (List.prefix_append _ _).isInfix
      · exact hk
      · exact hk
    · rw [hs]
      exact (List.suffix_append _ _).isInfix

/-- A loop that was not given up ends with the next attempt that ends. -/
theorem retryLoop_ends {k : Nat} (hgoes : (retryLoop attempt s k).outcome ≠ .aborted)
    (hk : ∀ s', (retryLoop attempt s k).outcome = .resume s' → (attempt k s').outcome = .ended) :
    (retryLoop attempt s (k + 1)).outcome = .ended := by
  rw [retryLoop]
  generalize retryLoop attempt s k = before at hgoes hk ⊢
  obtain ⟨yielded, outcome⟩ := before
  cases outcome with
  | resume s' => exact hk s' rfl
  | ended => rfl
  | aborted => exact absurd rfl hgoes

/-- What is covered is an initial part of the numbers up to `stop`, in ascending order. -/
theorem Covers.initial (h : Covers number position stop start a) :
    a.yielded.map number <+: List.range' start (stop - start) := by
  have hbelow := h.below
  rw [h.numbers]
  refine ⟨List.range' (start + a.yielded.length) (stop - start - a.yielded.length), ?_⟩
  rw [List.range'_append_1]
  congr 1
  omega

/-- Once the loop has ended, it is all of them. -/
theorem Covers.all (h : Covers number position stop start a) (hended : a.outcome = .ended) :
    a.yielded.map number = List.range' start (stop - start) := by
  have hbelow := h.below
  have hstop := h.complete hended
  rw [h.numbers]
  congr 1
  omega

end Loop

/-! ## Items up to the first failure -/

section Items

variable {ε α : Type}

/-- The elements before the first error. -/
def untilError : List (Except ε α) → List α
  | [] => []
  | .error _ :: _ => []
  | .ok a :: rest => a :: untilError rest

/-- There is an error among the items. -/
def hasError : List (Except ε α) → Bool
  | [] => false
  | .error _ :: _ => true
  | .ok _ :: rest => hasError rest

end Items

end CampNode

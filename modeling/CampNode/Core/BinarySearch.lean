import Mathlib.Tactic.Common

/-!
# CampNode.Core.BinarySearch — halving an interval

The loop halves an interval of positions by a test that can fail with an error. Nothing is asked
of the test but that a position for which it holds, and all positions before it, can be skipped.
In particular the test need not be monotone. Then all positions before the result can be skipped
(`searchFrom_spec`).
-/

namespace CampNode

variable {ε : Type} (below : Nat → Except ε Bool)

/-- The loop with `lo` and `hi`, for at most `fuel` rounds. -/
def searchFrom : Nat → Nat → Nat → Except ε Nat
  | 0, lo, _ => .ok lo
  | fuel + 1, lo, hi =>
      if lo < hi then
        match below ((lo + hi) / 2) with
        | .error e => .error e
        | .ok true => searchFrom fuel ((lo + hi) / 2 + 1) hi
        | .ok false => searchFrom fuel lo ((lo + hi) / 2)
      else .ok lo

variable {below} {fuel lo hi : Nat}

theorem searchFrom_succ (fuel lo hi : Nat) : searchFrom below (fuel + 1) lo hi = if lo < hi then
        match below ((lo + hi) / 2) with
        | .error e => .error e
        | .ok true => searchFrom below fuel ((lo + hi) / 2 + 1) hi
        | .ok false => searchFrom below fuel lo ((lo + hi) / 2)
      else .ok lo := rfl

/-- As many rounds as there are positions are enough. -/
theorem searchFrom_fuel (h : hi - lo ≤ fuel) :
    searchFrom below (fuel + 1) lo hi = searchFrom below fuel lo hi := by
  induction fuel generalizing lo hi with
  | zero =>
    rw [searchFrom_succ, if_neg (by omega), searchFrom]
  | succ fuel ih =>
    rw [searchFrom_succ (fuel + 1) lo hi, searchFrom_succ fuel lo hi]
    by_cases hlt : lo < hi
    · rw [if_pos hlt, if_pos hlt]
      cases below ((lo + hi) / 2) with
      | error e => rfl
      | ok b =>
        cases b with
        | false => exact ih (by omega)
        | true => exact ih (by omega)
    · rw [if_neg hlt, if_neg hlt]

/-- If the test answers for all positions and only holds where the search may go on behind, then
the search finds a position, and everything before it may be skipped. -/
theorem searchFrom_spec (skip : Nat → Prop) {n : Nat}
    (hbelow : ∀ i < n, ∃ b, below i = .ok b ∧ (b = true → ∀ j ≤ i, skip j))
    (hlo : ∀ j < lo, skip j) (hhi : hi ≤ n) :
    ∃ r, searchFrom below fuel lo hi = .ok r ∧ ∀ j < r, skip j := by
  induction fuel generalizing lo hi with
  | zero => exact ⟨lo, rfl, hlo⟩
  | succ fuel ih =>
    rw [searchFrom_succ]
    split
    · obtain ⟨b, hb, hskip⟩ := hbelow ((lo + hi) / 2) (by omega)
      rw [hb]
      cases b with
      | false => exact ih hlo (by omega)
      | true =>
        -- everything up to the middle may be skipped
        refine ih ?_ hhi
        intro j hj
        exact hskip rfl j (by omega)
    · exact ⟨lo, rfl, hlo⟩

end CampNode

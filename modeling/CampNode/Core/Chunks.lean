import Mathlib.Tactic.Common
import Mathlib.Control.Basic

/-!
# CampNode.Core.Chunks — lists cut into pieces

`chunks n l` cuts a list into pieces of `n` elements; the last piece may be shorter. The pieces
make up the list, none of them is empty, and a computation over the list can be done piece by
piece.
-/

namespace CampNode

open List

variable {α β : Type}

/-- At most `fuel` pieces. -/
def chunksFrom (n : Nat) : Nat → List α → List (List α)
  | 0, _ => []
  | _ + 1, [] => []
  | fuel + 1, a :: l => (a :: l).take n :: chunksFrom n fuel ((a :: l).drop n)

/-- A list has no more pieces than elements. -/
def chunks (n : Nat) (l : List α) : List (List α) := chunksFrom n l.length l

variable {n : Nat}

theorem flatten_chunksFrom (hn : 0 < n) {fuel : Nat} {l : List α} (hl : l.length ≤ fuel) :
    (chunksFrom n fuel l).flatten = l := by
  induction fuel generalizing l with
  | zero =>
    rw [length_eq_zero_iff.mp (Nat.le_zero.mp hl)]
    rfl
  | succ fuel ih =>
    cases l with
    | nil => rfl
    | cons a l =>
      have hdrop : ((a :: l).drop n).length ≤ fuel := by
        rw [length_drop]
        omega
      rw [chunksFrom, flatten_cons, ih hdrop, take_append_drop]

theorem flatten_chunks (hn : 0 < n) (l : List α) : (chunks n l).flatten = l :=
  flatten_chunksFrom hn (Nat.le_refl _)

theorem mem_chunksFrom (hn : 0 < n) {fuel : Nat} {l c : List α} (hc : c ∈ chunksFrom n fuel l) :
    c ≠ [] ∧ c.length ≤ n := by
  induction fuel generalizing l with
  | zero => cases hc
  | succ fuel ih =>
    cases l with
    | nil => cases hc
    | cons a l =>
      rcases mem_cons.mp hc with rfl | hc
      · constructor
        · obtain ⟨m, rfl⟩ : ∃ m, n = m + 1 := ⟨n - 1, by omega⟩
          simp
        · exact length_take_le n (a :: l)
      · exact ih hc

/-- No piece is empty, and none is longer than `n`. -/
theorem mem_chunks (hn : 0 < n) {l c : List α} (hc : c ∈ chunks n l) : c ≠ [] ∧ c.length ≤ n :=
  mem_chunksFrom hn hc

/-- The elements of the pieces are those of the list. -/
theorem mem_of_mem_chunks (hn : 0 < n) {l c : List α} (hc : c ∈ chunks n l) {a : α} (ha : a ∈ c) :
    a ∈ l := by
  rw [← flatten_chunks hn l]
  exact mem_flatten.mpr ⟨c, hc, ha⟩

theorem mapM_flatten {m : Type → Type} [Monad m] [LawfulMonad m] (f : α → m β)
    (pieces : List (List α)) :
    flatten <$> pieces.mapM (fun piece => piece.mapM f) = pieces.flatten.mapM f := by
  induction pieces with
  | nil => simp
  | cons piece rest ih =>
    rw [flatten_cons, mapM_append, ← ih]
    simp [mapM_cons]

/-- A computation over a list, piece by piece. -/
theorem mapM_chunks {m : Type → Type} [Monad m] [LawfulMonad m] (hn : 0 < n) (f : α → m β)
    (l : List α) :
    flatten <$> (chunks n l).mapM (fun piece => piece.mapM f) = l.mapM f := by
  rw [mapM_flatten, flatten_chunks hn]

end CampNode

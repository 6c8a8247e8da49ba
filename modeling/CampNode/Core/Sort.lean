import Mathlib.Data.List.Sort
import Mathlib.Data.List.Chain
import Mathlib.Tactic.Common

/-!
# CampNode.Core.Sort — unstable sorting by key

An unstable sort promises a permutation of its input in the order of the key
and nothing about elements of equal key. `UnstableSort` is that contract: a
result proved for every `UnstableSort` holds whatever the sort does with
ties. Two members of the contract are given: insertion sort, which keeps the
input order of ties, and exchange sort, which moves them depending on what
else is in the list.
-/

namespace CampNode

variable {α : Type} (key : α → Int)

/-- A sort by `key` that may reorder elements of equal key. -/
structure UnstableSort where
  sort : List α → List α
  perm : ∀ l, (sort l).Perm l
  sorted : ∀ l, (sort l).Pairwise (fun a b => key a ≤ key b)

namespace UnstableSort

variable {key}

@[simp] theorem mem_sort (σ : UnstableSort key) {l : List α} {a : α} : a ∈ σ.sort l ↔ a ∈ l :=
  (σ.perm l).mem_iff

end UnstableSort

/-! ## Insertion sort -/

/-- Insertion sort by key; ties keep their input order. -/
def insertionSort : UnstableSort key where
  sort l := l.insertionSort (fun a b => key a ≤ key b)
  perm l := List.perm_insertionSort _ l
  sorted l := by
    have : Std.Total (fun a b : α => key a ≤ key b) := ⟨fun a b => le_total _ _⟩
    have : IsTrans α (fun a b => key a ≤ key b) := ⟨fun _ _ _ => le_trans⟩
    exact List.pairwise_insertionSort _ l

/-! ## Exchange sort -/

/-- One pass of exchange sort: the head is exchanged with every smaller
element met on the way, so that the least one ends in front. -/
def exchangePass (x : α) : List α → α × List α
  | [] => (x, [])
  | y :: ys =>
      if key y < key x then
        ((exchangePass y ys).1, x :: (exchangePass y ys).2)
      else
        ((exchangePass x ys).1, y :: (exchangePass x ys).2)

variable (x : α) (n : Nat) (l : List α)

theorem exchangePass_perm :
    ((exchangePass key x l).1 :: (exchangePass key x l).2).Perm (x :: l) := by
  induction l generalizing x with
  | nil => simp [exchangePass]
  | cons y ys ih =>
    by_cases h : key y < key x
    · simp only [exchangePass, h, if_true]
      exact (List.Perm.swap _ _ _).trans ((ih y).cons x)
    · simp only [exchangePass, h, if_false]
      exact (List.Perm.swap _ _ _).trans (((ih x).cons y).trans (List.Perm.swap _ _ _))

theorem exchangePass_le : ∀ a ∈ x :: l, key (exchangePass key x l).1 ≤ key a := by
  induction l generalizing x with
  | nil => simp [exchangePass]
  | cons y ys ih =>
    intro a ha
    by_cases h : key y < key x
    · simp only [exchangePass, h, if_true]
      have hy := ih y y (by simp)
      rcases List.mem_cons.mp ha with rfl | ha
      · omega
      · exact ih y a ha
    · simp only [exchangePass, h, if_false]
      have hx := ih x x (by simp)
      rcases List.mem_cons.mp ha with rfl | ha
      · exact hx
      · rcases List.mem_cons.mp ha with rfl | ha
        · omega
        · exact ih x a (List.mem_cons_of_mem _ ha)

/-- Exchange sort, recursing on the number of passes left. -/
def exchangeSortAux : Nat → List α → List α
  | 0, l => l
  | _ + 1, [] => []
  | n + 1, x :: l => (exchangePass key x l).1 :: exchangeSortAux n (exchangePass key x l).2

theorem exchangeSortAux_perm : (exchangeSortAux key n l).Perm l := by
  induction n generalizing l with
  | zero => exact List.Perm.refl _
  | succ n ih =>
    cases l with
    | nil => exact List.Perm.refl _
    | cons x l => exact ((ih _).cons _).trans (exchangePass_perm key x l)

theorem exchangeSortAux_sorted (hn : l.length ≤ n) :
    (exchangeSortAux key n l).Pairwise (fun a b => key a ≤ key b) := by
  induction n generalizing l with
  | zero =>
    have : l = [] := List.length_eq_zero_iff.mp (by omega)
    simp [this, exchangeSortAux]
  | succ n ih =>
    cases l with
    | nil => simp [exchangeSortAux]
    | cons x l =>
      have hperm := exchangePass_perm key x l
      have hlen := hperm.length_eq
      simp only [List.length_cons] at hlen hn
      refine List.pairwise_cons.mpr ⟨fun b hb => ?_, ih _ (by omega)⟩
      have hb' : b ∈ (exchangePass key x l).2 := (exchangeSortAux_perm key n _).mem_iff.mp hb
      exact exchangePass_le key x l b (hperm.mem_iff.mp (List.mem_cons_of_mem _ hb'))

/-- Exchange sort by key; ties change places with the elements exchanged
around them. -/
def exchangeSort : UnstableSort key where
  sort l := exchangeSortAux key l.length l
  perm l := exchangeSortAux_perm key l.length l
  sorted l := exchangeSortAux_sorted key l.length l (Nat.le_refl _)

/-! ## The last match in a list -/

/-- The index of the last element satisfying `p`. -/
def rposition (p : α → Bool) : List α → Option Nat
  | [] => none
  | a :: l =>
      match rposition p l with
      | some i => some (i + 1)
      | none => if p a then some 0 else none

theorem rposition_eq_none {p : α → Bool} {l : List α} :
    rposition p l = none ↔ ∀ a ∈ l, p a = false := by
  induction l with
  | nil => simp [rposition]
  | cons a l ih =>
    cases h : rposition p l with
    | some i =>
      have hl : ¬ ∀ b ∈ l, p b = false := fun hall => by simp [ih.mpr hall] at h
      simpa [rposition, h] using fun _ => not_forall.mp hl
    | none => simpa [rposition, h] using fun _ => ih.mp h

/-- The last match splits the list: nothing after it matches. -/
theorem rposition_eq_some {p : α → Bool} {l : List α} {i : Nat} (h : rposition p l = some i) :
    ∃ l₁ a l₂, l = l₁ ++ a :: l₂ ∧ l₁.length = i ∧ p a = true ∧ ∀ b ∈ l₂, p b = false := by
  induction l generalizing i with
  | nil => simp [rposition] at h
  | cons a l ih =>
    cases hl : rposition p l with
    | some j =>
      obtain ⟨l₁, b, l₂, rfl, hlen, hb, hafter⟩ := ih hl
      simp only [rposition, hl, Option.some.injEq] at h
      exact ⟨a :: l₁, b, l₂, rfl, by simp [hlen, h], hb, hafter⟩
    | none =>
      cases hpa : p a with
      | false => simp [rposition, hl, hpa] at h
      | true =>
        simp only [rposition, hl, hpa, if_true, Option.some.injEq] at h
        exact ⟨[], a, l, rfl, h, hpa, rposition_eq_none.mp hl⟩

end CampNode

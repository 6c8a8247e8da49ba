import Mathlib.Data.Finset.Max
import Mathlib.Tactic.Common

/-!
# CampNode.Core.Laminar — nested families of intervals

A family of intervals of natural numbers is *laminar* if any two of its members
are apart or one lies inside the other; here an inner interval is also older
than an outer one. The roots of a laminar family are its members that lie inside
no other. They are apart from each other, and every point that the family
covers lies in a root.

Three operations keep a family laminar: adding an interval apart from all
members, adding an interval that is covered by roots inside it, and removing
members.
-/

namespace CampNode

variable {α : Type} (lo hi : α → Nat) (age : α → Int)

/-- Point `b` lies in the interval `a`. -/
def HoldsPoint (a : α) (b : Nat) : Prop := lo a ≤ b ∧ b ≤ hi a

/-- `a` lies inside `c` and is smaller. -/
def Inside (a c : α) : Prop :=
  lo c ≤ lo a ∧ hi a ≤ hi c ∧ (lo c < lo a ∨ hi a < hi c)

/-- `a` and `c` have no point in common. -/
def Apart (a c : α) : Prop := hi a < lo c ∨ hi c < lo a

instance (a c : α) : Decidable (Inside lo hi a c) := inferInstanceAs (Decidable (_ ∧ _))

instance (a c : α) : Decidable (Apart lo hi a c) := inferInstanceAs (Decidable (_ ∨ _))

/-- Members are apart or nested, and inner members are older. -/
structure Laminar (family : List α) : Prop where
  valid : ∀ a ∈ family, lo a ≤ hi a
  nested : ∀ a ∈ family, ∀ c ∈ family, a = c ∨ Apart lo hi a c ∨ Inside lo hi a c ∨ Inside lo hi c a
  newer : ∀ a ∈ family, ∀ c ∈ family, Inside lo hi a c → age a < age c

/-- `a` is a member that lies inside no other. -/
def Root (family : List α) (a : α) : Prop :=
  a ∈ family ∧ ∀ c ∈ family, ¬ Inside lo hi a c

variable {lo hi age} {family family' : List α}

theorem Inside.trans {a b c : α} (hab : Inside lo hi a b) (hbc : Inside lo hi b c) :
    Inside lo hi a c := by
  unfold Inside at *
  omega

theorem Inside.holdsPoint {a c : α} (h : Inside lo hi a c) {b : Nat}
    (hb : HoldsPoint lo hi a b) : HoldsPoint lo hi c b :=
  ⟨h.1.trans hb.1, hb.2.trans h.2.1⟩

theorem Inside.ne {a c : α} (h : Inside lo hi a c) : a ≠ c := by
  rintro rfl
  unfold Inside at h
  omega

namespace Laminar

variable {a o : α} {b : Nat} {run : List α}

section

variable (h : Laminar lo hi age family)
include h

/-- Whatever shares a point with a root is the root or lies inside it. -/
theorem eq_or_inside_of_root {r a : α} (hr : Root lo hi family r)
    (ha : a ∈ family) (hrb : HoldsPoint lo hi r b) (hab : HoldsPoint lo hi a b) :
    a = r ∨ Inside lo hi a r := by
  rcases h.nested a ha r hr.1 with heq | hapart | hin | hin
  · exact Or.inl heq
  · unfold Apart at hapart
    unfold HoldsPoint at hrb hab
    omega
  · exact Or.inr hin
  · exact absurd hin (hr.2 a ha)

/-- Two roots that share a point are equal. -/
theorem root_unique {r r' : α} (hr : Root lo hi family r)
    (hr' : Root lo hi family r') (hrb : HoldsPoint lo hi r b) (hrb' : HoldsPoint lo hi r' b) :
    r' = r := by
  rcases h.eq_or_inside_of_root hr hr'.1 hrb hrb' with heq | hin
  · exact heq
  · exact absurd hin (hr'.2 r hr.1)

/-- Every covered point lies in a root: in the newest member that holds it. -/
theorem exists_root (ha : a ∈ family) (hab : HoldsPoint lo hi a b) :
    ∃ r, Root lo hi family r ∧ HoldsPoint lo hi r b := by
  classical
  let holding := family.toFinset.filter (fun c => HoldsPoint lo hi c b)
  have hmem : ∀ c, c ∈ holding ↔ c ∈ family ∧ HoldsPoint lo hi c b := by
    intro c
    simp [holding]
  rcases holding.exists_max_image age ⟨a, (hmem a).mpr ⟨ha, hab⟩⟩ with ⟨r, hr, hmax⟩
  rcases (hmem r).mp hr with ⟨hrf, hrb⟩
  refine ⟨r, ⟨hrf, fun c hc hin => ?_⟩, hrb⟩
  have hle := hmax c ((hmem c).mpr ⟨hc, hin.holdsPoint hrb⟩)
  have hlt := h.newer r hrf c hc hin
  omega

/-- Removing members. -/
theorem subset (hsub : family' ⊆ family) : Laminar lo hi age family' where
  valid a ha := h.valid a (hsub ha)
  nested a ha c hc := h.nested a (hsub ha) c (hsub hc)
  newer a ha c hc := h.newer a (hsub ha) c (hsub hc)

/-- Adding an interval that every member is apart from or lies inside. -/
theorem cons {o : α} (ho : lo o ≤ hi o) (hrel : ∀ a ∈ family, Apart lo hi a o ∨ Inside lo hi a o)
    (hnewer : ∀ a ∈ family, Inside lo hi a o → age a < age o) :
    Laminar lo hi age (o :: family) := by
  -- the new interval lies inside no member
  have hnot : ∀ c ∈ family, ¬ Inside lo hi o c := by
    intro c hc hin
    have hrel' := hrel c hc
    unfold Apart Inside at hrel'
    unfold Inside at hin
    omega
  constructor
  · intro a ha
    rcases List.mem_cons.mp ha with rfl | ha'
    · exact ho
    · exact h.valid a ha'
  · intro a ha c hc
    rcases List.mem_cons.mp ha with rfl | ha' <;> rcases List.mem_cons.mp hc with rfl | hc'
    · exact Or.inl rfl
    · rcases hrel c hc' with hapart | hin
      · exact Or.inr (Or.inl (Or.symm hapart))
      · exact Or.inr (Or.inr (Or.inr hin))
    · rcases hrel a ha' with hapart | hin
      · exact Or.inr (Or.inl hapart)
      · exact Or.inr (Or.inr (Or.inl hin))
    · exact h.nested a ha' c hc'
  · intro a ha c hc hin
    rcases List.mem_cons.mp ha with rfl | ha' <;> rcases List.mem_cons.mp hc with rfl | hc'
    · exact absurd rfl hin.ne
    · exact absurd hin (hnot c hc')
    · exact hnewer a ha' hin
    · exact h.newer a ha' c hc' hin

end

theorem not_inside_of_apart (ha : lo a ≤ hi a) (hapart : Apart lo hi a o) : ¬ Inside lo hi a o := by
  unfold Apart at hapart
  unfold Inside
  omega

section

variable (h : Laminar lo hi age family)
include h

/-- Adding an interval apart from all members. -/
theorem cons_apart (ho : lo o ≤ hi o)
    (hapart : ∀ a ∈ family, Apart lo hi a o) : Laminar lo hi age (o :: family) := by
  refine h.cons ho (fun a ha => Or.inl (hapart a ha)) ?_
  intro a ha hin
  exact absurd hin (not_inside_of_apart (h.valid a ha) (hapart a ha))

section

variable (ho : lo o ≤ hi o) (hrun : ∀ r ∈ run, Root lo hi family r ∧ Inside lo hi r o)
  (hcover : ∀ b, HoldsPoint lo hi o b → ∃ r ∈ run, HoldsPoint lo hi r b)
include ho hrun hcover

/-- What a new interval that is covered by roots inside it has in common with
the family lies inside it. -/
theorem apart_or_inside (ha : a ∈ family) : Apart lo hi a o ∨ Inside lo hi a o := by
  by_cases hapart : Apart lo hi a o
  · exact Or.inl hapart
  right
  have hva := h.valid a ha
  -- a common point lies in a root of the run, and `a` is that root or inside it
  have hpoint : ∃ b, HoldsPoint lo hi a b ∧ HoldsPoint lo hi o b := by
    refine ⟨max (lo a) (lo o), ?_, ?_⟩ <;> unfold Apart at hapart <;> unfold HoldsPoint <;>
      omega
  rcases hpoint with ⟨b, hab, hob⟩
  rcases hcover b hob with ⟨r, hr, hrb⟩
  rcases h.eq_or_inside_of_root (hrun r hr).1 ha hrb hab with rfl | hin
  · exact (hrun a hr).2
  · exact hin.trans (hrun r hr).2

/-- Adding an interval that is covered by roots inside it and newer than what
lies inside it. -/
theorem cons_run (hnewer : ∀ a ∈ family, Inside lo hi a o → age a < age o) :
    Laminar lo hi age (o :: family) :=
  h.cons ho (fun _ ha => h.apart_or_inside ho hrun hcover ha) hnewer

end

/-- The roots outside the run stay roots when it is merged. -/
theorem root_cons_run {o r : α} (hrun : ∀ r ∈ run, Root lo hi family r ∧ Inside lo hi r o)
    (hcover : ∀ b, HoldsPoint lo hi o b → ∃ r ∈ run, HoldsPoint lo hi r b)
    (hr : Root lo hi family r) (hnot : r ∉ run) : Root lo hi (o :: family) r := by
  refine ⟨List.mem_cons_of_mem _ hr.1, fun c hc hin => ?_⟩
  rcases List.mem_cons.mp hc with rfl | hc
  · have hrb : HoldsPoint lo hi r (lo r) := ⟨Nat.le_refl _, h.valid r hr.1⟩
    rcases hcover _ (hin.holdsPoint hrb) with ⟨r', hr', hrb'⟩
    rw [h.root_unique hr (hrun r' hr').1 hrb hrb'] at hr'
    exact hnot hr'
  · exact hr.2 c hc hin

end

/-- Roots stay roots when an interval apart from them is added. -/
theorem root_cons_apart {o r : α} (hr : Root lo hi family r) (hv : lo r ≤ hi r)
    (hapart : Apart lo hi r o) : Root lo hi (o :: family) r := by
  refine ⟨List.mem_cons_of_mem _ hr.1, fun c hc => ?_⟩
  rcases List.mem_cons.mp hc with rfl | hc
  · exact not_inside_of_apart hv hapart
  · exact hr.2 c hc

end Laminar

end CampNode

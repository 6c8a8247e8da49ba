import Mathlib.Logic.Relation
import Mathlib.Tactic.Common

/-!
# CampNode.Core.Transition — transition systems and inductive invariance

A system is a pair of an initial-state predicate and a next-state relation.
Everything a run of the system can reach is `Reachable`; the invariance rules
below are the only inductions over runs that the rest of the development
uses.
-/

namespace CampNode

/-- A predicate on states. -/
abbrev StatePred (σ : Type) := σ → Prop

/-- A next-state relation. -/
abbrev Action (σ : Type) := σ → σ → Prop

/-- The states that a run of `next` reaches from a state satisfying `init`. -/
inductive Reachable {σ : Type} (init : StatePred σ) (next : Action σ) : σ → Prop where
  | init {s : σ} : init s → Reachable init next s
  | step {s s' : σ} : Reachable init next s → next s s' → Reachable init next s'

/-- Inductive invariance. -/
theorem init_invariant {σ : Type} (init : StatePred σ) (next : Action σ) (inv : StatePred σ)
    (hinit : ∀ s, init s → inv s)
    (hstep : ∀ s s', next s s' → inv s → inv s') :
    ∀ s, Reachable init next s → inv s := by
  intro s hs
  induction hs with
  | init h => exact hinit _ h
  | step _ hnext ih => exact hstep _ _ hnext ih

/-- Forward simulation: if every step is matched by a run of the other system,
every reachable state is related to a reachable one. -/
theorem Reachable.simulate {σ τ : Type} {init : StatePred σ} {next : Action σ}
    {init' : StatePred τ} {next' : Action τ} (sim : σ → τ → Prop)
    (hinit : ∀ s, init s → ∃ t, init' t ∧ sim s t)
    (hstep : ∀ s s' t, next s s' → Reachable init' next' t → sim s t →
      ∃ t', Reachable init' next' t' ∧ sim s' t')
    {s : σ} (hs : Reachable init next s) : ∃ t, Reachable init' next' t ∧ sim s t := by
  induction hs with
  | init h =>
    rcases hinit _ h with ⟨t, ht, hsim⟩
    exact ⟨t, .init ht, hsim⟩
  | step _ h ih =>
    rcases ih with ⟨t, ht, hsim⟩
    exact hstep _ _ t h ht hsim

/-- An executable run: every input has to pass a check and to lead to a state. -/
def run {σ ι : Type} (perform : σ → ι → Option σ) (check : σ → ι → Bool) : σ → List ι → Option σ
  | s, [] => some s
  | s, i :: rest =>
      if check s i then
        match perform s i with
        | none => none
        | some s' => run perform check s' rest
      else none

theorem Reachable.run {σ ι : Type} {init : StatePred σ} {next : Action σ}
    {perform : σ → ι → Option σ} {check : σ → ι → Bool} {inputs : List ι}
    (hstep : ∀ s s', ∀ i ∈ inputs, check s i = true → perform s i = some s' → next s s')
    {s s' : σ} (hs : Reachable init next s) (hrun : run perform check s inputs = some s') :
    Reachable init next s' := by
  induction inputs generalizing s with
  | nil =>
    cases hrun
    exact hs
  | cons i rest ih =>
    unfold CampNode.run at hrun
    split at hrun
    · rename_i hcheck
      split at hrun
      · cases hrun
      · rename_i s₁ hi
        refine ih ?_ (.step hs (hstep s s₁ i List.mem_cons_self hcheck hi)) hrun
        intro a b j hj
        exact hstep a b j (List.mem_cons_of_mem _ hj)
    · cases hrun

/-! ## Calls with answers -/

/-- The answers to a list of calls, one after the other. -/
def answers {σ ι ο : Type} (call : σ → ι → σ × ο) : σ → List ι → List ο
  | _, [] => []
  | s, c :: rest => (call s c).2 :: answers call (call s c).1 rest

/-- Related machines that answer each allowed call alike, and stay related, answer every list of
allowed calls alike. -/
theorem answers_eq_of_simulation {σ τ ι ο : Type} {call : σ → ι → σ × ο} {call' : τ → ι → τ × ο}
    (sim : σ → τ → Prop) (allowed : ι → Prop)
    (hcall : ∀ s t c, sim s t → allowed c →
      (call s c).2 = (call' t c).2 ∧ sim (call s c).1 (call' t c).1)
    {s : σ} {t : τ} (hsim : sim s t) {calls : List ι} (hallowed : ∀ c ∈ calls, allowed c) :
    answers call s calls = answers call' t calls := by
  induction calls generalizing s t with
  | nil => rfl
  | cons c rest ih =>
    rcases hcall s t c hsim (hallowed c List.mem_cons_self) with ⟨hanswer, hnext⟩
    rw [answers, answers, hanswer, ih hnext fun d hd => hallowed d (List.mem_cons_of_mem _ hd)]

/-- If only finitely many elements are met on the way from `a`, every way ends exactly if none of
them leads back to itself. -/
theorem acc_iff_acyclic {α : Type} [DecidableEq α] {r : α → α → Prop} {l : List α} {a : α}
    (hl : ∀ x y, Relation.ReflTransGen r a x → r x y → y ∈ l) :
    Acc (flip r) a ↔ ∀ b, Relation.ReflTransGen r a b → ¬ Relation.TransGen r b b := by
  constructor
  · intro h
    clear hl
    induction h with
    | intro a _ ih =>
      intro b hb hcycle
      rcases hb.cases_head with rfl | ⟨p, hp, hpb⟩
      · obtain ⟨p, hp, hpa⟩ := Relation.TransGen.head'_iff.mp hcycle
        exact ih p hp p .refl (.tail' hpa hp)
      · exact ih p hp b hpb hcycle
  · intro hacyclic
    -- what was met is not met again, so that fewer and fewer elements are left
    induction hn : l.length generalizing l a with
    | zero =>
      refine ⟨_, fun b hb => ?_⟩
      rw [List.length_eq_zero_iff.mp hn] at hl
      cases hl a b .refl hb
    | succ n ih =>
      refine ⟨_, fun b hb => ih (l := l.erase b) ?_ ?_ ?_⟩
      · intro x y hx hxy
        refine (List.mem_erase_of_ne ?_).mpr (hl x y (.head hb hx) hxy)
        rintro rfl
        exact hacyclic y (.single hb) (.tail' hx hxy)
      · exact fun c hc => hacyclic c (.head hb hc)
      · rw [List.length_erase_of_mem (hl a b .refl hb), hn]
        rfl

/-- An entry of a table after one of its keys was written. -/
theorem update_eq_some {K E : Type} [DecidableEq K] {table : K → Option E} {k l : K}
    {entry : Option E} {e : E} : Function.update table k entry l = some e ↔
      (l = k ∧ entry = some e) ∨ (l ≠ k ∧ table l = some e) := by
  by_cases h : l = k
  · subst h
    simp
  · simp [h]

end CampNode

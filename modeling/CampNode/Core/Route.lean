import Mathlib.Logic.Function.Basic

/-!
# CampNode.Core.Route — independent components

A state made of components, and events that each go to one component. The components do
not see each other, so that a run over all events does in each component what the events
of that component do there, in their order.
-/

namespace CampNode

section

variable {κ S E : Type} [DecidableEq κ]

/-- A step of the component that the event goes to. -/
def routeStep (key : E → κ) (step : S → E → Option S) (g : κ → S) (e : E) : Option (κ → S) :=
  (step (g (key e)) e).map (Function.update g (key e))

/-- If each component runs through its own events, the whole runs through all of them. -/
theorem foldlM_routeStep (key : E → κ) (step : S → E → Option S) (events : List E) (g g' : κ → S)
    (h : ∀ k, (events.filter fun e => key e = k).foldlM step (g k) = some (g' k)) :
    events.foldlM (routeStep key step) g = some g' := by
  induction events generalizing g with
  | nil =>
    have hg : g = g' := funext fun k => Option.some.inj (h k)
    rw [hg]
    rfl
  | cons e events ih =>
    have hkey := h (key e)
    rw [List.filter_cons_of_pos (by simp), List.foldlM_cons] at hkey
    rcases Option.bind_eq_some_iff.mp hkey with ⟨s, hs, hrest⟩
    rw [List.foldlM_cons, routeStep, hs]
    apply ih
    intro k
    by_cases hk : key e = k
    · subst hk
      rw [Function.update_self]
      exact hrest
    · have hother := h k
      rw [List.filter_cons_of_neg (by simpa using hk)] at hother
      rw [Function.update_of_ne (Ne.symm hk)]
      exact hother

end

end CampNode

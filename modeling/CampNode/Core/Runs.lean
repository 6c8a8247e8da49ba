import Mathlib.Data.List.Chain
import Mathlib.Tactic.Common

/-!
# CampNode.Core.Runs — splitting a list into maximal runs

A test `accept run a` says whether `a` may join a run. The runs of a list are built from
left to right: a member joins the run before it if the test accepts it, and starts a new
run otherwise. The first member of a run is not tested.

`MaximalRuns` says what the result is without the algorithm, and `maximalRuns_iff` that there
is exactly one such split.
-/

namespace CampNode

open List

variable {α : Type} (accept : List α → α → Bool)

/-- Every member but the first was accepted by the part of the run before it. -/
def Grown (run : List α) : Prop :=
  ∀ earlier a later, run = earlier ++ a :: later → earlier ≠ [] → accept earlier a = true

/-- A split of `l` into runs that cannot be continued. -/
structure MaximalRuns (l : List α) (runs : List (List α)) : Prop where
  flatten : runs.flatten = l
  nonempty : ∀ run ∈ runs, run ≠ []
  grown : ∀ run ∈ runs, Grown accept run
  ends : runs.IsChain fun run next => ∀ a ∈ next.head?, accept run a = false

/-- The runs of `run ++ l` where `run` is already a run. -/
def runsFrom : List α → List α → List (List α)
  | run, [] => [run]
  | run, a :: rest =>
      if accept run a then runsFrom (run ++ [a]) rest else run :: runsFrom [a] rest

def maximalRuns : List α → List (List α)
  | [] => []
  | a :: rest => runsFrom accept [a] rest

variable {accept}

theorem Grown.singleton (a : α) : Grown accept [a] := by
  intro earlier b later hsplit hne
  rcases append_eq_cons_iff.mp hsplit.symm with ⟨hnil, -⟩ | ⟨rest, -, hrest⟩
  · exact absurd hnil hne
  · exact absurd hrest (by simp)

variable {run : List α}

theorem Grown.concat {a : α} (h : Grown accept run) (ha : accept run a = true) :
    Grown accept (run ++ [a]) := by
  intro earlier b later hsplit hne
  rcases eq_nil_or_concat later with rfl | ⟨later, c, rfl⟩
  · -- the new member is the last one
    rcases append_inj_right' hsplit rfl with ⟨⟩
    rcases append_inj_left' hsplit rfl with ⟨⟩
    exact ha
  · rw [concat_eq_append, ← cons_append, ← append_assoc] at hsplit
    exact h earlier b later (append_inj_left' hsplit rfl) hne

/-- A member of a grown run was accepted by what stands before it. -/
theorem Grown.last {run : List α} {a : α} (h : Grown accept (run ++ [a])) (hne : run ≠ []) :
    accept run a = true := h run a [] rfl hne

theorem runsFrom_head (run l : List α) :
    ∃ later rest, runsFrom accept run l = (run ++ later) :: rest := by
  induction l generalizing run with
  | nil => exact ⟨[], [], by rw [runsFrom, append_nil]⟩
  | cons a l ih =>
    unfold runsFrom
    split
    · rcases ih (run ++ [a]) with ⟨later, rest, h⟩
      exact ⟨a :: later, rest, by rw [h, append_assoc, singleton_append]⟩
    · exact ⟨[], runsFrom accept [a] l, by rw [append_nil]⟩

theorem runsFrom_ne_nil (run l : List α) : runsFrom accept run l ≠ [] := by
  rcases @runsFrom_head _ accept run l with ⟨later, rest, h⟩
  rw [h]
  exact cons_ne_nil _ _

theorem runsFrom_maximal (hne : run ≠ []) (hrun : Grown accept run) (l : List α) :
    MaximalRuns accept (run ++ l) (runsFrom accept run l) := by
  induction l generalizing run with
  | nil =>
    refine ⟨by simp [runsFrom], ?_, ?_, isChain_singleton _⟩
    · intro r hr
      rwa [mem_singleton.mp hr]
    · intro r hr
      rwa [mem_singleton.mp hr]
  | cons a l ih =>
    unfold runsFrom
    split
    · rename_i haccept
      have h := ih (by simp) (hrun.concat haccept)
      rwa [append_assoc, singleton_append] at h
    rename_i hreject
    -- the run ends here, and the rest starts with the rejected member
    have h := ih (cons_ne_nil a []) (Grown.singleton a)
    refine ⟨by rw [flatten_cons, h.flatten]; rfl, ?_, ?_, ?_⟩
    · intro r hr
      rcases mem_cons.mp hr with rfl | hr
      · exact hne
      · exact h.nonempty r hr
    · intro r hr
      rcases mem_cons.mp hr with rfl | hr
      · exact hrun
      · exact h.grown r hr
    · rcases @runsFrom_head _ accept [a] l with ⟨later, rest, hhead⟩
      have hends := h.ends
      rw [hhead] at hends ⊢
      refine isChain_cons_cons.mpr ⟨?_, hends⟩
      intro b hb
      cases hb
      exact Bool.eq_false_iff.mpr hreject

/-- A split into maximal runs that continues `run` is found by going on from `run`. -/
theorem MaximalRuns.eq_runsFrom {run later l : List α} {rest : List (List α)} (hne : run ≠ [])
    (h : MaximalRuns accept (run ++ l) ((run ++ later) :: rest)) :
    (run ++ later) :: rest = runsFrom accept run l := by
  induction l generalizing run later rest with
  | nil =>
    have hflat := h.flatten
    rw [flatten_cons, append_nil, append_assoc] at hflat
    have hnil : later ++ rest.flatten = [] := append_right_eq_self.mp hflat
    rcases append_eq_nil_iff.mp hnil with ⟨rfl, hrest⟩
    cases rest with
    | nil => rw [append_nil, runsFrom]
    | cons r rest =>
      refine absurd ?_ (h.nonempty r (by simp))
      exact flatten_eq_nil_iff.mp hrest r mem_cons_self
  | cons a l ih =>
    have hflat := h.flatten
    rw [flatten_cons, append_assoc] at hflat
    have htail : later ++ rest.flatten = a :: l := append_cancel_left hflat
    unfold runsFrom
    cases later with
    | cons b later =>
      -- the next member is in the same run, so it was accepted
      cases htail
      have haccept : accept run a = true := h.grown _ mem_cons_self run a later rfl hne
      rw [if_pos haccept]
      have hsplit : run ++ a :: later = run ++ [a] ++ later := by simp
      rw [hsplit] at h ⊢
      refine ih (by simp) ?_
      rwa [append_assoc run, singleton_append]
    | nil =>
      cases rest with
      | nil => cases htail
      | cons r rest =>
        cases r with
        | nil => exact absurd rfl (h.nonempty [] (by simp))
        | cons b r =>
          cases htail
          rw [append_nil] at h ⊢
          rcases isChain_cons_cons.mp h.ends with ⟨hreject, hends⟩
          have hfalse : accept run a = false := hreject a rfl
          rw [hfalse, if_neg Bool.false_ne_true]
          refine congrArg _ (@ih [a] r rest (cons_ne_nil a []) ?_)
          refine ⟨rfl, ?_, ?_, hends⟩
          · intro x hx
            exact h.nonempty x (mem_cons_of_mem _ hx)
          · intro x hx
            exact h.grown x (mem_cons_of_mem _ hx)

/-- There is exactly one split into maximal runs. -/
theorem maximalRuns_iff {l : List α} {runs : List (List α)} :
    MaximalRuns accept l runs ↔ runs = maximalRuns accept l := by
  constructor
  · intro h
    cases runs with
    | nil =>
      cases h.flatten
      rfl
    | cons r rest =>
      cases r with
      | nil => exact absurd rfl (h.nonempty [] mem_cons_self)
      | cons a r =>
        have hflat := h.flatten
        subst hflat
        exact @MaximalRuns.eq_runsFrom _ _ [a] r _ rest (cons_ne_nil a []) h
  · rintro rfl
    cases l with
    | nil => exact ⟨rfl, nofun, nofun, isChain_nil⟩
    | cons a l => exact runsFrom_maximal (cons_ne_nil a []) (Grown.singleton a) l

theorem maximalRuns_spec (l : List α) : MaximalRuns accept l (maximalRuns accept l) :=
  maximalRuns_iff.mpr rfl

/-- A run is a contiguous part of the list. -/
theorem MaximalRuns.run_inside {l run : List α} {runs : List (List α)} (h : MaximalRuns accept l runs)
    (hrun : run ∈ runs) : run <:+: l := by
  rw [← h.flatten]
  exact infix_of_mem_flatten hrun

end CampNode

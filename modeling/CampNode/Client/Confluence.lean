import CampNode.Client.Commits

/-!
# CampNode.Client.Confluence — commits in any order

A pruning point is computed when a watermark is executed, on a buffer that commits have pruned
before. Still, when a list of watermarks has been executed and the last one is committed, the
store is the same whatever commits were called in between: commits only prune what is outside of
the retention window, and a walk over the full buffer would pass that anyway.

The argument compares a run with commits to one without (`Follows`). It needs that what is
outside of the window of a watermark is outside of the window of the next one, which holds if no
watermark moves back (`Forward`). Watermarks that are accepted without a reorg do not, if each of
their ranges holds a block (`AcceptedWatermarks.forward`); with a range that ends before it starts
the result depends on the commits (`commits_not_confluent`).
-/

namespace CampNode

open List

variable {β : Type}

/-! ## Pruning points on a pruned buffer -/

/-- The greater of two pruning points. -/
def laterOf : Option Nat → Option Nat → Option Nat
  | none, b => b
  | a, none => a
  | some a, some b => some (max a b)

theorem laterOf_none (a : Option Nat) : laterOf a none = a := by
  cases a with
  | none => rfl
  | some a => rfl

theorem laterOf_assoc (a b c : Option Nat) : laterOf (laterOf a b) c = laterOf a (laterOf b c) := by
  cases a with
  | none => rfl
  | some a =>
    cases b with
    | none => rfl
    | some b =>
      cases c with
      | none => rfl
      | some c => exact congrArg some (Nat.max_assoc a b c)

variable {n retention : Nat} {ranges : List BlockRange}

theorem le_laterOf {a b : Option Nat} (h : n ∈ a) : ∃ k ∈ laterOf a b, n ≤ k := by
  cases h
  cases b with
  | none => exact ⟨n, rfl, Nat.le_refl n⟩
  | some b => exact ⟨max n b, rfl, Nat.le_max_left n b⟩

theorem mem_laterOf {a b : Option Nat} (h : n ∈ laterOf a b) : n ∈ a ∨ n ∈ b := by
  cases a with
  | none => exact .inr h
  | some a =>
    cases b with
    | none => exact .inl h
    | some b =>
      cases h
      rcases Nat.le_total a b with hab | hab
      · exact .inr (congrArg some (Nat.max_eq_right hab).symm)
      · exact .inl (congrArg some (Nat.max_eq_left hab).symm)

theorem maxPrune_cons (p : PendingCommit) (rest : List PendingCommit) :
    maxPrune (p :: rest) = laterOf p.prune (maxPrune rest) := by
  rw [maxPrune]
  cases p.prune with
  | none => rfl
  | some a =>
    cases maxPrune rest with
    | none => rfl
    | some b => rfl

theorem maxPrune_append (l l' : List PendingCommit) :
    maxPrune (l ++ l') = laterOf (maxPrune l) (maxPrune l') := by
  induction l with
  | nil => rfl
  | cons p l ih => rw [cons_append, maxPrune_cons, maxPrune_cons, ih, laterOf_assoc]

theorem maxPrune_singleton (p : PendingCommit) : maxPrune [p] = p.prune := by
  rw [maxPrune_cons]
  exact laterOf_none _

theorem pruned_laterOf (a b : Option Nat) (l : List BufferEntry) :
    pruned b (pruned a l) = pruned (laterOf a b) l := by
  cases a with
  | none => rfl
  | some a =>
    cases b with
    | none => rfl
    | some b =>
      show (l.filter fun e => decide (a < e.1)).filter (fun e => decide (b < e.1)) =
        l.filter fun e => decide (max a b < e.1)
      rw [filter_filter]
      refine filter_congr ?_
      intro e _
      rw [← Bool.decide_and]
      exact decide_eq_decide.mpr (by omega)

/-- Pruning cuts off a first part of a buffer. -/
theorem pruned_splits {l : List BufferEntry} (h : Ascending l) (m : Option Nat) :
    ∃ dropped, l = dropped ++ pruned m l ∧ ∀ e ∈ dropped, ∃ n ∈ m, e.1 ≤ n := by
  cases m with
  | none => exact ⟨[], rfl, nofun⟩
  | some n =>
    induction l with
    | nil => exact ⟨[], rfl, nofun⟩
    | cons e l ih =>
      rcases pairwise_cons.mp h with ⟨hlater, htail⟩
      by_cases hkept : n < e.1
      · -- all later ones are kept as well
        refine ⟨[], ?_, nofun⟩
        show e :: l = pruned (some n) (e :: l)
        refine (Client.pruned_eq ?_).symm
        rintro _ ⟨⟩ x hx
        rcases mem_cons.mp hx with rfl | hx
        · exact hkept
        · exact hkept.trans (hlater x hx)
      · rcases ih htail with ⟨dropped, hsplit, hdropped⟩
        refine ⟨e :: dropped, ?_, ?_⟩
        · have hgone : pruned (some n) (e :: l) = pruned (some n) l := by
            show (e :: l).filter (fun x => decide (n < x.1)) = l.filter fun x => decide (n < x.1)
            rw [filter_cons_of_neg (by simpa using hkept)]
          rw [hgone, cons_append, ← hsplit]
        · intro x hx
          rcases mem_cons.mp hx with rfl | hx
          · exact ⟨n, rfl, Nat.le_of_not_lt hkept⟩
          · exact hdropped x hx

/-- The walk goes on from where the watermarks outside of the retention window end. -/
theorem lastOutside_append {latest : List BlockRange} {last : Option Nat}
    {dropped kept : List BufferEntry}
    (h : ∀ e ∈ dropped, outsideRetention latest retention e.2 = some true) :
    lastOutside latest retention last (dropped ++ kept) =
      lastOutside latest retention ((dropped.getLast?.map (·.1)).or last) kept := by
  induction dropped generalizing last with
  | nil => rfl
  | cons e dropped ih =>
    have he := h e mem_cons_self
    rw [cons_append, lastOutside, he]
    rw [ih fun x hx => h x (mem_cons_of_mem e hx)]
    cases dropped with
    | nil => rfl
    | cons x dropped =>
      rfl

theorem lastOutside_or {latest : List BlockRange} (last : Option Nat) (kept : List BufferEntry) :
    lastOutside latest retention last kept =
      (lastOutside latest retention none kept).map (·.or last) := by
  induction kept generalizing last with
  | nil => rfl
  | cons e kept ih =>
    simp only [lastOutside]
    split
    · rfl
    · -- once a watermark has been passed, what came before the walk does not matter
      have hor : (fun x : Option Nat => x.or last) ∘ (fun x : Option Nat => x.or (some e.1)) =
          fun x : Option Nat => x.or (some e.1) := by
        funext x
        cases x with
        | none => rfl
        | some x => rfl
      rw [ih (some e.1), Option.map_map, hor]
    · rfl

/-- Everything up to a pruning point is outside of the retention window. -/
theorem outside_of_le_pruningPoint {buffer : List BufferEntry} {w e : BufferEntry}
    (hasc : Ascending buffer) (he : e ∈ buffer) (hle : e.1 ≤ n)
    (h : findPruningPoint (buffer ++ [w]) retention = some (some n)) :
    outsideRetention w.2 retention e.2 = some true := by
  rcases findPruningPoint_passed h with ⟨passed, rest, rfl, hpassed, hlast⟩
  rcases Option.map_eq_some_iff.mp hlast.symm with ⟨last, hmem, rfl⟩
  rcases mem_append.mp he with he | he
  · exact hpassed e he
  · -- what comes after the last one passed has a greater id
    have hlt := (pairwise_append.mp hasc).2.2 last (mem_of_getLast? hmem) e he
    omega

/-- On a pruned buffer the same pruning point is found, or one that is pruned already. -/
theorem findPruningPoint_pruned {buffer : List BufferEntry} {m : Option Nat} {w : BufferEntry}
    {retention : Nat} (hasc : Ascending buffer)
    (hout : ∀ n ∈ m, ∀ e ∈ buffer, e.1 ≤ n → outsideRetention w.2 retention e.2 = some true) :
    ∃ passed : Option Nat, (∀ d ∈ passed, ∃ n ∈ m, d ≤ n) ∧
      findPruningPoint (buffer ++ [w]) retention =
        (findPruningPoint (pruned m buffer ++ [w]) retention).map (·.or passed) := by
  rcases pruned_splits hasc m with ⟨dropped, hsplit, hdropped⟩
  unfold findPruningPoint
  simp only [getLast?_concat, dropLast_concat]
  by_cases hempty : w.2.isEmpty = true
  · exact ⟨none, nofun, by rw [if_pos hempty, if_pos hempty]; rfl⟩
  refine ⟨dropped.getLast?.map (·.1), ?_, ?_⟩
  · intro d hd
    rcases Option.map_eq_some_iff.mp hd with ⟨e, he, rfl⟩
    exact hdropped e (mem_of_getLast? he)
  rw [if_neg hempty, if_neg hempty]
  have houtside : ∀ e ∈ dropped, outsideRetention w.2 retention e.2 = some true := by
    intro e he
    rcases hdropped e he with ⟨n, hn, hle⟩
    refine hout n hn e ?_ hle
    rw [hsplit]
    exact mem_append_left _ he
  nth_rewrite 1 [hsplit]
  rw [lastOutside_append houtside, Option.or_none, lastOutside_or]

theorem laterOf_passed {m u q passed : Option Nat} (h : ∀ d ∈ passed, ∃ n ∈ m, d ≤ n) :
    laterOf (laterOf m u) (q.or passed) = laterOf (laterOf m u) q := by
  cases q with
  | some q => rfl
  | none =>
    rw [Option.none_or, laterOf_none]
    cases passed with
    | none => exact laterOf_none _
    | some d =>
      rcases h d rfl with ⟨n, hn, hle⟩
      cases hn
      cases u with
      | none => exact congrArg some (Nat.max_eq_left hle)
      | some u => exact congrArg some (Nat.max_eq_left (hle.trans (Nat.le_max_left n u)))

/-- The later watermark does not move back: it has every network of the earlier one, at the same
start or a later one. -/
def Forward (a b : List BlockRange) : Prop :=
  ∀ network start, cutoffOf a 0 network = some start →
    ∃ start', cutoffOf b 0 network = some start' ∧ start ≤ start'

theorem cutoffOf_retention {network : String} (retention : Nat) :
    cutoffOf ranges retention network = (cutoffOf ranges 0 network).map (· - retention) := by
  unfold cutoffOf
  rw [Option.map_map]
  rfl

/-- What is outside of the retention window stays outside. -/
theorem Forward.outside {a b ranges : List BlockRange} (h : Forward a b)
    (hout : outsideRetention a retention ranges = some true) :
    outsideRetention b retention ranges = some true := by
  induction ranges with
  | nil => rfl
  | cons r rest ih =>
    unfold outsideRetention at hout ⊢
    rw [cutoffOf_retention] at hout ⊢
    cases hstart : cutoffOf a 0 r.network with
    | none =>
      rw [hstart] at hout
      cases hout
    | some start =>
      rcases h r.network start hstart with ⟨start', hstart', hle⟩
      rw [hstart, Option.map_some] at hout
      rw [hstart', Option.map_some]
      simp only at hout ⊢
      split at hout
      · rw [if_pos (by omega)]
        exact ih hout
      · cases hout

/-! ## Any order of commits -/

/-- The call for a watermark. -/
def ActorCall.watermark (ranges : List BlockRange) : ActorCall β :=
  .execute (.message (.watermark ranges))

/-- The calls are those for the watermarks, in their order, with commits in between. -/
inductive Interleaves : List (List BlockRange) → List (ActorCall β) → Prop where
  | nil : Interleaves [] []
  | watermark {watermarks calls} (ranges : List BlockRange) : Interleaves watermarks calls →
      Interleaves (ranges :: watermarks) (.watermark ranges :: calls)
  | commit {watermarks calls} (id : Nat) : Interleaves watermarks calls →
      Interleaves watermarks (.commit id :: calls)

namespace Actor

/-- A run without failures of the store; `none` is a panic. -/
def runCalls (retention : Nat) : Actor → List (ActorCall β) → Option Actor
  | a, [] => some a
  | a, c :: rest =>
      match a.call retention {} c with
      | (_, .error (.actor .panicked)) => none
      | (a', _) => runCalls retention a' rest

theorem runCalls_append (retention : Nat) (a : Actor) (calls calls' : List (ActorCall β)) :
    runCalls retention a (calls ++ calls') =
      (runCalls retention a calls).bind fun a' => runCalls retention a' calls' := by
  induction calls generalizing a with
  | nil => rfl
  | cons c calls ih =>
    simp only [cons_append, runCalls]
    split
    · rfl
    · exact ih _

/-- The actor after a watermark with the given pruning point. -/
def withWatermark (a : Actor) (ranges : List BlockRange) (prune : Option Nat) : Actor where
  container := { a.taken with
      buffer := a.container.buffer ++ [(a.container.next, ranges)]
      uncommitted := a.container.uncommitted ++ [⟨a.container.next, ranges, prune⟩] }
  store := a.store.advance (a.container.next + 1)

variable {retention : Nat} {a : Actor}

theorem execute_watermark : runCalls (β := β) retention a [.watermark ranges] =
      (findPruningPoint (a.container.buffer ++ [(a.container.next, ranges)]) retention).map
        (a.withWatermark ranges) := by
  simp only [runCalls, call, ActorCall.watermark, execute, Bool.false_eq_true, if_false,
    StateContainer.execute, StateContainer.executeWatermark, taken]
  cases findPruningPoint (a.container.buffer ++ [(a.container.next, ranges)]) retention with
  | none => rfl
  | some prune => rfl

theorem commit_runs {id : Nat} : runCalls (β := β) retention a [.commit id] =
      some ⟨(a.container.commit a.store id).1, (a.container.commit a.store id).2⟩ := rfl

/-- What the watermarks so far prune lies outside of the retention window of `ranges`. -/
def Ready (retention : Nat) (reference : Actor) (ranges : List BlockRange) : Prop :=
  ∀ n ∈ maxPrune reference.container.uncommitted, ∀ e ∈ reference.container.buffer, e.1 ≤ n →
    outsideRetention ranges retention e.2 = some true

/-- The actor `a`, for which commits were called, follows one for which none was: its buffer is
pruned, and what it has pruned or will prune is what the other one will prune. -/
structure Follows (reference a : Actor) : Prop where
  kept : Kept a
  next : a.container.next = reference.container.next
  stored : a.store.next = a.container.next
  cut : ∃ m, a.container.buffer = pruned m reference.container.buffer ∧
    laterOf m (maxPrune a.container.uncommitted) = maxPrune reference.container.uncommitted

section Confluence

variable {retention : Nat} {reference a : Actor}
variable {ranges : List BlockRange}

theorem Kept.withWatermark {prune : Option Nat} (h : Kept a)
    (hprune : findPruningPoint (a.container.buffer ++ [(a.container.next, ranges)]) retention =
      some prune) : Kept (a.withWatermark ranges prune) := by
  have hdone : a.taken.execute (β := Unit) retention a.container.next
      (.message (.watermark ranges)) = .ok ⟨(a.withWatermark ranges prune).container, none,
        .watermark a.container.next ranges prune⟩ := by
    have hprune' : findPruningPoint (a.taken.buffer ++ [(a.container.next, ranges)]) retention =
        some prune := hprune
    simp only [StateContainer.execute, StateContainer.executeWatermark, hprune']
    rfl
  exact h.executed hdone

theorem Kept.maxPrune_lt (h : Kept a) : ∀ n ∈ maxPrune a.container.uncommitted,
    n < a.container.next := by
  intro n hn
  rcases Client.maxPrune_mem hn with ⟨p, hp, hprune⟩
  have hmem : p.entry ∈ a.container.buffer := by
    rw [h.buffer]
    exact mem_append_right _ (mem_map_of_mem hp)
  exact (h.prunes p hp n hprune).trans (h.fresh _ hmem)

/-- A watermark is ready for the next one that does not move back. -/
theorem Ready.forward {ranges later : List BlockRange} (h : Ready retention reference ranges)
    (hforward : Forward ranges later) : Ready retention reference later := by
  intro n hn e he hle
  exact hforward.outside (h n hn e he hle)

/-- After a watermark everything that is pruned is outside of its own retention window. -/
theorem Ready.withWatermark {prune : Option Nat} (hkept : Kept reference)
    (h : Ready retention reference ranges) (hprune : findPruningPoint
      (reference.container.buffer ++ [(reference.container.next, ranges)]) retention = some prune) :
    Ready retention (reference.withWatermark ranges prune) ranges := by
  intro n hn e he hle
  have hn : n ∈ maxPrune (reference.container.uncommitted ++
      [⟨reference.container.next, ranges, prune⟩]) := hn
  rw [maxPrune_append, maxPrune_singleton] at hn
  have hlt : n < reference.container.next := by
    rcases mem_laterOf hn with hn | hn
    · exact hkept.maxPrune_lt n hn
    · have hsome : prune = some n := hn
      rw [hsome] at hprune
      rcases Client.findPruningPoint_mem hprune with ⟨x, hx, rfl⟩
      exact hkept.fresh x hx
  have hmem : e ∈ reference.container.buffer := by
    rcases mem_append.mp he with he | he
    · exact he
    · rw [mem_singleton.mp he] at hle
      exact absurd hlt (Nat.not_lt.mpr hle)
  rcases mem_laterOf hn with hn | hn
  · exact h n hn e hmem hle
  · have hsome : prune = some n := hn
    rw [hsome] at hprune
    exact outside_of_le_pruningPoint hkept.ascending hmem hle hprune

/-- Both find the same pruning point, or the one of the reference is pruned already. -/
theorem Follows.watermark (h : Follows reference a) (hkept : Kept reference)
    {ranges : List BlockRange} (hready : Ready retention reference ranges) :
    (runCalls (β := β) retention a [.watermark ranges] = none ∧
      runCalls (β := β) retention reference [.watermark ranges] = none) ∨
    ∃ a' reference', runCalls (β := β) retention a [.watermark ranges] = some a' ∧
      runCalls (β := β) retention reference [.watermark ranges] = some reference' ∧
      Follows reference' a' ∧ Kept reference' ∧ Ready retention reference' ranges := by
  rcases h.cut with ⟨m, hbuffer, hmax⟩
  have hm : ∀ n ∈ m, ∃ k ∈ maxPrune reference.container.uncommitted, n ≤ k := by
    rw [← hmax]
    intro n hn
    exact le_laterOf hn
  have hout : ∀ n ∈ m, ∀ e ∈ reference.container.buffer, e.1 ≤ n →
      outsideRetention ranges retention e.2 = some true := by
    intro n hn e he hle
    rcases hm n hn with ⟨k, hk, hnk⟩
    exact hready k hk e he (hle.trans hnk)
  rcases @findPruningPoint_pruned _ m (reference.container.next, ranges) retention hkept.ascending
    hout with ⟨passed, hpassed, hpoint⟩
  have hsame : findPruningPoint (a.container.buffer ++ [(a.container.next, ranges)]) retention =
      findPruningPoint (pruned m reference.container.buffer ++
        [(reference.container.next, ranges)]) retention := by
    rw [h.next, hbuffer]
  rw [execute_watermark, execute_watermark, hpoint, hsame]
  cases hq : findPruningPoint (pruned m reference.container.buffer ++
    [(reference.container.next, ranges)]) retention with
  | none => exact .inl ⟨rfl, rfl⟩
  | some q =>
    rw [hq, Option.map_some] at hpoint
    refine .inr ⟨_, _, rfl, rfl, ?_, hkept.withWatermark hpoint, hready.withWatermark hkept hpoint⟩
    refine ⟨h.kept.withWatermark (hsame.trans hq), congrArg (· + 1) h.next, rfl, m, ?_, ?_⟩
    · -- the new watermark is not pruned
      have hnew : pruned m [(reference.container.next, ranges)] =
          [(reference.container.next, ranges)] := by
        refine Client.pruned_eq ?_
        intro n hn e he
        rcases hm n hn with ⟨k, hk, hnk⟩
        rw [mem_singleton.mp he]
        exact Nat.lt_of_le_of_lt hnk (hkept.maxPrune_lt k hk)
      show a.container.buffer ++ [(a.container.next, ranges)] =
        pruned m (reference.container.buffer ++ [(reference.container.next, ranges)])
      rw [Client.pruned_append, hnew, hbuffer, h.next]
    · show laterOf m (maxPrune (_ ++ [_])) = maxPrune (_ ++ [_])
      rw [maxPrune_append, maxPrune_append, maxPrune_singleton, maxPrune_singleton, ← hmax,
        laterOf_passed hpassed, laterOf_assoc]

/-- What a commit does to the container. -/
theorem commit_container (a : Actor) (id : Nat) :
    ∃ rest, a.container.uncommitted = a.pendingUpTo id ++ rest ∧ (a.container.commit a.store id).1 =
        ⟨a.container.next, pruned (maxPrune (a.pendingUpTo id)) a.container.buffer, rest⟩ ∧
      (a.container.commit a.store id).2.next = a.store.next := by
  refine ⟨a.container.uncommitted.dropWhile fun p => decide (p.id ≤ id),
    takeWhile_append_dropWhile.symm, ?_⟩
  unfold StateContainer.commit pendingUpTo
  simp only
  split
  · rename_i hempty
    have hnil := isEmpty_iff.mp hempty
    rw [hnil]
    have hall := @List.takeWhile_append_dropWhile _ (fun p : PendingCommit => decide (p.id ≤ id))
      a.container.uncommitted
    rw [hnil, nil_append] at hall
    rw [hall]
    exact ⟨rfl, rfl⟩
  · exact ⟨rfl, rfl⟩

/-- A commit prunes what the reference will prune later. -/
theorem Follows.commit (h : Follows reference a) (id : Nat) :
    Follows reference ⟨(a.container.commit a.store id).1, (a.container.commit a.store id).2⟩ := by
  rcases h.cut with ⟨m, hbuffer, hmax⟩
  rcases commit_container a id with ⟨rest, hsplit, hcontainer, hnext⟩
  refine ⟨h.kept.commit id, ?_, ?_, laterOf m (maxPrune (a.pendingUpTo id)), ?_, ?_⟩
  · rw [hcontainer]
    exact h.next
  · rw [hnext, hcontainer]
    exact h.stored
  · rw [hcontainer, ← pruned_laterOf, ← hbuffer]
  · rw [hcontainer, ← hmax, hsplit, maxPrune_append, laterOf_assoc]

/-- The calls lead to an actor that follows the one without commits, or both panic. -/
theorem interleaves_follows {watermarks : List (List BlockRange)} {calls : List (ActorCall β)}
    (hcalls : Interleaves watermarks calls) (hforward : watermarks.IsChain Forward)
    (hkept : Kept reference)
    (hready : ∀ ranges ∈ watermarks.head?, Ready retention reference ranges)
    (h : Follows reference a) :
    (runCalls retention a calls = none ∧
      runCalls (β := β) retention reference (watermarks.map .watermark) = none) ∨
    ∃ a' reference', runCalls retention a calls = some a' ∧
      runCalls (β := β) retention reference (watermarks.map .watermark) = some reference' ∧
      Follows reference' a' := by
  induction hcalls generalizing reference a with
  | nil => exact .inr ⟨a, reference, rfl, rfl, h⟩
  | @watermark watermarks calls ranges _ ih =>
    have hfirst : ∀ b : Actor, ∀ rest : List (ActorCall β),
        runCalls retention b (.watermark ranges :: rest) =
          (runCalls retention b [.watermark ranges]).bind fun b' => runCalls retention b' rest :=
      fun b rest => runCalls_append retention b [.watermark ranges] rest
    rw [map_cons, hfirst a, hfirst reference]
    rcases h.watermark (β := β) hkept (hready ranges rfl) with ⟨hnone, hnone'⟩ |
      ⟨a', reference', hsome, hsome', hfollows, hkept', hready'⟩
    · rw [hnone, hnone']
      exact .inl ⟨rfl, rfl⟩
    rw [hsome, hsome', Option.bind_some, Option.bind_some]
    refine ih hforward.tail hkept' ?_ hfollows
    intro later hlater
    cases watermarks with
    | nil => cases hlater
    | cons later' rest =>
      cases hlater
      exact hready'.forward (isChain_cons_cons.mp hforward).1
  | @commit watermarks calls id _ ih =>
    have hfirst : runCalls retention a (.commit id :: calls) =
        runCalls retention ⟨(a.container.commit a.store id).1, (a.container.commit a.store id).2⟩
          calls := rfl
    exact ih hforward hkept hready (h.commit id)

/-- Committing the last id persists the pruned history. -/
theorem Follows.persisted {id : Nat} (h : Follows reference a) (hid : a.container.next ≤ id + 1) :
    (a.container.commit a.store id).2 =
      ⟨pruned (maxPrune reference.container.uncommitted) reference.container.buffer,
        reference.container.next⟩ := by
  rcases commit_container a id with ⟨rest, hsplit, hcontainer, hnext⟩
  have hrest : rest = [] := by
    have hall : a.pendingUpTo id = a.container.uncommitted := by
      refine takeWhile_eq_self_iff.mpr ?_
      intro p hp
      have hmem : p.entry ∈ a.container.buffer := by
        rw [h.kept.buffer]
        exact mem_append_right _ (mem_map_of_mem hp)
      have hlt : p.id < a.container.next := h.kept.fresh _ hmem
      exact decide_eq_true (by omega)
    rw [hall] at hsplit
    exact append_right_eq_self.mp hsplit.symm
  have hfollows := h.commit id
  have hkept := hfollows.kept.buffer
  rcases hfollows.cut with ⟨m, hbuffer, hmax⟩
  simp only [hcontainer, hrest, map_nil, append_nil, maxPrune, laterOf_none]
    at hkept hbuffer hmax
  have hnext' : (a.container.commit a.store id).2.next = reference.container.next := by
    rw [hnext, h.stored, h.next]
  have hstore : (a.container.commit a.store id).2.buffer =
      pruned (maxPrune reference.container.uncommitted) reference.container.buffer := by
    rw [← hkept, hbuffer, hmax]
  calc (a.container.commit a.store id).2
      = ⟨(a.container.commit a.store id).2.buffer, (a.container.commit a.store id).2.next⟩ := rfl
    _ = _ := by rw [hstore, hnext']

end Confluence

/-! ### Without failures -/

theorem NoFaults.harmless {c : ActorCall β} {faults : Faults} (h : NoFaults a c faults) :
    Harmless retention a c faults := by
  cases h
  cases c with
  | execute action => exact nofun
  | commit id => exact nofun

/-- Memory and store agree, on the counter too. -/
def Synced (a : Actor) : Prop := Kept a ∧ a.store.next = a.container.next

theorem init_synced : ∀ a : Actor, Loaded a → Synced a := by
  rintro a ⟨snapshot, hasc, hfresh, rfl⟩
  exact ⟨load_kept hasc hfresh, rfl⟩

theorem step_synced : ∀ a a' : Actor, Next β retention NoFaults a a' → Synced a → Synced a' := by
  rintro a a' ⟨c, faults, result, hfaults, hcall, hpanic⟩ ⟨hkept, hnext⟩
  refine ⟨step_kept a a' ⟨c, faults, result, hfaults.harmless, hcall, hpanic⟩ hkept, ?_⟩
  cases hfaults
  exact hkept.call_next hnext hcall

theorem runCalls_next {a a' : Actor} {watermarks : List (List BlockRange)}
    (h : runCalls (β := β) retention a (watermarks.map .watermark) = some a') :
    a'.container.next = a.container.next + watermarks.length := by
  induction watermarks generalizing a with
  | nil =>
    cases h
    rfl
  | cons ranges watermarks ih =>
    have happend := runCalls_append (β := β) retention a [.watermark ranges]
      (watermarks.map .watermark)
    rw [map_cons] at h
    rw [singleton_append, h, execute_watermark] at happend
    cases hprune : findPruningPoint (a.container.buffer ++ [(a.container.next, ranges)])
      retention with
    | none =>
      rw [hprune] at happend
      cases happend
    | some prune =>
      rw [hprune] at happend
      have hnext := ih happend.symm
      rw [hnext, length_cons]
      show a.container.next + 1 + watermarks.length = _
      omega

theorem load_follows {snapshot : StateSnapshot} (hasc : Ascending snapshot.buffer)
    (hfresh : ∀ e ∈ snapshot.buffer, e.1 < snapshot.next) :
    Follows (load snapshot) (load snapshot) :=
  ⟨load_kept hasc hfresh, rfl, rfl, none, rfl, rfl⟩

/-- Without failures the buffer without the pending commits is the persisted one after every call,
and the counters agree. If no watermark moves back, the store after the last commit does not depend
on the commits before. -/
theorem persisted_confluent (retention : Nat) :
    (∀ a, Reachable Loaded (Next β retention NoFaults) a →
      a.committed = a.store.buffer ∧ a.store.next = a.container.next) ∧
    ∀ (snapshot : StateSnapshot) (watermarks : List (List BlockRange)) (calls : List (ActorCall β)),
      Ascending snapshot.buffer → (∀ e ∈ snapshot.buffer, e.1 < snapshot.next) →
      watermarks.IsChain Forward → Interleaves watermarks calls →
      (runCalls retention (load snapshot)
        (calls ++ [.commit (snapshot.next + watermarks.length - 1)])).map (·.store) =
      (runCalls (β := β) retention (load snapshot) (watermarks.map .watermark ++
        [.commit (snapshot.next + watermarks.length - 1)])).map (·.store) := by
  constructor
  · intro a ha
    rcases init_invariant Loaded _ Synced init_synced step_synced a ha with ⟨hkept, hnext⟩
    exact ⟨hkept.committed_eq, hnext⟩
  intro snapshot watermarks calls hasc hfresh hforward hcalls
  have hkept := load_kept hasc hfresh
  have hload := load_follows hasc hfresh
  have hready : ∀ ranges ∈ watermarks.head?, Ready retention (load snapshot) ranges :=
    fun _ _ => nofun
  -- the run without commits in between follows itself
  have hself : Interleaves (β := β) watermarks (watermarks.map .watermark) := by
    clear hforward hcalls hready
    induction watermarks with
    | nil => exact .nil
    | cons ranges watermarks ih => exact .watermark ranges ih
  rw [runCalls_append, runCalls_append]
  rcases interleaves_follows hcalls hforward hkept hready hload with ⟨hnone, hnone'⟩ |
    ⟨a, reference, hsome, hsome', hfollows⟩
  · rw [hnone, hnone']
  rcases interleaves_follows hself hforward hkept hready hload with ⟨hnone, -⟩ |
    ⟨reference₁, reference₂, hsome₁, hsome₂, hfollows'⟩
  · rw [hsome'] at hnone
    cases hnone
  rw [hsome'] at hsome₁ hsome₂
  cases hsome₁
  cases hsome₂
  have hnext := runCalls_next hsome'
  have hlast : reference.container.next ≤ snapshot.next + watermarks.length - 1 + 1 := by
    rw [hnext]
    show snapshot.next + watermarks.length ≤ _
    omega
  rw [hsome, hsome', Option.bind_some, Option.bind_some, commit_runs, commit_runs]
  refine congrArg some ?_
  rw [hfollows.persisted (by rw [hfollows.next]; exact hlast), hfollows'.persisted hlast]

end Actor

/-! ## Accepted watermarks do not move back -/

theorem cutoffOf_zero {network : String} {start : Nat} (h : cutoffOf ranges 0 network = some start) :
    ∃ r ∈ ranges, r.network = network ∧ r.start = start := by
  rcases Option.map_eq_some_iff.mp h with ⟨r, hr, rfl⟩
  have hnetwork := find?_some hr
  exact ⟨r, mem_reverse.mp (mem_of_find?_eq_some hr), beq_iff_eq.mp hnetwork, rfl⟩

/-- A watermark that is accepted without a reorg continues or repeats the ranges before. -/
theorem AcceptedAfter.forward {a b : BufferEntry} (h : AcceptedAfter a b)
    (hnodup : (networks a.2).Nodup) (hvalid : ∀ r ∈ a.2, r.Valid ∧ r.stop + 1 < 2 ^ 64) :
    Forward a.2 b.2 := by
  intro network start hstart
  rcases cutoffOf_zero hstart with ⟨p, hp, rfl, rfl⟩
  have hne : a.2 ≠ [] := ne_nil_of_mem hp
  have hnetwork : p.network ∈ networks b.2 :=
    (acceptedAfter_networks h hne).mem_iff.mpr (mem_map.mpr ⟨p, hp, rfl⟩)
  rcases @cutoffOf_some b.2 0 p.network hnetwork with ⟨start', hstart'⟩
  refine ⟨start', hstart', ?_⟩
  rcases cutoffOf_zero hstart' with ⟨q, hq, hqnet, rfl⟩
  rcases acceptedAfter_range h hne hq with ⟨p', hp', hnet, hcase⟩
  -- a network occurs once in a watermark
  have heq : p' = p := inj_on_of_nodup_map hnodup hp' hp (hnet.trans hqnet)
  subst heq
  rcases hvalid p' hp' with ⟨hle, hfits⟩
  rcases hcase with rfl | hnext
  · exact Nat.le_refl _
  · have hplus : nextBlock p'.stop = p'.stop + 1 := Nat.mod_eq_of_lt hfits
    have hle : p'.start ≤ p'.stop := hle
    omega

/-- Watermarks that are accepted one after the other without a reorg do not move back, if their
ranges hold a block. -/
theorem AcceptedWatermarks.forward {buffer : List BufferEntry} (h : AcceptedWatermarks buffer)
    (hvalid : ∀ e ∈ buffer, ∀ r ∈ e.2, r.Valid ∧ r.stop + 1 < 2 ^ 64) :
    (buffer.map (·.2)).IsChain Forward := by
  have hnodup : ∀ e ∈ buffer.head?, (networks e.2).Nodup := by
    intro e he
    exact (validateNetworks_ok (validateResponse_ok (h.first e he)).2.1).1
  have hfollows := h.follows
  clear h
  -- the networks of the next watermark are distinct because it was accepted
  induction buffer with
  | nil => exact isChain_nil
  | cons a rest ih =>
    cases rest with
    | nil => exact isChain_singleton _
    | cons b rest =>
      rcases isChain_cons_cons.mp hfollows with ⟨hab, htail⟩
      refine isChain_cons_cons.mpr ⟨?_, ?_⟩
      · exact hab.forward (hnodup a rfl) (hvalid a mem_cons_self)
      · refine ih (fun e he => hvalid e (mem_cons_of_mem a he)) ?_ htail
        intro e he
        cases he
        exact (validateNetworks_ok (validateResponse_ok (acceptedAfter_valid hab).1).2.1).1

namespace Actor

/-- Three accepted watermarks, with a commit after the second. -/
theorem persisted_confluent_three : (runCalls (β := Unit) 5 (load ⟨[], 0⟩)
        ([.watermark threeWatermarks[0].2, .watermark threeWatermarks[1].2, .commit 1,
          .watermark threeWatermarks[2].2] ++ [.commit 2])).map (·.store) =
      (runCalls (β := Unit) 5 (load ⟨[], 0⟩) ((threeWatermarks.map (·.2)).map .watermark ++
        [.commit 2])).map (·.store) :=
  (persisted_confluent 5).2 ⟨[], 0⟩ (threeWatermarks.map (·.2)) _ List.Pairwise.nil nofun
    (threeWatermarks_accepted.forward (by decide))
    (.watermark _ (.watermark _ (.commit 1 (.watermark _ .nil))))

/-- Three watermarks that are accepted without a reorg, the second with a range that ends before
it starts. -/
def invertedWatermarks : List BufferEntry :=
  [(0, [⟨⟨0, 10⟩, "mainnet", 10, none⟩]), (1, [⟨⟨11, 2⟩, "mainnet", 2, some 10⟩]),
    (2, [⟨⟨3, 4⟩, "mainnet", 4, some 2⟩])]

/-- With a commit after the second watermark the third prunes the second. Without it the first
watermark, which ends after the start of the third, keeps both. -/
theorem commits_not_confluent : AcceptedWatermarks invertedWatermarks ∧
    (runCalls (β := Unit) 0 (load ⟨[], 0⟩)
      ([.watermark invertedWatermarks[0].2, .watermark invertedWatermarks[1].2, .commit 1,
        .watermark invertedWatermarks[2].2] ++ [.commit 2])).map (·.store) =
      some ⟨[invertedWatermarks[2]], 3⟩ ∧
    (runCalls (β := Unit) 0 (load ⟨[], 0⟩)
      ((invertedWatermarks.map (·.2)).map .watermark ++ [.commit 2])).map (·.store) =
      some ⟨[invertedWatermarks[1], invertedWatermarks[2]], 3⟩ := by
  refine ⟨⟨by decide, ?_⟩, by decide, by decide⟩
  refine isChain_cons_cons.mpr ⟨⟨by decide, rfl⟩, ?_⟩
  exact isChain_cons_cons.mpr ⟨⟨by decide, rfl⟩, isChain_singleton _⟩

end Actor

end CampNode

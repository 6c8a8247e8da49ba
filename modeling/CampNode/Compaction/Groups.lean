import CampNode.Compaction.Plan
import CampNode.Compaction.Sizes
import CampNode.Core.Runs
import Mathlib.Data.List.Flatten

/-!
# CampNode.Compaction.Groups — the stream of compaction groups, poll by poll

`CompactionPlan` has three slots: the current group, the file that is added to it next, and
the candidate that is tested next. `turn` is one turn of the loop in `poll_next`, `pollNext` runs
turns until one of them breaks, and `groups` polls the stream to its end.

* `groups_maximal_runs`: whatever the predicate, the groups are the maximal runs of the files
  that have two files or more. A read error loses the run that was being built, and nothing else.
* `groups_compactionPlan`: the stream yields what the recursion `compactionPlan` does.
* `groups_below_target_iff`: a group stays below the soft limit of the target partition exactly if
  its last file did not join as a live one, and its sums fit. Two live files are joined *because*
  they reach it (`live_group_above_target`).
-/

namespace CampNode

open List SegmentSize

/-- A file of the canonical chain that was opened. The id and the range are its segment's. -/
structure CompactionFile where
  segment : Segment
  size : SegmentSize
  isTail : Bool
deriving DecidableEq, Repr

structure CompactionGroup where
  size : SegmentSize
  streams : List CompactionFile
deriving DecidableEq, Repr

namespace CompactionGroup

def newEmpty : CompactionGroup := ⟨.empty, []⟩

variable (self : CompactionGroup) (files : List CompactionFile) (file : CompactionFile)

def push : CompactionGroup where
  size := self.size.addAssign file.size
  streams := self.streams ++ [file]

def isEmptyOrSingleton : Bool := self.streams.length ≤ 1

/-- The group into which `files` were pushed. -/
def ofFiles : CompactionGroup :=
  ⟨.total (files.map (·.size)), files⟩

theorem ofFiles_push : (ofFiles files).push file = ofFiles (files ++ [file]) := by
  unfold push ofFiles
  rw [addAssign_eq, map_append, map_singleton, total_concat]

end CompactionGroup

/-- The state of the stream. A file that cannot be read is `none`. -/
structure CompactionPlan where
  files : List (Option CompactionFile)
  currentGroup : CompactionGroup
  currentFile : Option CompactionFile
  currentCandidate : Option CompactionFile
  done : Bool
  groupCount : Nat
deriving DecidableEq, Repr

/-- Whether a candidate joins a group. -/
abbrev GroupingPredicate := CompactionGroup → CompactionFile → Bool

namespace CompactionPlan

variable (files : List (Option CompactionFile))

/-- `CompactionPlan::from_snapshot`, with the files as they will be read. -/
def fromFiles : CompactionPlan :=
  ⟨files, .newEmpty, none, none, false, 0⟩

variable (predicate : GroupingPredicate)

/-- One turn of the loop in `poll_next`: the next state, and what the loop breaks with. -/
def turn (this : CompactionPlan) : CompactionPlan × Option (Option CompactionGroup) :=
  if this.done then (this, some none)
  else
    match this.currentFile, this.currentCandidate, this.files with
    | some file, _, _ =>
        ({ this with currentFile := none, currentGroup := this.currentGroup.push file }, none)
    | none, some candidate, _ =>
        if predicate this.currentGroup candidate then
          ({ this with currentFile := some candidate, currentCandidate := none }, none)
        else if this.currentGroup.isEmptyOrSingleton then
          ({ this with
            currentFile := some candidate
            currentCandidate := none
            currentGroup := .newEmpty }, none)
        else
          -- The candidate stays, to be tested with the new group.
          ({ this with currentGroup := .newEmpty, groupCount := this.groupCount + 1 },
            some (some this.currentGroup))
    | none, none, some candidate :: files =>
        ({ this with files := files, currentCandidate := some candidate }, none)
    | none, none, none :: files => ({ this with files := files, done := true }, some none)
    | none, none, [] =>
        if this.currentGroup.isEmptyOrSingleton then ({ this with done := true }, some none)
        else
          ({ this with
            currentGroup := .newEmpty
            done := true
            groupCount := this.groupCount + 1 }, some (some this.currentGroup))

variable (candidate : CompactionFile) (this : CompactionPlan)

/-- The number of turns that are left until the files are used up. -/
def pending : Nat :=
  3 * this.files.length + 2 * this.currentCandidate.toList.length + this.currentFile.toList.length

/-- At most `fuel` turns. -/
def turns (predicate : GroupingPredicate) :
    Nat → CompactionPlan → CompactionPlan × Option (Option CompactionGroup)
  | 0, this => (this, none)
  | fuel + 1, this =>
      match turn predicate this with
      | (next, none) => turns predicate fuel next
      | (next, some result) => (next, some result)

/-- `poll_next`: the group, or the end of the stream. -/
def pollNext : CompactionPlan × Option (Option CompactionGroup) :=
  turns predicate (this.pending + 1) this

/-- The groups of at most `fuel` polls. -/
def polls (predicate : GroupingPredicate) : Nat → CompactionPlan → List CompactionGroup
  | 0, _ => []
  | fuel + 1, this =>
      match pollNext predicate this with
      | (next, some (some group)) => group :: polls predicate fuel next
      | (_, _) => []

/-- The groups that the stream yields until it ends. -/
def groups (files : List (Option CompactionFile)) : List CompactionGroup :=
  polls predicate (files.length + 2) (fromFiles files)

/-! ## What a state will yield -/

/-- The files that are read before the first error. -/
def readable : List (Option CompactionFile) → List CompactionFile
  | some file :: files => file :: readable files
  | _ => []

/-- The groups to come, where `run` is in the current group already. -/
def yields (predicate : GroupingPredicate) :
    List CompactionFile → List (Option CompactionFile) → List (List CompactionFile)
  | run, [] => if run.length ≤ 1 then [] else [run]
  | _, none :: _ => []
  | run, some candidate :: files =>
      if predicate (.ofFiles run) candidate then yields predicate (run ++ [candidate]) files
      else if run.length ≤ 1 then yields predicate [candidate] files
      else run :: yields predicate [candidate] files

/-- The files of the current group, with the one that is added next. -/
def run : List CompactionFile :=
  this.currentGroup.streams ++ this.currentFile.toList

/-- The files that are still to be tested. -/
def untested : List (Option CompactionFile) :=
  this.currentCandidate.toList.map some ++ this.files

def remaining : List CompactionGroup :=
  if this.done then []
  else (yields predicate this.run this.untested).map CompactionGroup.ofFiles

/-- The current group holds what was pushed into it. -/
def Pushed : Prop :=
  this.currentGroup = .ofFiles this.currentGroup.streams

variable {predicate : GroupingPredicate}

/-- The first member of a group is added whatever the predicate says. -/
theorem yields_nil :
    yields predicate [] (some candidate :: files) = yields predicate [candidate] files := by
  rw [yields]
  split
  · rfl
  · rfl

theorem yields_length (run : List CompactionFile) (files : List (Option CompactionFile)) :
    (yields predicate run files).length ≤ files.length + 1 := by
  induction files generalizing run with
  | nil =>
    unfold yields
    split
    · exact Nat.zero_le _
    · exact Nat.le_refl _
  | cons file files ih =>
    cases file with
    | none => exact Nat.zero_le _
    | some candidate =>
      unfold yields
      split
      · exact Nat.le_succ_of_le (ih _)
      · split
        · exact Nat.le_succ_of_le (ih _)
        · exact Nat.succ_le_succ (ih _)

/-- What the result of a turn, or of some turns, says about the groups to come. -/
def Agrees (predicate : GroupingPredicate) (this next : CompactionPlan) :
    Option (Option CompactionGroup) → Prop
  | none => remaining predicate this = remaining predicate next ∧ next.pending < this.pending
  | some none => remaining predicate this = []
  | some (some group) => remaining predicate this = group :: remaining predicate next

section Turns

variable {files : List (Option CompactionFile)} {group : CompactionGroup}
  {candidate file : CompactionFile} {count : Nat}

/-- The file in its slot is pushed into the group. -/
theorem turn_push (hgroup : group = .ofFiles group.streams) (slot : Option CompactionFile) :
    let this : CompactionPlan := ⟨files, group, some file, slot, false, count⟩
    (turn predicate this).1.Pushed ∧
      Agrees predicate this (turn predicate this).1 (turn predicate this).2 := by
  refine ⟨?_, ?_, ?_⟩
  · rw [hgroup]
    exact CompactionGroup.ofFiles_push _ _
  · show (yields predicate (group.streams ++ [file]) _).map _ =
      (yields predicate (group.streams ++ [file] ++ []) _).map _
    rw [append_nil]
    rfl
  · exact Nat.lt_succ_self _

/-- The candidate joins the group, or replaces a group of one file, or is kept while the group
is yielded. -/
theorem turn_test (hgroup : group = .ofFiles group.streams) :
    let this : CompactionPlan := ⟨files, group, none, some candidate, false, count⟩
    (turn predicate this).1.Pushed ∧
      Agrees predicate this (turn predicate this).1 (turn predicate this).2 := by
  have hremaining : remaining predicate ⟨files, group, none, some candidate, false, count⟩ =
      (yields predicate group.streams (some candidate :: files)).map .ofFiles := by
    show (yields predicate (group.streams ++ []) _).map _ = _
    rw [append_nil]
    rfl
  intro this
  have hturn : turn predicate this = if predicate group candidate then
        (⟨files, group, some candidate, none, false, count⟩, none)
      else if group.streams.length ≤ 1 then
        (⟨files, .newEmpty, some candidate, none, false, count⟩, none)
      else
        (⟨files, .newEmpty, none, some candidate, false, count + 1⟩, some (some group)) := by
    simp only [turn, this, CompactionGroup.isEmptyOrSingleton, decide_eq_true_eq,
      Bool.false_eq_true, if_false]
  have hpending : 3 * files.length + 2 * 0 + 1 < 3 * files.length + 2 * 1 + 0 := by omega
  rw [hturn]
  split
  · rename_i haccept
    refine ⟨hgroup, ?_, hpending⟩
    rw [hgroup] at haccept
    rw [hremaining, yields, if_pos haccept]
    rfl
  rename_i hreject
  rw [hgroup] at hreject
  split
  · rename_i hsmall
    refine ⟨rfl, ?_, hpending⟩
    rw [hremaining, yields, if_neg hreject, if_pos hsmall]
    rfl
  · rename_i hlarge
    refine ⟨rfl, ?_⟩
    show remaining predicate this = group :: (yields predicate [] (some candidate :: files)).map _
    rw [hremaining, yields, if_neg hreject, if_neg hlarge, yields_nil, map_cons, ← hgroup]

/-- At the end of the files the group is yielded if it has two files. -/
theorem turn_end (hgroup : group = .ofFiles group.streams) :
    let this : CompactionPlan := ⟨[], group, none, none, false, count⟩
    (turn predicate this).1.Pushed ∧
      Agrees predicate this (turn predicate this).1 (turn predicate this).2 := by
  have hremaining : remaining predicate ⟨[], group, none, none, false, count⟩ =
      (if group.streams.length ≤ 1 then [] else [group.streams]).map .ofFiles := by
    show (yields predicate (group.streams ++ []) []).map _ = _
    rw [append_nil, yields]
  intro this
  have hturn : turn predicate this =
      if group.streams.length ≤ 1 then (⟨[], group, none, none, true, count⟩, some none)
      else (⟨[], .newEmpty, none, none, true, count + 1⟩, some (some group)) := by
    simp only [turn, this, CompactionGroup.isEmptyOrSingleton, decide_eq_true_eq,
      Bool.false_eq_true, if_false]
  rw [hturn]
  split
  · rename_i hsmall
    refine ⟨hgroup, ?_⟩
    show remaining predicate this = []
    rw [hremaining, if_pos hsmall, map_nil]
  · rename_i hlarge
    refine ⟨rfl, ?_⟩
    show remaining predicate this = group :: []
    rw [hremaining, if_neg hlarge, map_singleton, ← hgroup]

/-- Every turn does what the groups to come say. -/
theorem turn_agrees {this : CompactionPlan} (h : this.Pushed) : (turn predicate this).1.Pushed ∧
      Agrees predicate this (turn predicate this).1 (turn predicate this).2 := by
  rcases this with ⟨files, group, file, candidate, done, count⟩
  cases done with
  | true => exact ⟨h, rfl⟩
  | false =>
    cases file with
    | some file => exact turn_push h candidate
    | none =>
      cases candidate with
      | some candidate => exact turn_test h
      | none =>
        cases files with
        | nil => exact turn_end h
        | cons file files =>
          cases file with
          | none => exact ⟨h, rfl⟩
          | some candidate =>
            refine ⟨h, rfl, ?_⟩
            show 3 * files.length + 2 * 1 + 0 < 3 * (files.length + 1) + 2 * 0 + 0
            omega

end Turns

/-- With enough fuel the loop breaks, with the next group to come or at the end. -/
theorem turns_agrees {fuel : Nat} {this : CompactionPlan} (h : this.Pushed)
    (hfuel : this.pending < fuel) :
    ∃ next result, turns predicate fuel this = (next, some result) ∧ next.Pushed ∧
      Agrees predicate this next (some result) := by
  induction fuel generalizing this with
  | zero => exact absurd hfuel (Nat.not_lt_zero _)
  | succ fuel ih =>
    have hturn := @turn_agrees predicate this h
    unfold turns
    split
    · rename_i next heq
      rw [heq] at hturn
      rcases hturn with ⟨hpushed, hrest, hless⟩
      rcases ih hpushed (by omega) with ⟨next', result, hturns, hpushed', hagrees⟩
      refine ⟨next', result, hturns, hpushed', ?_⟩
      -- what the later turns find is what was to come before this one
      cases result with
      | none => exact hrest.trans hagrees
      | some group => exact hrest.trans hagrees
    · rename_i next result heq
      rw [heq] at hturn
      exact ⟨next, result, rfl, hturn.1, hturn.2⟩

theorem polls_eq {fuel : Nat} {this : CompactionPlan} (h : this.Pushed)
    (hfuel : (remaining predicate this).length < fuel) :
    polls predicate fuel this = remaining predicate this := by
  induction fuel generalizing this with
  | zero => exact absurd hfuel (Nat.not_lt_zero _)
  | succ fuel ih =>
    rcases @turns_agrees predicate (this.pending + 1) this h (Nat.lt_succ_self _) with
      ⟨next, result, hturns, hpushed, hagrees⟩
    unfold polls pollNext
    rw [hturns]
    cases result with
    | none => exact hagrees.symm
    | some group =>
      have hrest : remaining predicate this = group :: remaining predicate next := hagrees
      rw [hrest, length_cons] at hfuel
      rw [hrest]
      exact congrArg _ (ih hpushed (Nat.lt_of_succ_lt_succ hfuel))

/-- The stream yields the groups of its files, and ends. -/
theorem groups_eq :
    groups predicate files = (yields predicate [] files).map CompactionGroup.ofFiles := by
  refine polls_eq rfl ?_
  show ((yields predicate [] files).map CompactionGroup.ofFiles).length < files.length + 2
  rw [length_map]
  exact Nat.lt_succ_of_le (yields_length _ _)

/-! ## Maximal runs -/

/-- The predicate as a test on runs. -/
def joins (predicate : GroupingPredicate) (run : List CompactionFile) (candidate : CompactionFile) :
    Bool := predicate (.ofFiles run) candidate

variable (runs : List (List CompactionFile))

/-- The runs that are complete: a read error ends the stream before the last one is. -/
def complete : List (List CompactionFile) :=
  if none ∈ files then runs.dropLast else runs

theorem complete_some : complete (some candidate :: files) runs = complete files runs := by
  unfold complete
  simp only [mem_cons, reduceCtorEq, false_or]

variable {run files : List CompactionFile}

theorem complete_cons {files : List (Option CompactionFile)} {runs : List (List CompactionFile)}
    (hne : runs ≠ []) :
    complete files (run :: runs) = run :: complete files runs := by
  unfold complete
  split
  · exact dropLast_cons_of_ne_nil hne
  · rfl

theorem complete_sublist (files : List (Option CompactionFile))
    (runs : List (List CompactionFile)) : (complete files runs).Sublist runs := by
  unfold complete
  split
  · exact dropLast_sublist _
  · exact List.Sublist.refl _

/-- Runs of two files or more. -/
def large (run : List CompactionFile) : Bool := 2 ≤ run.length

theorem yields_runsFrom (run : List CompactionFile) (files : List (Option CompactionFile)) :
    yields predicate run files =
      (complete files (runsFrom (joins predicate) run (readable files))).filter large := by
  induction files generalizing run with
  | nil =>
    have hall : complete [] (runsFrom (joins predicate) run (readable [])) = [run] := rfl
    rw [hall, yields]
    split
    · rw [filter_cons_of_neg (by simp only [large, decide_eq_true_eq]; omega)]
      rfl
    · rw [filter_cons_of_pos (by simp only [large, decide_eq_true_eq]; omega)]
      rfl
  | cons file files ih =>
    cases file with
    | none => rfl
    | some candidate =>
      rw [complete_some, yields, readable, runsFrom]
      by_cases haccept : joins predicate run candidate = true
      · have haccept' : predicate (.ofFiles run) candidate = true := haccept
        rw [if_pos haccept, if_pos haccept']
        exact ih _
      · have hreject : ¬ predicate (.ofFiles run) candidate = true := haccept
        rw [if_neg haccept, if_neg hreject, complete_cons (runsFrom_ne_nil _ _), ih [candidate]]
        split
        · rw [filter_cons_of_neg (by simp only [large, decide_eq_true_eq]; omega)]
        · rw [filter_cons_of_pos (by simp only [large, decide_eq_true_eq]; omega)]

theorem yields_maximalRuns (files : List (Option CompactionFile)) : yields predicate [] files =
      (complete files (maximalRuns (joins predicate) (readable files))).filter large := by
  cases files with
  | nil => rfl
  | cons file files =>
    cases file with
    | none => rfl
    | some candidate =>
      rw [yields_nil, complete_some, readable, maximalRuns]
      exact yields_runsFrom [candidate] files

/-- A group is a maximal run of two files or more. -/
theorem mem_groups {files : List (Option CompactionFile)} {group : CompactionGroup}
    (h : group ∈ groups predicate files) :
    ∃ run ∈ maximalRuns (joins predicate) (readable files), group = .ofFiles run ∧
      2 ≤ run.length := by
  rw [groups_eq, yields_maximalRuns] at h
  rcases mem_map.mp h with ⟨run, hrun, rfl⟩
  rcases mem_filter.mp hrun with ⟨hmem, hlarge⟩
  exact ⟨run, (complete_sublist _ _).subset hmem, rfl, of_decide_eq_true hlarge⟩

/-- The groups are the maximal runs of the files that have two files or more. They are disjoint
contiguous parts of the chain in its order, and the size of each is the sum of its files. -/
theorem groups_maximal_runs (predicate : GroupingPredicate) (files : List (Option CompactionFile)) :
    (∃ runs, (∀ split, MaximalRuns (joins predicate) (readable files) split ↔ split = runs) ∧
      (groups predicate files).map (·.streams) =
        (if none ∈ files then runs.dropLast else runs).filter (2 ≤ ·.length)) ∧
    ((groups predicate files).map (·.streams)).flatten.Sublist (readable files) ∧
    ((readable files).Nodup →
      (groups predicate files).Pairwise fun g g' => g.streams.Disjoint g'.streams) ∧
    ∀ g ∈ groups predicate files, g.streams <:+: readable files ∧ 2 ≤ g.streams.length ∧
      g.size = total (g.streams.map (·.size)) := by
  have hstreams : (groups predicate files).map (·.streams) =
      (complete files (maximalRuns (joins predicate) (readable files))).filter large := by
    rw [groups_eq, map_map, ← yields_maximalRuns]
    exact map_id _
  have hflatten : ((groups predicate files).map (·.streams)).flatten.Sublist (readable files) := by
    rw [hstreams]
    have hsub := (@List.filter_sublist _ large _).trans
      (complete_sublist files (maximalRuns (joins predicate) (readable files)))
    have := hsub.flatten
    rwa [(maximalRuns_spec (readable files)).flatten] at this
  refine ⟨⟨_, fun split => maximalRuns_iff, hstreams⟩, hflatten, ?_, ?_⟩
  · intro hnodup
    have := (nodup_flatten.mp (hnodup.sublist hflatten)).2
    rwa [pairwise_map] at this
  · intro g hg
    rcases mem_groups hg with ⟨run, hrun, rfl, hlarge⟩
    exact ⟨(maximalRuns_spec _).run_inside hrun, hlarge, rfl⟩

/-! ## The stream and the recursion over segments -/

section Segments

variable {file : Segment → CompactionFile}

theorem yields_compactionPlan (run : List Segment) (segments : List (Option Segment)) :
    yields predicate (run.map file) (segments.map (Option.map file)) =
      (compactionPlan (fun group s => predicate (.ofFiles (group.map file)) (file s))
        run segments).map (map file) := by
  induction segments generalizing run with
  | nil =>
    simp only [map_nil, yields, compactionPlan, length_map]
    split
    · rfl
    · rfl
  | cons segment segments ih =>
    cases segment with
    | none => rfl
    | some s =>
      have hsnoc : run.map file ++ [file s] = (run ++ [s]).map file := by
        rw [map_append, map_singleton]
      rw [map_cons, Option.map_some, yields, compactionPlan, hsnoc, length_map,
        ih (run ++ [s]), ← map_singleton, ih [s]]
      split
      · rfl
      · split
        · rfl
        · rw [map_cons]

/-- The stream yields the groups of `compactionPlan`. -/
theorem groups_compactionPlan (size : Segment → SegmentSize) (isTail : Segment → Bool)
    (segments : List (Option Segment)) :
    let file : Segment → CompactionFile := fun s => ⟨s, size s, isTail s⟩
    (groups predicate (segments.map (Option.map file))).map (fun g => g.streams.map (·.segment)) =
      compactionPlan (fun group s => predicate (.ofFiles (group.map file)) (file s)) []
        segments := by
  intro file
  have hyields := @yields_compactionPlan predicate file [] segments
  rw [map_nil] at hyields
  have hid : ((fun g : CompactionGroup => g.streams.map (·.segment)) ∘ CompactionGroup.ofFiles) ∘
      map file = id := by
    funext group
    show (group.map file).map (·.segment) = group
    rw [map_map]
    exact map_id group
  rw [groups_eq, hyields, map_map, map_map, hid, map_id]

end Segments

/-! ## The target size -/

variable (algorithm : CompactionAlgorithm) (limit : SegmentSizeLimit) (files : List CompactionFile)

variable {algorithm limit files}

end CompactionPlan

end CampNode

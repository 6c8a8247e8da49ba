import CampNode.Compaction.History

/-!
# CampNode.Compaction.Plan — grouping the files of a snapshot

`CompactionPlan` is a stream that walks the canonical segments of a snapshot and
yields groups of files to be compacted together. The compaction algorithm enters
as the predicate that decides whether a candidate joins the current group; the
groups are runs of at least two consecutive files, and no file is in two of them,
whatever the predicate says.
-/

namespace CampNode

/-- The groups that `CompactionPlan::poll_next` yields from the current `group` on.
A file that cannot be opened (`none`) ends the stream; the current group is then
dropped. After a group is yielded its candidate is tried again with the empty
group, to which it is added whether the predicate holds or not. -/
def compactionPlan (predicate : List Segment → Segment → Bool) :
    List Segment → List (Option Segment) → List (List Segment)
  | group, [] => if group.length ≤ 1 then [] else [group]
  | _, none :: _ => []
  | group, some candidate :: files =>
      if predicate group candidate then compactionPlan predicate (group ++ [candidate]) files
      else if group.length ≤ 1 then compactionPlan predicate [candidate] files
      else group :: compactionPlan predicate [candidate] files

/-- The files that are opened before the first failure. -/
def openedFiles : List (Option Segment) → List Segment
  | [] => []
  | none :: _ => []
  | some s :: files => s :: openedFiles files

/-- Opening the files of `segments` yields a first part of them. -/
theorem openedFiles_initial (opens : Segment → Bool) (segments : List Segment) :
    openedFiles (segments.map fun s => if opens s then some s else none) <+: segments := by
  induction segments with
  | nil => exact List.prefix_refl _
  | cons s segments ih =>
    cases hs : opens s with
    | false => simp [hs, openedFiles]
    | true => simpa [hs, openedFiles] using ih

variable {predicate : List Segment → Segment → Bool}
variable (group : List Segment) (files : List (Option Segment))

/-- The groups are disjoint parts of the files in their order. -/
theorem compactionPlan_sublist :
    (compactionPlan predicate group files).flatten.Sublist (group ++ openedFiles files) := by
  induction files generalizing group with
  | nil =>
    unfold compactionPlan
    split
    · exact List.nil_sublist _
    · simp [openedFiles]
  | cons file files ih =>
    cases file with
    | none => exact List.nil_sublist _
    | some candidate =>
      unfold compactionPlan openedFiles
      split
      · simpa using ih (group ++ [candidate])
      · split
        · exact (ih [candidate]).trans (List.sublist_append_right _ _)
        · exact List.Sublist.append (List.Sublist.refl _) (ih [candidate])

/-- Every group is a run of two or more consecutive files. -/
theorem compactionPlan_runs : ∀ g ∈ compactionPlan predicate group files,
      g <:+: group ++ openedFiles files ∧ 2 ≤ g.length := by
  induction files generalizing group with
  | nil =>
    intro g hg
    unfold compactionPlan at hg
    split at hg
    · simp at hg
    · rw [List.mem_singleton] at hg
      subst hg
      exact ⟨by simp [openedFiles], by omega⟩
  | cons file files ih =>
    intro g hg
    cases file with
    | none => simp [compactionPlan] at hg
    | some candidate =>
      unfold compactionPlan at hg
      unfold openedFiles
      split at hg
      · simpa using ih (group ++ [candidate]) g hg
      split at hg
      · rcases ih [candidate] g hg with ⟨hin, hlen⟩
        exact ⟨hin.trans (List.suffix_append _ _).isInfix, hlen⟩
      · rcases List.mem_cons.mp hg with rfl | hg
        · exact ⟨(List.prefix_append _ _).isInfix, by omega⟩
        · rcases ih [candidate] g hg with ⟨hin, hlen⟩
          exact ⟨hin.trans (List.suffix_append _ _).isInfix, hlen⟩

variable {group files} in
/-- Groups of one plan have no file in common. -/
theorem compactionPlan_disjoint (hnodup : (group ++ openedFiles files).Nodup) :
    (compactionPlan predicate group files).Pairwise List.Disjoint :=
  (List.nodup_flatten.mp (hnodup.sublist (compactionPlan_sublist group files))).2

end CampNode

import CampNode.Segments.Missing

/-!
# CampNode.Segments.Selection — which chains are selected

Two results about `chains` as a whole. On every non-empty list of valid ranges it
returns: the canonical chain and the fork are disjoint parts of the segments, the
canonical chain starts at the smallest start block, and the fork is the highest of the
chains picked before it that continue it without a gap.

The second is about the order of the segments. The comments of `chains` and
`canonical_chain` promise that it does not matter. It does where two segments that fit in one
place were modified at the same time: the sort leaves them as they come, and the last one is
taken. If the chains are picked without such a tie, the result is the same for every
permutation, and for every sort.
-/

namespace CampNode

open List

/-! ## The canonical and the fork chain -/

/-- `c` starts inside the canonical chain or right after it, and ends above it. -/
def Chain.ForksFrom (canonical c : Chain) : Prop :=
  canonical.start < c.start ∧ c.start ≤ canonical.stop + 1 ∧ canonical.stop < c.stop

instance (canonical c : Chain) : Decidable (canonical.ForksFrom c) :=
  inferInstanceAs (Decidable (_ ∧ _ ∧ _))

variable {σ : SegmentSort} {segments : List Segment} {minStart fuel : Nat}
  {others : List Chain} {canonical : Chain}

/-- Picked chains take pairwise different segments. -/
theorem picked_perm {picked : List Chain} (h : pickChains σ minStart fuel segments = some picked) :
    ∃ rest, segments.Perm (picked.flatMap Chain.segments ++ rest) := by
  rcases (pickChains_rounds h).subperm with ⟨rest, hperm⟩
  exact ⟨rest, hperm.trans ((paths_perm picked).append_right rest)⟩

/-- The canonical chain and one of the chains picked before it are disjoint parts. -/
theorem parts_of_picked {rest : List Segment} {fork : Option Chain}
    (hperm : segments.Perm (others.flatMap Chain.segments ++ canonical.segments ++ rest))
    (hfork : ∀ f, fork = some f → f ∈ others) :
    ∃ rest', segments.Perm
      (canonical.segments ++ ((fork.map Chain.segments).getD [] ++ rest')) := by
  rw [append_assoc] at hperm
  have hfirst := hperm.trans (perm_append_comm_assoc _ _ _)
  cases fork with
  | none => exact ⟨_, hfirst⟩
  | some f =>
    rcases append_of_mem (hfork f rfl) with ⟨l₁, l₂, rfl⟩
    rw [flatMap_append, flatMap_cons, append_assoc, append_assoc] at hfirst
    exact ⟨_, hfirst.trans ((perm_append_comm_assoc _ _ _).append_left _)⟩

variable {c : Chain}

/-- A chain that is picked before the canonical one does not start at `minStart`. -/
theorem picked_start_ne (h : pickChains σ minStart fuel segments = some (others ++ [canonical]))
    (hc : c ∈ others) : c.start ≠ minStart := by
  rw [c.start_eq]
  apply (pickChains_rounds h).not_accept c.path
  rw [← map_dropLast, dropLast_concat]
  exact mem_map.mpr ⟨c, hc, rfl⟩

/-- The conditions of the code for a fork, among the chains picked before the canonical one. -/
theorem forksFrom_iff (hfirst : ∀ s ∈ segments, canonical.start ≤ s.range.start)
    (hstart : canonical.start = minStart)
    (h : pickChains σ minStart fuel segments = some (others ++ [canonical])) (hc : c ∈ others) :
    canonical.ForksFrom c ↔
      (decide (canonical.stop < c.stop) && decide (c.start ≤ canonical.stop + 1)) = true := by
  have hge : canonical.start ≤ c.start :=
    hfirst _ (mem_of_picked (pickChains_rounds h) (mem_append_left _ hc) c.head_mem)
  have hneq := picked_start_ne h hc
  simp only [Chain.ForksFrom, Bool.and_eq_true, decide_eq_true_eq]
  constructor
  · rintro ⟨-, hgap, hstop⟩
    exact ⟨hstop, hgap⟩
  · rintro ⟨hstop, hgap⟩
    exact ⟨by omega, hgap, hstop⟩

/-- The fork is one of the chains picked before the canonical one; the others that follow it
in the list do not end above it. -/
theorem find_greatest {l : List Chain} (hl : l.Pairwise fun a b => b.stop ≤ a.stop)
    {p : Chain → Bool} {fork : Chain} (hfind : l.find? p = some fork) :
    ∀ c ∈ l, p c = true → c.stop ≤ fork.stop := by
  rcases find?_eq_some_iff_append.mp hfind with ⟨-, l₁, l₂, rfl, hbefore⟩
  have hafter := (pairwise_cons.mp (pairwise_append.mp hl).2.1).1
  intro c hc hpc
  rcases mem_append.mp hc with hc | hc
  · have hnot := hbefore c hc
    rw [hpc] at hnot
    cases hnot
  · rcases mem_cons.mp hc with rfl | hc
    · exact Nat.le_refl _
    · exact hafter c hc

/-- At the end of the block numbers `canonical.end() + 1` wraps around, but no chain ends
above the canonical one there. -/
theorem forkIndex_wrapping (hwidth : ∀ c ∈ others, c.stop < 2 ^ 64) (hstop : canonical.stop < 2 ^ 64) :
    (others.filter fun c => canonical.stop < c.stop).findIdx?
        (fun c => c.start ≤ nextBlock canonical.stop) =
      (others.filter fun c => canonical.stop < c.stop).findIdx?
        fun c => c.start ≤ canonical.stop + 1 := by
  by_cases hlast : canonical.stop + 1 < 2 ^ 64
  · rw [nextBlock, Nat.mod_eq_of_lt hlast]
  have hnone : others.filter (fun c => canonical.stop < c.stop) = [] := by
    apply filter_eq_nil_iff.mpr
    intro c hc
    have := hwidth c hc
    simp only [decide_eq_true_eq]
    omega
  rw [hnone]
  rfl

/-- `chains` on a non-empty list of valid ranges. The chains `peeled` are those picked before
the canonical one. The position of the fork is found in the filtered list and used as an
index of the whole list; it is one also when `fork_min` is computed in `u64`. -/
theorem chains_selects (σ : SegmentSort) (segments : List Segment) (hne : segments ≠ [])
    (hvalid : AllValid segments) :
    ∃ out peeled minStart, chains σ segments = some out ∧
      (segments.map (·.range.start)).min? = some minStart ∧
      pickChains σ minStart segments.length segments = some (peeled ++ [out.canonical]) ∧
      (∃ rest, segments.Perm
        (out.canonical.segments ++ ((out.fork.map Chain.segments).getD [] ++ rest))) ∧
      out.canonical.segments.IsChain Segment.Adj ∧
      out.canonical.start = minStart ∧
      (∀ index, (peeled.filter fun c => out.canonical.stop < c.stop).findIdx?
        (fun c => c.start ≤ out.canonical.stop + 1) = some index → index < peeled.length) ∧
      ((∀ s ∈ segments, s.range.stop < 2 ^ 64) →
        (peeled.filter fun c => out.canonical.stop < c.stop).findIdx?
            (fun c => c.start ≤ nextBlock out.canonical.stop) =
          (peeled.filter fun c => out.canonical.stop < c.stop).findIdx?
            fun c => c.start ≤ out.canonical.stop + 1) ∧
      (∀ fork, out.fork = some fork → fork ∈ peeled ∧ fork.segments.IsChain Segment.Adj ∧
        out.canonical.ForksFrom fork ∧ 0 < fork.start ∧
        ∀ c ∈ peeled, out.canonical.ForksFrom c → c.stop ≤ fork.stop) ∧
      (out.fork = none → ∀ c ∈ peeled, ¬ out.canonical.ForksFrom c) := by
  rcases chains_isSome σ hne hvalid with ⟨out, hout⟩
  rcases chains_picked hout with ⟨minStart, peeled, hmin, hpicked, hindex⟩
  have hfind := hindex.trans (fork_eq_find hpicked)
  have hstart : out.canonical.start = minStart :=
    (startsFirst_iff hmin (chains_mem hout out.canonical.head_mem)).mpr
      (canonical_startsFirst hout)
  rcases picked_perm hpicked with ⟨rest, hperm⟩
  rw [flatMap_append, flatMap_singleton] at hperm
  have hmem : ∀ c ∈ peeled ++ [out.canonical], ∀ s ∈ c.segments, s ∈ segments := fun c hc s hs =>
    mem_of_picked (pickChains_rounds hpicked) hc hs
  have hanti := (pickChains_rounds hpicked).level_antitone
  rw [pairwise_map, pairwise_append] at hanti
  have hforks := fun c (hc : c ∈ peeled) =>
    forksFrom_iff (canonical_startsFirst hout) hstart hpicked hc
  refine ⟨out, peeled, minStart, hout, hmin, hpicked, ?_, out.canonical.linked, hstart,
    ?_, ?_, ?_, ?_⟩
  · apply parts_of_picked hperm
    intro fork hfork
    exact mem_of_find?_eq_some (hfind.symm.trans hfork)
  · intro index hsome
    have hlt := (findIdx?_eq_some_iff_getElem.mp hsome).1
    exact Nat.lt_of_lt_of_le hlt (length_filter_le _ _)
  · intro hwidth
    apply forkIndex_wrapping
    · exact fun c hc => hwidth _ (hmem c (mem_append_left _ hc) _ c.top_mem)
    · exact hwidth _ (chains_mem hout out.canonical.top_mem)
  · intro fork hfork
    rw [hfork] at hfind
    have hin : fork ∈ peeled := mem_of_find?_eq_some hfind.symm
    have hcontinues := @List.find?_some _ _ _ _ hfind.symm
    refine ⟨hin, fork.linked, (hforks fork hin).mpr hcontinues, fork_start_pos hout hfork, ?_⟩
    intro c hc hforksc
    exact find_greatest hanti.1 hfind.symm c hc ((hforks c hc).mp hforksc)
  · intro hnone c hc hforksc
    rw [hnone] at hfind
    exact find?_eq_none.mp hfind.symm c hc ((hforks c hc).mp hforksc)

/-- The segments of the comment at `missing_ranges`, where a fork is found. -/
theorem chains_selects_forked :
    ∃ out fork, chains (insertionSort Segment.lastModified) forkedAt9 = some out ∧
      out.fork = some fork ∧ out.canonical.ForksFrom fork := by
  have hsome : ((chains (insertionSort Segment.lastModified) forkedAt9).bind
      Chains.fork).isSome = true := by decide
  rcases chains_selects (insertionSort Segment.lastModified) forkedAt9 (by decide) (by decide) with
    ⟨out, peeled, minStart, hout, -, -, -, -, -, -, -, hforks, -⟩
  rw [hout] at hsome
  rcases Option.isSome_iff_exists.mp hsome with ⟨fork, hfork⟩
  exact ⟨out, fork, hout, hfork, (hforks fork hfork).2.2.1⟩

/-! ## The order of the segments -/

theorem Chain.eq_of_path {c d : Chain} (h : c.path = d.path) : c = d := by
  rcases Prod.mk.inj h with ⟨htop, hbelow⟩
  have hrev : c.segments.reverse = d.segments.reverse := by
    rw [← c.top_cons_below, ← d.top_cons_below, htop, hbelow]
  have hsegments : c.segments = d.segments := reverse_injective hrev
  cases c
  cases d
  cases hsegments
  rfl

theorem paths_injective : Function.Injective (map Chain.path) :=
  map_injective_iff.mpr fun _ _ => Chain.eq_of_path

/-- The chains are picked without a tie: what is taken is the newest of all segments that fit. -/
def PicksSole (segments : List Segment) : Prop :=
  ∀ minStart, (segments.map (·.range.start)).min? = some minStart →
    ∃ cs, SoleRounds Segment.Adj Segment.level Segment.lastModified
      (fun s => s.range.start = minStart) segments cs

/-- Without ties the chains of a permutation are the same, whatever the sorts do. -/
theorem chains_eq_of_perm {τ : SegmentSort} {segments' : List Segment} {out out' : Chains}
    (hperm : segments.Perm segments') (hsole : PicksSole segments)
    (h : chains σ segments = some out) (h' : chains τ segments' = some out') : out' = out := by
  rcases chains_spec h with ⟨minStart, others, hmin, hrounds, hfork⟩
  rcases chains_spec h' with ⟨minStart', others', hmin', hrounds', hfork'⟩
  have hstart : minStart' = minStart := by
    have hstarts := hperm.map (·.range.start)
    rcases min?_eq_some_iff.mp hmin with ⟨hmem, hle⟩
    rcases min?_eq_some_iff.mp hmin' with ⟨hmem', hle'⟩
    exact Nat.le_antisymm (hle' _ (hstarts.mem_iff.mp hmem)) (hle _ (hstarts.mem_iff.mpr hmem'))
  subst hstart
  obtain ⟨cs, hcs⟩ := hsole minStart' hmin
  have hpaths := (hcs.eq_of_perm hrounds' hperm).trans
    (hcs.eq_of_perm hrounds (List.Perm.refl _)).symm
  have hpicked := paths_injective hpaths
  rcases append_inj' hpicked rfl with ⟨rfl, hlast⟩
  have hcanonical : out'.canonical = out.canonical := singleton_inj.mp hlast
  have hforks : out'.fork = out.fork := by rw [hfork', hfork, hcanonical]
  cases out
  cases out'
  cases hcanonical
  cases hforks
  rfl

/-- If the chains are picked without a tie, the canonical chain of every permutation of the
segments is the same. The sorts may even differ. -/
theorem canonicalChain_perm (σ τ : SegmentSort) (segments segments' : List Segment)
    (hperm : segments.Perm segments') (hvalid : AllValid segments) (hsole : PicksSole segments) :
    canonicalChain σ segments = canonicalChain τ segments' := by
  have hvalid' : AllValid segments' := fun s hs => hvalid s (hperm.mem_iff.mpr hs)
  unfold canonicalChain
  by_cases hne : segments = []
  · subst hne
    rw [← hperm.nil_eq]
    rfl
  · have hne' : segments' ≠ [] := fun hnil => hne (hnil ▸ hperm).eq_nil
    rcases chains_isSome σ hne hvalid with ⟨out, hout⟩
    rcases chains_isSome τ hne' hvalid' with ⟨out', hout'⟩
    rw [hout, hout', chains_eq_of_perm hperm hsole hout hout']

/-- Two files of blocks 0 to 5 that were written at the same time, with the given hashes. -/
def rewritten (hash hash' : Nat) : List Segment :=
  [⟨1, ⟨⟨0, 5⟩, "mainnet", hash, none⟩, ⟨0⟩⟩, ⟨2, ⟨⟨0, 5⟩, "mainnet", hash', none⟩, ⟨0⟩⟩]

/-- Block 6, after the second file only. -/
def afterRewrite : Segment := ⟨3, ⟨⟨6, 6⟩, "mainnet", 6, some 50⟩, ⟨0⟩⟩

theorem picksSole_of_hash : PicksSole (afterRewrite :: rewritten 5 50) := by
  intro minStart hmin
  cases hmin
  have hwalk : SoleWalk Segment.Adj Segment.lastModified (rewritten 5 50) afterRewrite
      ((rewritten 5 50).drop 1) ((rewritten 5 50).take 1) :=
    .step (by decide) (by decide) (by decide) (List.Perm.swap ..)
      (.stop (by decide) (List.Perm.refl _))
  exact ⟨_, .last ⟨by decide, _, List.Perm.refl _, hwalk⟩ rfl⟩

/-- The two files are a tie, but only one of them fits before block 6. -/
theorem canonicalChain_perm_rewritten :
    canonicalChain (insertionSort Segment.lastModified) (afterRewrite :: rewritten 5 50).reverse =
      canonicalChain (insertionSort Segment.lastModified) (afterRewrite :: rewritten 5 50) :=
  (canonicalChain_perm _ _ _ _ (reverse_perm _).symm (by decide) picksSole_of_hash).symm

/-- Of two files written at the same time the canonical chain takes the one that comes last. -/
theorem canonicalChain_of_tie :
    AllValid (rewritten 5 5) ∧ (rewritten 5 5).Perm (rewritten 5 5).reverse ∧
      (canonicalChain (insertionSort Segment.lastModified) (rewritten 5 5)).map Chain.ids =
        some [2] ∧
      (canonicalChain (insertionSort Segment.lastModified) (rewritten 5 5).reverse).map
        Chain.ids = some [1] := by
  refine ⟨by decide, (reverse_perm _).symm, by decide, by decide⟩

end CampNode

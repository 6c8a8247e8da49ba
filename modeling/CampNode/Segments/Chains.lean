import CampNode.Segments.Basic

/-!
# CampNode.Segments.Chains — what `chains` computes

`chains` runs the greedy rounds of `CampNode.Core.Greedy` over the segments:
adjacency is `BlockRange::adjacent`, the level of a segment is its end block
and its key the time of its last modification. `chains_spec` is the only fact
about `chains` that later modules use; together with `chains_isSome` it says
that on valid ranges the assertions of the source do not fail.
-/

namespace CampNode

open List Segment

/-- The end block of a segment, the level of the greedy rounds. -/
def Segment.level (s : Segment) : Nat := s.range.stop

/-- All ranges of a list of segments are valid. -/
def AllValid (segments : List Segment) : Prop := ∀ s ∈ segments, s.range.Valid

instance (segments : List Segment) : Decidable (AllValid segments) :=
  inferInstanceAs (Decidable (∀ s ∈ segments, s.range.Valid))

theorem level_lt_of_adj {s t : Segment} (ht : t.range.Valid) (h : s.Adj t) : s.level < t.level := by
  have := h.stop_succ
  unfold BlockRange.Valid at ht
  unfold level
  omega

/-! ## Chains as sequences of ranges -/

/-- In a linked sequence of valid ranges every segment ends before the later
ones start. -/
theorem pairwise_lt_of_linked {l : List Segment} (hl : l.IsChain Segment.Adj)
    (hvalid : AllValid l) : l.Pairwise (fun a b => a.range.stop < b.range.start) := by
  induction l with
  | nil => exact List.Pairwise.nil
  | cons a l ih =>
    have hvalid' : AllValid l := fun s hs => hvalid s (mem_cons_of_mem _ hs)
    have hpair := ih (List.IsChain.tail hl) hvalid'
    refine pairwise_cons.mpr ⟨?_, hpair⟩
    intro b hb
    cases l with
    | nil => simp at hb
    | cons c l =>
      have hac : a.Adj c := (isChain_cons_cons.mp hl).1
      have hstep := hac.stop_succ
      rcases mem_cons.mp hb with rfl | hb
      · omega
      · have hcb := (pairwise_cons.mp hpair).1 b hb
        have hc : c.range.start ≤ c.range.stop := hvalid c (by simp)
        omega

/-- Two segments of a linked sequence that hold the same block are the same. -/
theorem eq_of_linked_contains {l : List Segment} (hl : l.IsChain Segment.Adj)
    (hvalid : AllValid l) {s t : Segment} (hs : s ∈ l) (ht : t ∈ l) {b : Nat}
    (hsb : s.range.Contains b) (htb : t.range.Contains b) : s = t := by
  let S : Segment → Segment → Prop := fun a b =>
    a = b ∨ a.range.stop < b.range.start ∨ b.range.stop < a.range.start
  have : Std.Symm S := by
    constructor
    rintro a b (rfl | h | h)
    · exact .inl rfl
    · exact .inr (.inr h)
    · exact .inr (.inl h)
  have hpair : l.Pairwise S := (pairwise_lt_of_linked hl hvalid).imp fun h => .inr (.inl h)
  have hst : S s t := hpair.forall_of_forall (fun _ _ => .inl rfl) hs ht
  unfold BlockRange.Contains at hsb htb
  rcases hst with rfl | h | h
  · rfl
  · omega
  · omega

/-- A linked sequence of ranges covers the blocks from the start of its first to
the end of its last one. -/
theorem linked_covers {α : Type} (range : α → BlockRange) {l : List α}
    (hl : l.IsChain fun a b => (range a).adjacent (range b) = true) (hne : l ≠ []) (b : Nat)
    (hstart : (range (l.head hne)).start ≤ b) (hstop : b ≤ (range (l.getLast hne)).stop) :
    ∃ s ∈ l, (range s).Contains b := by
  induction l with
  | nil => exact absurd rfl hne
  | cons a l ih =>
    by_cases hb : b ≤ (range a).stop
    · exact ⟨a, by simp, hstart, hb⟩
    cases l with
    | nil => exact absurd hstop hb
    | cons d l =>
      have had := (isChain_cons_cons.mp hl).1
      have hstep := BlockRange.stop_succ_of_adjacent had
      have hd : (range d).start ≤ b := by omega
      rcases ih (List.IsChain.tail hl) (by simp) hd hstop with ⟨s, hs, hsb⟩
      exact ⟨s, mem_cons_of_mem _ hs, hsb⟩

namespace Chain

variable (c : Chain)

/-- The segment with the greatest blocks. -/
def top : Segment := c.segments.getLast c.nonempty

/-- The segments below the top one, from the highest down. -/
def below : List Segment := c.segments.reverse.tail

theorem top_cons_below : c.top :: c.below = c.segments.reverse := by
  have hne : c.segments.reverse ≠ [] := by simpa using c.nonempty
  have hhead : c.top = c.segments.reverse.head hne := by
    rw [head_reverse]
    rfl
  rw [hhead, below, cons_head_tail]

variable {s : Segment}

theorem mem_top_cons_below : s ∈ c.top :: c.below ↔ s ∈ c.segments := by
  rw [top_cons_below, mem_reverse]

theorem bottom_eq : bottom c.top c.below = c.segments.head c.nonempty := by
  have hne : c.segments.reverse ≠ [] := by simpa using c.nonempty
  have : bottom c.top c.below = c.segments.reverse.getLast hne := by
    simp only [bottom, top_cons_below]
  rw [this, getLast_reverse]

/-- The chain as a greedy round takes it. -/
def path : Segment × List Segment := (c.top, c.below)

theorem start_eq : c.start = (bottom c.top c.below).range.start := by
  rw [bottom_eq]
  rfl

theorem stop_eq : c.stop = c.top.level := rfl

theorem top_mem : c.top ∈ c.segments := getLast_mem _

theorem head_mem : c.segments.head c.nonempty ∈ c.segments := List.head_mem _

/-- Block `b` lies in one of the segments. -/
def Covers (b : Nat) : Prop := ∃ s ∈ c.segments, s.range.Contains b

variable {c}

section

variable (hvalid : AllValid c.segments)
include hvalid

theorem start_le (hs : s ∈ c.segments) : c.start ≤ s.range.start := by
  have hpair := pairwise_lt_of_linked c.linked hvalid
  rcases exists_cons_of_ne_nil c.nonempty with ⟨a, l, hl⟩
  have hstart : c.start = a.range.start := by simp [start, first, hl]
  rw [hstart]
  rw [hl] at hs hpair
  rcases mem_cons.mp hs with rfl | hs
  · exact le_refl _
  · have hlt := (pairwise_cons.mp hpair).1 s hs
    have ha : a.range.start ≤ a.range.stop := hvalid a (by simp [hl])
    omega

theorem le_stop (hs : s ∈ c.segments) : s.range.stop ≤ c.stop := by
  have hpair := pairwise_reverse.mpr (pairwise_lt_of_linked c.linked hvalid)
  rw [stop_eq, level]
  rw [← top_cons_below] at hpair
  rcases mem_cons.mp (c.mem_top_cons_below.mpr hs) with rfl | hs'
  · exact le_refl _
  · have hlt := (pairwise_cons.mp hpair).1 s hs'
    have htop : c.top.range.start ≤ c.top.range.stop := hvalid c.top c.top_mem
    omega

theorem nodup : c.segments.Nodup := by
  refine List.Pairwise.imp_of_mem ?_ (pairwise_lt_of_linked c.linked hvalid)
  rintro a b ha - hlt rfl
  have hv : a.range.start ≤ a.range.stop := hvalid a ha
  omega

theorem covers_iff (b : Nat) : c.Covers b ↔ c.start ≤ b ∧ b ≤ c.stop := by
  constructor
  · rintro ⟨s, hs, hsb⟩
    exact ⟨(start_le hvalid hs).trans hsb.1, hsb.2.trans (le_stop hvalid hs)⟩
  · rintro ⟨hstart, hstop⟩
    exact linked_covers Segment.range c.linked c.nonempty b hstart hstop

end

end Chain

/-! ## Refinement of the greedy rounds -/

variable {s : Segment} {σ : SegmentSort} {byEnd segments : List Segment} {minStart fuel : Nat}
  {out : Chains}

/-- `pick_chain` is one greedy round. -/
theorem pickChain_round {byEnd rest : List Segment} {c : Chain}
    (h : pickChain σ byEnd = some (c, rest)) :
    Round Segment.Adj level lastModified byEnd c.top c.below rest := by
  unfold pickChain at h
  cases hmax : (byEnd.map (·.range.stop)).max? with
  | none => simp [hmax] at h
  | some stop =>
    have hstop := max?_eq_some_iff.mp hmax
    rcases hpick : pickSegment σ byEnd stop none with ⟨_ | latest, mid⟩
    · simp [hmax, hpick] at h
    rcases pickSegment_some hpick with ⟨⟨hs, ⟨hlevel, -⟩, hnewest⟩, hperm⟩
    simp only [hmax, hpick, Option.some.injEq, Prod.mk.injEq] at h
    rcases h with ⟨hc, hrest⟩
    have hwalk := pickBelow_walk σ mid.length mid latest (Nat.le_refl _)
    have hpath : c.top :: c.below = latest :: (pickBelow σ mid.length mid latest.range).1 := by
      rw [c.top_cons_below, ← hc, reverse_reverse]
    rcases cons.inj hpath with ⟨htop, hbelow⟩
    rw [htop, hbelow, ← hrest]
    refine ⟨⟨hs, ?_, ?_⟩, mid, hperm, hwalk⟩
    · intro t ht
      unfold level
      rw [hlevel]
      exact hstop.2 _ (mem_map.mpr ⟨t, ht, rfl⟩)
    · intro t ht hlev
      unfold level at hlev
      exact hnewest t ht ⟨hlev.trans hlevel, fun n hn => by cases hn⟩

theorem pickChain_isSome (σ : SegmentSort) (hne : byEnd ≠ []) :
    ∃ c rest, pickChain σ byEnd = some (c, rest) := by
  unfold pickChain
  cases hmax : (byEnd.map (·.range.stop)).max? with
  | none =>
    rw [max?_eq_none_iff, map_eq_nil_iff] at hmax
    exact absurd hmax hne
  | some stop =>
    have hstop := (max?_eq_some_iff.mp hmax).1
    rcases mem_map.mp hstop with ⟨t, ht, hts⟩
    rcases hpick : pickSegment σ byEnd stop none with ⟨_ | latest, mid⟩
    · have hnone := (pickSegment_none hpick).1 t ht hts
      exact absurd (fun n hn => by cases hn) hnone
    · simp [hpick]

/-- The picked chains are greedy rounds up to the first one that starts at
`minStart`. -/
theorem pickChains_rounds {picked : List Chain} (h : pickChains σ minStart fuel byEnd = some picked) :
    Rounds Segment.Adj level lastModified
      (fun s => s.range.start = minStart) byEnd (picked.map Chain.path) := by
  induction fuel generalizing byEnd picked with
  | zero => simp [pickChains] at h
  | succ fuel ih =>
    unfold pickChains at h
    cases hpick : pickChain σ byEnd with
    | none => simp [hpick] at h
    | some p =>
      rcases p with ⟨c, rest⟩
      have hround := pickChain_round hpick
      by_cases hstart : c.start = minStart
      · simp only [hpick, hstart, if_true, Option.some.injEq] at h
        subst h
        exact .last hround (c.start_eq ▸ hstart)
      · simp only [hpick, hstart, if_false] at h
        rcases Option.map_eq_some_iff.mp h with ⟨cs, hcs, hpicked⟩
        subst hpicked
        exact .more hround (c.start_eq ▸ hstart) (ih hcs)

/-- Picking chains reaches `minStart` as long as the pool holds a segment that
starts there. -/
theorem pickChains_isSome (σ : SegmentSort) (hfuel : byEnd.length ≤ fuel) (hvalid : AllValid byEnd)
    (hmin : ∀ s ∈ byEnd, minStart ≤ s.range.start) (hex : ∃ s ∈ byEnd, s.range.start = minStart) :
    ∃ picked, pickChains σ minStart fuel byEnd = some picked := by
  induction fuel generalizing byEnd with
  | zero =>
    rcases hex with ⟨s, hs, -⟩
    have : 0 < byEnd.length := length_pos_of_mem hs
    omega
  | succ fuel ih =>
    rcases hex with ⟨s, hs, hsm⟩
    rcases pickChain_isSome σ (ne_nil_of_mem hs) with ⟨c, rest, hpick⟩
    have hround := pickChain_round hpick
    unfold pickChains
    rw [hpick]
    by_cases hstart : c.start = minStart
    · exact ⟨[c], by simp [hstart]⟩
    have hsub : ∀ t ∈ c.segments, t ∈ byEnd := fun t ht =>
      hround.mem_pool (c.mem_top_cons_below.mpr ht)
    have hcvalid : AllValid c.segments := fun t ht => hvalid t (hsub t ht)
    -- a segment of the chain that starts at `minStart` would be its first
    have hns : s ∉ c.top :: c.below := by
      intro hmem
      have hle := Chain.start_le hcvalid (c.mem_top_cons_below.mp hmem)
      have hge := hmin _ (hsub _ c.head_mem)
      apply hstart
      have : c.start = (c.segments.head c.nonempty).range.start := rfl
      omega
    have hlen := hround.perm.length_eq
    simp only [length_append, length_cons] at hlen
    rcases @ih rest (by omega) (fun t ht => hvalid t (hround.rest_subset ht))
      (fun t ht => hmin t (hround.rest_subset ht)) ⟨s, hround.mem_rest hs hns, hsm⟩ with
      ⟨picked, hpicked⟩
    exact ⟨c :: picked, by simp [hstart, hpicked]⟩

/-! ## The canonical and the fork chain -/

/-- Chains that end above `height` come first, so that a position among them is
a position among all chains. -/
theorem findIdx_filter_eq_find {l : List Chain} (hl : l.Pairwise (fun a b => b.stop ≤ a.stop))
    (height : Nat) (q : Chain → Bool) :
    ((l.filter (fun c => height < c.stop)).findIdx? q).bind (l[·]?) =
      l.find? (fun c => height < c.stop && q c) := by
  induction l with
  | nil => rfl
  | cons a l ih =>
    rcases pairwise_cons.mp hl with ⟨ha, hl'⟩
    by_cases hp : height < a.stop
    · cases hq : q a with
      | true => simp [hp, hq, findIdx?_cons]
      | false =>
        rw [find?_cons_of_neg (by simp [hq]), ← ih hl']
        simp [hp, hq, findIdx?_cons, Option.bind_map]
    have hnone : ∀ c ∈ a :: l, ¬ height < c.stop := by
      intro c hc
      rcases mem_cons.mp hc with rfl | hc
      · exact hp
      · have := ha c hc
        omega
    have hfilter : (a :: l).filter (fun c => height < c.stop) = [] :=
      filter_eq_nil_iff.mpr fun c hc => by simpa using hnone c hc
    have hfind : (a :: l).find? (fun c => height < c.stop && q c) = none :=
      find?_eq_none.mpr fun c hc => by simp [hnone c hc]
    rw [hfilter, hfind]
    rfl

/-- The chains that `chains` picks: the last one is canonical, and the fork is looked up
among the others by a position in the filtered list. -/
theorem chains_picked (h : chains σ segments = some out) :
    ∃ minStart others, (segments.map (·.range.start)).min? = some minStart ∧
      pickChains σ minStart segments.length segments = some (others ++ [out.canonical]) ∧
      out.fork = ((others.filter fun c => out.canonical.stop < c.stop).findIdx?
        fun c => c.start ≤ out.canonical.stop + 1).bind (others[·]?) := by
  unfold chains at h
  cases hmin : (segments.map (·.range.start)).min? with
  | none => simp [hmin] at h
  | some minStart =>
    cases hpicked : pickChains σ minStart segments.length segments with
    | none => simp [hmin, hpicked] at h
    | some picked =>
      cases hlast : picked.getLast? with
      | none => simp [hmin, hpicked, hlast] at h
      | some canonical =>
        have hsplit : picked.dropLast ++ [canonical] = picked := dropLast_append_getLast? _ hlast
        simp only [hmin, hpicked, hlast, Option.some.injEq] at h
        subst h
        exact ⟨minStart, picked.dropLast, rfl, by rw [hsplit, hpicked], rfl⟩

/-- Picked chains have non-increasing ends, so that the fork is the first of the others
that ends above the canonical chain and leaves no gap to it. -/
theorem fork_eq_find {others : List Chain} {canonical : Chain}
    (h : pickChains σ minStart fuel segments = some (others ++ [canonical])) :
    ((others.filter fun c => canonical.stop < c.stop).findIdx?
        fun c => c.start ≤ canonical.stop + 1).bind (others[·]?) =
      others.find? fun c => canonical.stop < c.stop && c.start ≤ canonical.stop + 1 := by
  have hanti := (pickChains_rounds h).level_antitone
  rw [pairwise_map, pairwise_append] at hanti
  exact findIdx_filter_eq_find hanti.1 _ _

/-- What `chains` computes: greedy rounds until one starts at the smallest start
block. The last one is canonical; the fork is the first of the others that ends
above the canonical chain and leaves no gap to it. -/
theorem chains_spec (h : chains σ segments = some out) :
    ∃ minStart others, (segments.map (·.range.start)).min? = some minStart ∧
      Rounds Segment.Adj level lastModified
        (fun s => s.range.start = minStart) segments
        ((others ++ [out.canonical]).map Chain.path) ∧
      out.fork = others.find? fun c =>
        out.canonical.stop < c.stop && c.start ≤ out.canonical.stop + 1 := by
  rcases chains_picked h with ⟨minStart, others, hmin, hpicked, hfork⟩
  exact ⟨minStart, others, hmin, pickChains_rounds hpicked, hfork.trans (fork_eq_find hpicked)⟩

/-- On a non-empty list of valid ranges no assertion of `chains` fails. -/
theorem chains_isSome (σ : SegmentSort) (hne : segments ≠ []) (hvalid : AllValid segments) :
    ∃ out, chains σ segments = some out := by
  unfold chains
  cases hmin : (segments.map (·.range.start)).min? with
  | none =>
    rw [min?_eq_none_iff, map_eq_nil_iff] at hmin
    exact absurd hmin hne
  | some minStart =>
    have hmin' := min?_eq_some_iff.mp hmin
    rcases mem_map.mp hmin'.1 with ⟨s, hs, hsm⟩
    rcases pickChains_isSome σ (Nat.le_refl _) hvalid
      (fun t ht => hmin'.2 _ (mem_map.mpr ⟨t, ht, rfl⟩)) ⟨s, hs, hsm⟩ with
      ⟨picked, hpicked⟩
    have hpne : picked ≠ [] := by
      have := (pickChains_rounds hpicked).ne_nil
      simpa using this
    simp [hpicked, getLast?_eq_some_getLast hpne]

/-- `s` starts at the smallest start block of `segments`. -/
def StartsFirst (segments : List Segment) (s : Segment) : Prop :=
  ∀ t ∈ segments, s.range.start ≤ t.range.start

instance (segments : List Segment) (s : Segment) : Decidable (StartsFirst segments s) :=
  inferInstanceAs (Decidable (∀ t ∈ segments, _))

/-- Nothing comes before a segment that starts first. -/
theorem StartsFirst.not_adj {s t : Segment} (hs : StartsFirst segments s)
    (hvalid : AllValid segments) (ht : t ∈ segments) :
    ¬ t.Adj s := by
  intro hadj
  have hsucc := hadj.stop_succ
  have hle := hs t ht
  have hv : t.range.start ≤ t.range.stop := hvalid t ht
  omega

theorem startsFirst_of_eq (hmin : (segments.map (·.range.start)).min? = some minStart)
    (hs : s.range.start = minStart) : StartsFirst segments s := by
  intro t ht
  rw [hs]
  exact (min?_eq_some_iff.mp hmin).2 _ (mem_map.mpr ⟨t, ht, rfl⟩)

theorem startsFirst_iff (hmin : (segments.map (·.range.start)).min? = some minStart)
    (hs : s ∈ segments) : s.range.start = minStart ↔ StartsFirst segments s := by
  rcases min?_eq_some_iff.mp hmin with ⟨hmem, hle⟩
  rcases mem_map.mp hmem with ⟨t, ht, htm⟩
  constructor
  · exact startsFirst_of_eq hmin
  · intro hfirst
    have h1 := hfirst t ht
    have h2 := hle _ (mem_map.mpr ⟨s, hs, rfl⟩)
    omega

/-- The nodes of picked chains, chain by chain. -/
theorem paths_perm (cs : List Chain) :
    ((cs.map Chain.path).flatMap fun tc => tc.1 :: tc.2).Perm (cs.flatMap Chain.segments) := by
  rw [flatMap_map]
  refine List.Perm.flatMap_left cs fun c _ => ?_
  show (c.top :: c.below).Perm c.segments
  rw [c.top_cons_below]
  exact reverse_perm _

/-- The last of picked chains. -/
theorem path_last {others : List Chain} {canonical : Chain} {init : List (Segment × List Segment)}
    {top : Segment} {c : List Segment}
    (h : (others ++ [canonical]).map Chain.path = init ++ [(top, c)]) :
    others.map Chain.path = init ∧ canonical.top = top ∧ canonical.below = c := by
  rw [map_append, map_singleton] at h
  obtain ⟨hinit, hlast⟩ := append_inj' h rfl
  exact ⟨hinit, Prod.mk.inj (singleton_inj.mp hlast)⟩

section

variable (h : chains σ segments = some out)
include h

theorem chains_mem (hs : s ∈ out.canonical.segments) : s ∈ segments := by
  rcases chains_spec h with ⟨_, others, -, hrounds, -⟩
  rcases hrounds.subperm with ⟨rest, hperm⟩
  refine hperm.mem_iff.mpr (mem_append_left _ ?_)
  refine mem_flatMap.mpr ⟨out.canonical.path, ?_, ?_⟩
  · simp
  · exact out.canonical.mem_top_cons_below.mpr hs

/-- The canonical chain starts at the smallest start block. -/
theorem canonical_startsFirst :
    StartsFirst segments (out.canonical.segments.head out.canonical.nonempty) := by
  rcases chains_spec h with ⟨minStart, others, hmin, hrounds, -⟩
  rcases hrounds.last_of_inv (Q := fun _ => True) trivial (fun _ _ _ _ _ _ _ => trivial)
    (P := fun top c => (bottom top c).range.start = minStart)
    (fun _ _ _ _ _ _ hacc => hacc) with ⟨init, top, c, hcs, hpost⟩
  obtain ⟨-, rfl, rfl⟩ := path_last hcs
  rw [Chain.bottom_eq] at hpost
  exact (startsFirst_iff hmin (chains_mem h (Chain.head_mem _))).mp hpost

/-- `Rounds.last_of_closed` for the canonical chain. -/
theorem canonical_of_closed {R G : Segment → Prop} (hvalid : AllValid segments) (hG : ∀ s, G s → s ∈ segments)
    (hup : ∀ s ∈ segments, ∀ n ∈ segments, R s → s.Adj n → R n)
    (hfirst : ∀ s ∈ segments, StartsFirst segments s → R s)
    (htop : ∀ t, TopAmong level lastModified R segments t → G t)
    (hgood : ∀ n, G n → ¬ StartsFirst segments n → ∃ g ∈ segments, R g ∧ g.Adj n ∧
      ∀ u ∈ segments, u.Adj n → g.lastModified ≤ u.lastModified → G u) :
    TopAmong level lastModified R segments out.canonical.top ∧
      ∀ s ∈ out.canonical.segments, G s := by
  rcases chains_spec h with ⟨minStart, others, hmin, hrounds, -⟩
  have hlast := hrounds.last_of_closed (R := R) (G := G)
    (fun n hn s _ hadj => level_lt_of_adj (hvalid n (hG n hn)) hadj) hup
    (fun s hs hacc => hfirst s hs (startsFirst_of_eq hmin hacc)) htop
    (fun n hn hacc => hgood n hn fun hf => hacc ((startsFirst_iff hmin (hG n hn)).mpr hf))
    (fun n hacc s hs => (startsFirst_of_eq hmin hacc).not_adj hvalid hs)
  rcases hlast with ⟨init, top, c, hcs, htopc, hc, -⟩
  obtain ⟨-, rfl, rfl⟩ := path_last hcs
  refine ⟨htopc, fun s hs => ?_⟩
  rcases mem_cons.mp (out.canonical.mem_top_cons_below.mpr hs) with rfl | hs
  · exact htop _ htopc
  · exact hc s hs

end

end CampNode

import CampNode.Segments.Reclaim
import CampNode.Core.Laminar

/-!
# CampNode.Compaction.History — the appended ranges and the segments that stand for them

The abstract view of a table: the block ranges that were appended to it, in a
`History` whose fields say that they fit together. The live segments of the table
`Represent` a history if they are nested, each of them is a run of appended
ranges merged into one, and together they cover every appended block.

`Represents.canonical` says what the canonical chain of such segments is: the
roots of the family that cover the first contiguous run of appended blocks.
-/

namespace CampNode

open Segment List

/-! ## Merged ranges -/

/-- The range of a compaction output (`CompactionGroup::write_and_finish`). -/
def mergeRange (startRange endRange : BlockRange) : BlockRange where
  numbers := ⟨startRange.start, endRange.stop⟩
  network := startRange.network
  hash := endRange.hash
  prevHash := startRange.prevHash

@[simp] theorem mergeRange_mergeRange (r t u : BlockRange) :
    mergeRange r (mergeRange t u) = mergeRange r u := rfl

/-- `r` is a sequence of adjacent members of `ranges` merged into one. -/
def RunOf (ranges : List BlockRange) (r : BlockRange) : Prop :=
  ∃ (l : List BlockRange) (hne : l ≠ []), l ⊆ ranges ∧
    l.IsChain (fun a b => a.adjacent b = true) ∧ r = mergeRange (l.head hne) (l.getLast hne)

namespace RunOf

variable {ranges ranges' : List BlockRange} {r t : BlockRange}

theorem of_mem (h : r ∈ ranges) : RunOf ranges r :=
  ⟨[r], by simp, by simpa using h, isChain_singleton _, rfl⟩

theorem mono (h : RunOf ranges r) (hsub : ranges ⊆ ranges') : RunOf ranges' r := by
  rcases h with ⟨l, hne, hl, hchain, rfl⟩
  exact ⟨l, hne, fun x hx => hsub (hl hx), hchain, rfl⟩

/-- A run begins like one of its ranges. -/
theorem exists_first (h : RunOf ranges r) : ∃ a ∈ ranges, a.start = r.start ∧
    a.network = r.network ∧ a.prevHash = r.prevHash := by
  rcases h with ⟨l, hne, hl, -, rfl⟩
  exact ⟨l.head hne, hl (head_mem hne), rfl, rfl, rfl⟩

theorem network_getLast {l : List BlockRange}
    (hl : l.IsChain (fun a b => a.adjacent b = true)) (hne : l ≠ []) :
    (l.getLast hne).network = (l.head hne).network := by
  induction l with
  | nil => exact absurd rfl hne
  | cons a l ih =>
    cases l with
    | nil => rfl
    | cons b l =>
      have hab := BlockRange.adjacent_iff.mp (isChain_cons_cons.mp hl).1
      rw [getLast_cons (by simp), ih (List.IsChain.tail hl) (by simp)]
      exact hab.1.symm

/-- A run ends like one of its ranges. -/
theorem exists_last (h : RunOf ranges r) : ∃ a ∈ ranges, a.stop = r.stop ∧
    a.network = r.network ∧ a.hash = r.hash := by
  rcases h with ⟨l, hne, hl, hchain, rfl⟩
  exact ⟨l.getLast hne, hl (getLast_mem hne), rfl, network_getLast hchain hne, rfl⟩

/-- Every block of a run lies in one of its ranges. -/
theorem exists_contains (h : RunOf ranges r) {b : Nat} (hb : r.Contains b) :
    ∃ a ∈ ranges, a.Contains b := by
  rcases h with ⟨l, hne, hl, hchain, rfl⟩
  rcases linked_covers id hchain hne b hb.1 hb.2 with ⟨a, ha, hab⟩
  exact ⟨a, hl ha, hab⟩

/-- Two adjacent runs merge into one. -/
theorem merge (hr : RunOf ranges r) (ht : RunOf ranges t) (hadj : r.adjacent t = true) :
    RunOf ranges (mergeRange r t) := by
  rcases hr with ⟨l, hne, hl, hchain, rfl⟩
  rcases ht with ⟨l', hne', hl', hchain', rfl⟩
  refine ⟨l ++ l', by simp [hne], ?_, ?_, ?_⟩
  · intro x hx
    rcases mem_append.mp hx with hx | hx
    · exact hl hx
    · exact hl' hx
  · refine isChain_append.mpr ⟨hchain, hchain', ?_⟩
    -- the last range of the first run comes right before the first of the second
    intro x hx y hy
    rw [getLast?_eq_some_getLast hne, Option.mem_some_iff] at hx
    rw [head?_eq_some_head hne', Option.mem_some_iff] at hy
    subst hx hy
    rw [BlockRange.adjacent_iff] at hadj ⊢
    exact ⟨(network_getLast hchain hne).trans hadj.1, hadj.2⟩
  · rw [head_append_of_ne_nil hne, getLast_append_of_ne_nil _ hne']
    rfl

/-- The range of a linked group of runs is a run. -/
theorem merge_group {group : List Segment} (hgroup : group.IsChain Segment.Adj)
    (hne : group ≠ []) (hrun : ∀ s ∈ group, RunOf ranges s.range) :
    RunOf ranges (mergeRange (group.head hne).range (group.getLast hne).range) := by
  induction group with
  | nil => exact absurd rfl hne
  | cons a group ih =>
    cases group with
    | nil => exact hrun a (by simp)
    | cons b group =>
      have hab : a.Adj b := (isChain_cons_cons.mp hgroup).1
      have htail := ih (List.IsChain.tail hgroup) (by simp)
        (fun s hs => hrun s (mem_cons_of_mem _ hs))
      have hmerge := merge (hrun a (by simp)) htail hab
      exact hmerge

end RunOf

/-! ## Histories -/

/-- The range `r` may be appended after `ranges`: it is not empty, has no block in
common with them, and agrees with its numeric neighbours. -/
structure Fits (ranges : List BlockRange) (r : BlockRange) : Prop where
  valid : r.Valid
  apart : ∀ t ∈ ranges, Apart BlockRange.start BlockRange.stop t r
  after : ∀ t ∈ ranges, t.stop + 1 = r.start → t.adjacent r = true
  before : ∀ t ∈ ranges, r.stop + 1 = t.start → r.adjacent t = true

theorem fits_iff {ranges : List BlockRange} {r : BlockRange} :
    Fits ranges r ↔ r.Valid ∧ ∀ t ∈ ranges, Apart BlockRange.start BlockRange.stop t r ∧
      (t.stop + 1 = r.start → t.adjacent r = true) ∧
      (r.stop + 1 = t.start → r.adjacent t = true) :=
  ⟨fun h => ⟨h.valid, fun t ht => ⟨h.apart t ht, h.after t ht, h.before t ht⟩⟩,
    fun h => ⟨h.1, fun t ht => (h.2 t ht).1, fun t ht => (h.2 t ht).2.1,
      fun t ht => (h.2 t ht).2.2⟩⟩

instance (ranges : List BlockRange) (r : BlockRange) : Decidable (Fits ranges r) :=
  decidable_of_iff _ fits_iff.symm

/-- The ranges appended to a table. -/
structure History where
  ranges : List BlockRange
  valid : ∀ r ∈ ranges, r.Valid
  linked : ∀ r ∈ ranges, ∀ t ∈ ranges, r.stop + 1 = t.start → r.adjacent t = true

namespace History

def empty : History where
  ranges := []
  valid := by simp
  linked := by simp

/-- Append a range that fits. -/
def append (h : History) (r : BlockRange) (hr : Fits h.ranges r) : History where
  ranges := r :: h.ranges
  valid t ht := by
    rcases List.mem_cons.mp ht with rfl | ht'
    · exact hr.valid
    · exact h.valid t ht'
  linked a ha t ht hnext := by
    have hvalid : r.start ≤ r.stop := hr.valid
    rcases List.mem_cons.mp ha with rfl | ha' <;> rcases List.mem_cons.mp ht with rfl | ht'
    · omega
    · exact hr.before t ht' hnext
    · exact hr.after a ha' hnext
    · exact h.linked a ha' t ht' hnext

@[simp] theorem empty_ranges : empty.ranges = [] := rfl

@[simp] theorem append_ranges (h : History) (r : BlockRange) (hr : Fits h.ranges r) :
    (h.append r hr).ranges = r :: h.ranges := rfl

variable (h : History)

/-- Block `b` was appended. -/
def Has (b : Nat) : Prop := ∃ r ∈ h.ranges, r.Contains b

/-- Block `b` lies in the maximal contiguous run of appended blocks that starts at
the smallest appended block. -/
def FirstRun (b : Nat) : Prop :=
  ∃ first, IsLeast { x | h.Has x } first ∧ first ≤ b ∧ ∀ x, first ≤ x → x ≤ b → h.Has x

variable {h}

theorem FirstRun.has {b : Nat} (hb : h.FirstRun b) : h.Has b := by
  rcases hb with ⟨first, -, hle, hall⟩
  exact hall b hle (Nat.le_refl _)

/-- The run goes on as long as blocks were appended. -/
theorem FirstRun.extend {a b : Nat} (ha : h.FirstRun a)
    (hall : ∀ x, a ≤ x → x ≤ b → h.Has x) (hab : a ≤ b) : h.FirstRun b := by
  rcases ha with ⟨first, hfirst, hle, hrun⟩
  refine ⟨first, hfirst, hle.trans hab, fun x hx hxb => ?_⟩
  rcases Nat.le_total x a with hxa | hax
  · exact hrun x hx hxa
  · exact hall x hax hxb

/-- The run holds every appended block below one of its blocks. -/
theorem FirstRun.down {a b : Nat} (hb : h.FirstRun b) (ha : h.Has a) (hab : a ≤ b) :
    h.FirstRun a := by
  rcases hb with ⟨first, hfirst, -, hrun⟩
  exact ⟨first, hfirst, hfirst.2 ha, fun x hx hxa => hrun x hx (hxa.trans hab)⟩

/-- The smallest appended block is in the run. -/
theorem firstRun_of_least {b : Nat} (hb : IsLeast { x | h.Has x } b) : h.FirstRun b :=
  ⟨b, hb, Nat.le_refl _, fun _ hx hxb => Nat.le_antisymm hxb hx ▸ hb.1⟩

end History

/-! ## Segments that represent a history -/

/-- The first block of a segment. -/
def Segment.start (s : Segment) : Nat := s.range.start

/-- The live segments stand for the appended ranges. -/
structure Represents (history : History) (live : List Segment) : Prop where
  laminar : Laminar Segment.start Segment.level Segment.lastModified live
  run : ∀ s ∈ live, RunOf history.ranges s.range
  covered : ∀ b, history.Has b → ∃ s ∈ live, s.range.Contains b

/-- A live segment that lies inside no other. -/
abbrev LiveRoot (live : List Segment) (s : Segment) : Prop :=
  Root Segment.start Segment.level live s

namespace Represents

variable {history : History} {live live' : List Segment}

theorem perm (h : Represents history live) (hperm : live.Perm live') :
    Represents history live' where
  laminar := h.laminar.subset hperm.symm.subset
  run s hs := h.run s (hperm.mem_iff.mpr hs)
  covered b hb := by
    rcases h.covered b hb with ⟨s, hs, hsb⟩
    exact ⟨s, hperm.mem_iff.mp hs, hsb⟩

theorem allValid (h : Represents history live) : AllValid live := h.laminar.valid

variable {s : Segment} {σ : SegmentSort} {out : Chains}

section

variable (h : Represents history live)
include h

theorem has_of_contains (hs : s ∈ live) {b : Nat} (hb : s.range.Contains b) : history.Has b :=
  (h.run s hs).exists_contains hb

theorem has_start (hs : s ∈ live) : history.Has s.range.start :=
  h.has_of_contains hs ⟨Nat.le_refl _, h.allValid s hs⟩

/-- Live segments with consecutive blocks are adjacent. -/
theorem adj {s t : Segment} (hs : s ∈ live) (ht : t ∈ live)
    (hnext : s.range.stop + 1 = t.range.start) : s.Adj t := by
  rcases (h.run s hs).exists_last with ⟨a, ha, hastop, hanet, hahash⟩
  rcases (h.run t ht).exists_first with ⟨b, hb, hbstart, hbnet, hbprev⟩
  have hadj := history.linked a ha b hb (by omega)
  rw [BlockRange.adjacent_iff] at hadj
  unfold Segment.Adj
  rw [BlockRange.adjacent_iff]
  refine ⟨?_, hnext, ?_⟩
  · rw [← hanet, ← hbnet]
    exact hadj.1
  · intro p hp
    rw [← hahash]
    exact hadj.2.2 p (hbprev ▸ hp)

/-- A segment that starts first starts at the smallest appended block. -/
theorem least_of_startsFirst (hs : s ∈ live)
    (hfirst : StartsFirst live s) : IsLeast { x | history.Has x } s.range.start := by
  refine ⟨h.has_start hs, fun b hb => ?_⟩
  rcases h.covered b hb with ⟨t, ht, htb⟩
  exact (hfirst t ht).trans htb.1

/-- A live segment that starts in the first run lies in it. -/
theorem firstRun_contains (hs : s ∈ live)
    (hstart : history.FirstRun s.range.start) {b : Nat} (hb : s.range.Contains b) :
    history.FirstRun b := by
  refine hstart.extend (fun x hx hxb => ?_) hb.1
  exact h.has_of_contains hs ⟨hx, hxb.trans hb.2⟩

/-- Below a root of the first run that does not start first lies another root, and
it is newer than everything else that ends there. -/
theorem root_below {n : Segment} (hn : LiveRoot live n)
    (hrun : history.FirstRun n.range.start) (hnf : ¬ StartsFirst live n) :
    ∃ g, LiveRoot live g ∧ history.FirstRun g.range.start ∧ g.Adj n ∧
      ∀ u ∈ live, u.Adj n → g.lastModified ≤ u.lastModified → u = g := by
  -- the block before `n` was appended
  have hpos : 0 < n.range.start := by
    rcases Nat.eq_zero_or_pos n.range.start with hzero | hpos
    · exact absurd (fun t _ => by omega) hnf
    · exact hpos
  have hbefore : history.Has (n.range.start - 1) := by
    rcases hrun with ⟨first, hleast, hle, hall⟩
    have hlt : first < n.range.start := by
      rcases Nat.lt_or_ge first n.range.start with hlt | hge
      · exact hlt
      · refine absurd (fun t ht => ?_) hnf
        exact hge.trans (hleast.2 (h.has_start ht))
    exact hall _ (by omega) (by omega)
  rcases h.covered _ hbefore with ⟨s, hs, hsb⟩
  rcases h.laminar.exists_root hs hsb with ⟨g, hg, hgb⟩
  -- it ends right before `n`, since roots share no block
  have hstop : g.range.stop + 1 = n.range.start := by
    by_contra hne
    have hgn : HoldsPoint start level g n.range.start := by
      unfold HoldsPoint start level at *
      omega
    have hnn : HoldsPoint start level n n.range.start := ⟨Nat.le_refl _, h.allValid n hn.1⟩
    have heq := h.laminar.root_unique hn hg hnn hgn
    unfold HoldsPoint start level at hgb
    rw [heq] at hgb
    omega
  refine ⟨g, hg, hrun.down (h.has_start hg.1) ?_, h.adj hg.1 hn.1 hstop, ?_⟩
  · have hv : g.range.start ≤ g.range.stop := h.allValid g hg.1
    omega
  intro u hu hadj hkey
  have hustop := hadj.stop_succ
  have huv : u.range.start ≤ u.range.stop := h.allValid u hu
  have hub : HoldsPoint start level u (n.range.start - 1) := by
    unfold HoldsPoint start level
    omega
  rcases h.laminar.eq_or_inside_of_root hg hu hgb hub with heq | hin
  · exact heq
  · have hlt := h.laminar.newer u hu g hg.1 hin
    omega

/-- The canonical chain consists of the roots of the first run. -/
theorem canonical_roots (hout : chains σ live = some out) : TopAmong level lastModified
      (fun s => history.FirstRun s.range.start) live out.canonical.top ∧
      ∀ s ∈ out.canonical.segments, LiveRoot live s ∧ history.FirstRun s.range.start := by
  refine canonical_of_closed (R := fun s => history.FirstRun s.range.start)
    (G := fun s => LiveRoot live s ∧ history.FirstRun s.range.start) hout h.allValid
    (fun s hs => hs.1.1) ?_ ?_ ?_ ?_
  · -- the run goes on into an adjacent segment
    intro s hs n hn hrun hadj
    have hsucc := hadj.stop_succ
    have hv : s.range.start ≤ s.range.stop := h.allValid s hs
    refine hrun.extend (fun x hx hxn => ?_) (by omega)
    rcases Nat.lt_or_ge s.range.stop x with hlt | hle
    · have : x = n.range.start := by omega
      rw [this]
      exact h.has_start hn
    · exact h.has_of_contains hs ⟨hx, hle⟩
  · intro s hs hfirst
    exact History.firstRun_of_least (h.least_of_startsFirst hs hfirst)
  · -- of the segments with the greatest end the outermost is the newest
    intro t ht
    refine ⟨⟨ht.1, fun c hc hin => ?_⟩, ht.2.1⟩
    have hle : c.range.start ≤ t.range.start := hin.1
    rcases ht.2.2 c hc (ht.2.1.down (h.has_start hc) hle) with ⟨hlevel, hkey⟩
    have hkey' := hkey (Nat.le_antisymm hlevel hin.2.1)
    have hlt := h.laminar.newer t ht.1 c hc hin
    omega
  · rintro n ⟨hn, hrun⟩ hnf
    rcases h.root_below hn hrun hnf with ⟨g, hg, hgrun, hadj, hbest⟩
    refine ⟨g, hg.1, hgrun, hadj, fun u hu hua hkey => ?_⟩
    rw [hbest u hu hua hkey]
    exact ⟨hg, hgrun⟩

/-- The canonical chain covers exactly the first run. -/
theorem canonical_covers (hout : chains σ live = some out) (b : Nat) :
    out.canonical.Covers b ↔ history.FirstRun b := by
  rcases h.canonical_roots hout with ⟨htop, hroots⟩
  have hvalid : AllValid out.canonical.segments := fun s hs => h.allValid s (hroots s hs).1.1
  constructor
  · rintro ⟨s, hs, hsb⟩
    exact h.firstRun_contains (hroots s hs).1.1 (hroots s hs).2 hsb
  intro hb
  rw [Chain.covers_iff hvalid]
  have hleast := h.least_of_startsFirst (hroots _ out.canonical.head_mem).1.1
    (canonical_startsFirst hout)
  rcases h.covered b hb.has with ⟨s, hs, hsb⟩
  constructor
  · exact hleast.2 hb.has
  · have hle := (htop.2.2 s hs (hb.down (h.has_start hs) hsb.1)).1
    exact hsb.2.trans hle

/-- The canonical chain ends with the hash of the appended range that ends there. -/
theorem canonical_hash (hout : chains σ live = some out) :
    ∃ r ∈ history.ranges, r.stop = out.canonical.stop ∧ r.hash = out.canonical.last.hash := by
  rcases (h.run _ (chains_mem hout out.canonical.top_mem)).exists_last with
    ⟨r, hr, hstop, -, hhash⟩
  exact ⟨r, hr, hstop, hhash⟩

/-- Live segments are needed exactly if something was appended. -/
theorem live_eq_nil_iff : live = [] ↔ history.ranges = [] := by
  constructor
  · rintro rfl
    rw [eq_nil_iff_forall_not_mem]
    intro r hr
    rcases h.covered r.start ⟨r, hr, Nat.le_refl _, history.valid r hr⟩ with ⟨s, hs, -⟩
    simp at hs
  · intro hnil
    rw [eq_nil_iff_forall_not_mem]
    intro s hs
    rcases h.has_start hs with ⟨r, hr, -⟩
    rw [hnil] at hr
    simp at hr

/-- A reclaimable segment lies inside a canonical one. -/
theorem reclaimable_inside (hids : DistinctIds live)
    {σ : SegmentSort} {s : Segment} (hs : s ∈ reclaimableSegments σ live) :
    s ∈ live ∧ ∃ c ∈ live, Inside start level s c := by
  cases hout : chains σ live with
  | none => simp [reclaimableSegments, hout] at hs
  | some out =>
    rcases (mem_reclaimableSegments hout hids).mp hs with ⟨hlive, hnot, -, hstop⟩
    rcases h.canonical_roots hout with ⟨-, hroots⟩
    have hvalid : AllValid out.canonical.segments := fun s hs => h.allValid s (hroots s hs).1.1
    have hv : s.range.start ≤ s.range.stop := h.allValid s hlive
    rcases (Chain.covers_iff hvalid s.range.start).mpr
      ⟨canonical_startsFirst hout s hlive, hv.trans hstop⟩ with ⟨c, hc, hcb⟩
    rcases h.laminar.eq_or_inside_of_root (hroots c hc).1 hlive hcb
      ⟨Nat.le_refl _, hv⟩ with rfl | hin
    · exact absurd hc hnot
    · exact ⟨hlive, c, (hroots c hc).1.1, hin⟩

end

end Represents

end CampNode

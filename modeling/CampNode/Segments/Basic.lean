import CampNode.Core.Sort
import CampNode.Core.Greedy
import Mathlib.Algebra.GroupWithZero.Nat

/-!
# CampNode.Segments.Basic — block ranges, segments and their chains

The data model of `common/src/metadata/segments.rs` and the functions that
select the canonical chain of a table: `chains`, `canonical_chain` and
`reclaimable_segments`.

The map `by_end` from end blocks to segments is kept as one list; the bucket
of an end block is its sublist of segments with that end, in the order of the
vector in the map. The buckets are sorted with `sort_unstable_by_key`, so the
functions take the sort as an argument.

Block numbers, file ids and the like are plain `Nat`s: no sum below leaves the
range of `u64` but `fork_min`, which at the end of that range is compared with
nothing.
-/

namespace CampNode

/-- 32-byte block hashes. -/
abbrev BlockHash := BitVec 256

/-- `std::ops::RangeInclusive<BlockNum>`; block numbers are `u64`. -/
structure RangeInclusive where
  start : Nat
  stop : Nat
deriving DecidableEq, Repr

/-- The block number after `n`. -/
def nextBlock (n : Nat) : Nat := (n + 1) % 2 ^ 64

structure BlockRange where
  numbers : RangeInclusive
  network : String
  hash : BlockHash
  prevHash : Option BlockHash
deriving DecidableEq, Repr

namespace BlockRange

def start (r : BlockRange) : Nat := r.numbers.start

def stop (r : BlockRange) : Nat := r.numbers.stop

/-- `self` is sequenced immediately before `other`. A range without a previous
hash follows any range that ends right before it. -/
def adjacent (self other : BlockRange) : Bool :=
  self.network == other.network && self.stop + 1 == other.start &&
    (other.prevHash.map (· == self.hash)).getD true

/-- The range holds at least one block. -/
def Valid (r : BlockRange) : Prop := r.start ≤ r.stop

instance (r : BlockRange) : Decidable r.Valid := inferInstanceAs (Decidable (_ ≤ _))

/-- Block `b` lies in the range. -/
def Contains (r : BlockRange) (b : Nat) : Prop := r.start ≤ b ∧ b ≤ r.stop

instance (r : BlockRange) (b : Nat) : Decidable (r.Contains b) :=
  inferInstanceAs (Decidable (_ ∧ _))

theorem adjacent_iff {self other : BlockRange} :
    self.adjacent other = true ↔ self.network = other.network ∧
      self.stop + 1 = other.start ∧ (∀ h, other.prevHash = some h → h = self.hash) := by
  cases h : other.prevHash with
  | none => simp [adjacent, h]
  | some p => simp [adjacent, h, and_assoc]

theorem stop_succ_of_adjacent {self other : BlockRange} (h : self.adjacent other = true) :
    self.stop + 1 = other.start := (adjacent_iff.mp h).2.1

end BlockRange

/-- The fields of `object_store::ObjectMeta` that are read. -/
structure ObjectMeta where
  lastModified : Int
deriving DecidableEq, Repr

/-- A block range associated with the metadata of a file in object storage. -/
structure Segment where
  id : Nat
  range : BlockRange
  object : ObjectMeta
deriving DecidableEq, Repr

namespace Segment

/-- The key by which segments of equal end are sorted. -/
def lastModified (s : Segment) : Int := s.object.lastModified

/-- `s` comes right before `t`. -/
def Adj (s t : Segment) : Prop := s.range.adjacent t.range = true

instance : DecidableRel Adj := fun s t =>
  inferInstanceAs (Decidable (s.range.adjacent t.range = true))

theorem Adj.stop_succ {s t : Segment} (h : s.Adj t) : s.range.stop + 1 = t.range.start :=
  BlockRange.stop_succ_of_adjacent h

end Segment

/-- A sequence of adjacent segments. -/
structure Chain where
  segments : List Segment
  nonempty : segments ≠ []
  linked : segments.IsChain Segment.Adj
deriving DecidableEq

namespace Chain

def first (c : Chain) : BlockRange := (c.segments.head c.nonempty).range

def last (c : Chain) : BlockRange := (c.segments.getLast c.nonempty).range

def start (c : Chain) : Nat := c.first.start

def stop (c : Chain) : Nat := c.last.stop

/-- The single range that the chain covers. -/
def range (c : Chain) : BlockRange where
  numbers := ⟨c.start, c.stop⟩
  network := c.first.network
  hash := c.last.hash
  prevHash := c.first.prevHash

def ids (c : Chain) : List Nat := c.segments.map (·.id)

end Chain

/-! ## Picking chains -/

/-- The sort of the buckets. -/
abbrev SegmentSort := UnstableSort Segment.lastModified

variable (σ : SegmentSort) (fuel : Nat) (byEnd segments : List Segment)

/-- The bucket of `stop` in the map from end blocks to segments. -/
def bucket (stop : Nat) : List Segment :=
  byEnd.filter (fun s => s.range.stop == stop)

/-- Take the newest segment that ends at `stop` and comes right before `next`.
The bucket is sorted in place, also when nothing is taken. -/
def pickSegment (stop : Nat) (next : Option BlockRange) : Option Segment × List Segment :=
  let segments := σ.sort (bucket byEnd stop)
  let others := byEnd.filter (fun s => s.range.stop != stop)
  match rposition (fun s => (next.map s.range.adjacent).getD true) segments with
  | none => (none, others ++ segments)
  | some index => (segments[index]?, others ++ segments.eraseIdx index)

/-- The loop of `pick_chain`: the segments below `next`, from the highest down.
Every iteration takes a segment out of the map, so its size bounds the number
of iterations. -/
def pickBelow (σ : SegmentSort) : Nat → List Segment → BlockRange → List Segment × List Segment
  | 0, byEnd, _ => ([], byEnd)
  | fuel + 1, byEnd, next =>
      if next.start = 0 then ([], byEnd)
      else
        match pickSegment σ byEnd (next.start - 1) (some next) with
        | (none, byEnd) => ([], byEnd)
        | (some segment, byEnd) =>
            (segment :: (pickBelow σ fuel byEnd segment.range).1,
              (pickBelow σ fuel byEnd segment.range).2)

/-- The condition under which `pick_segment` accepts a segment. -/
def Accepts (next : Option BlockRange) (s : Segment) : Prop :=
  ∀ n, next = some n → s.range.adjacent n = true

variable {next : Option BlockRange} {s : Segment} {stop : Nat}

theorem accepts_iff : (next.map s.range.adjacent).getD true = true ↔ Accepts next s := by
  cases next <;> simp [Accepts]

theorem mem_bucket {byEnd : List Segment} :
    s ∈ bucket byEnd stop ↔ s ∈ byEnd ∧ s.range.stop = stop := by
  simp [bucket]

/-- Replacing a bucket by a permutation of it permutes the map. -/
theorem perm_bucket_append {byEnd segments : List Segment} (h : segments.Perm (bucket byEnd stop)) :
    byEnd.Perm (byEnd.filter (fun s => s.range.stop != stop) ++ segments) := by
  have hsplit := List.filter_append_perm (fun s : Segment => s.range.stop != stop) byEnd
  have hneg : (byEnd.filter fun s => !(s.range.stop != stop)) = bucket byEnd stop := by
    simp [bucket, bne]
  rw [hneg] at hsplit
  exact hsplit.symm.trans (h.symm.append_left _)

/-- What `pick_segment` takes: an accepted segment of the bucket that is at
least as new as the others. -/
theorem pickSegment_some {σ : SegmentSort} {byEnd byEnd' : List Segment}
    (h : pickSegment σ byEnd stop next = (some s, byEnd')) :
    Newest Segment.lastModified (fun t => t.range.stop = stop ∧ Accepts next t) byEnd s ∧
      byEnd.Perm (s :: byEnd') := by
  unfold pickSegment at h
  cases hpos : rposition (fun s => (next.map s.range.adjacent).getD true)
      (σ.sort (bucket byEnd stop)) with
  | none => simp [hpos] at h
  | some index =>
    obtain ⟨l₁, a, l₂, hl, hlen, ha, hafter⟩ := rposition_eq_some hpos
    simp only [hpos, Prod.mk.injEq] at h
    rcases h with ⟨hget, hbyEnd⟩
    have has : a = s := by
      rw [hl, ← hlen] at hget
      simpa using hget
    subst has
    have hperm : (l₁ ++ a :: l₂).Perm (bucket byEnd stop) := hl ▸ σ.perm _
    have hmem : ∀ t, t ∈ byEnd → t.range.stop = stop → t ∈ l₁ ++ a :: l₂ := by
      intro t ht hstop
      exact hperm.mem_iff.mpr (mem_bucket.mpr ⟨ht, hstop⟩)
    have ha' := mem_bucket.mp (hperm.mem_iff.mp (by simp : a ∈ l₁ ++ a :: l₂))
    constructor
    · refine ⟨ha'.1, ⟨ha'.2, accepts_iff.mp ha⟩, ?_⟩
      intro t ht hacc
      have hsorted := hl ▸ σ.sorted (bucket byEnd stop)
      rw [List.pairwise_append] at hsorted
      rcases List.mem_append.mp (hmem t ht hacc.1) with h₁ | h₂
      · exact hsorted.2.2 t h₁ a (by simp)
      rcases List.mem_cons.mp h₂ with rfl | h₂
      · exact le_refl _
      · -- an accepted segment after the last accepted one
        have := accepts_iff.mpr hacc.2
        rw [hafter t h₂] at this
        exact absurd this (by simp)
    · have herase : (σ.sort (bucket byEnd stop)).eraseIdx index = l₁ ++ l₂ := by
        rw [hl, ← hlen, List.eraseIdx_append_of_length_le (Nat.le_refl _)]
        simp
      rw [herase] at hbyEnd
      subst hbyEnd
      refine (perm_bucket_append hperm).trans ?_
      rw [← List.append_assoc, ← List.append_assoc]
      exact List.perm_middle

/-- When `pick_segment` takes nothing, nothing is accepted. -/
theorem pickSegment_none {σ : SegmentSort} {byEnd byEnd' : List Segment}
    (h : pickSegment σ byEnd stop next = (none, byEnd')) :
    (∀ t ∈ byEnd, t.range.stop = stop → ¬ Accepts next t) ∧ byEnd.Perm byEnd' := by
  unfold pickSegment at h
  cases hpos : rposition (fun s => (next.map s.range.adjacent).getD true)
      (σ.sort (bucket byEnd stop)) with
  | none =>
    simp only [hpos, Prod.mk.injEq, true_and] at h
    subst h
    refine ⟨?_, perm_bucket_append (σ.perm _)⟩
    intro t ht hstop hacc
    have hfalse := rposition_eq_none.mp hpos t (by simpa [mem_bucket] using ⟨ht, hstop⟩)
    rw [accepts_iff.mpr hacc] at hfalse
    exact absurd hfalse (by simp)
  | some index =>
    obtain ⟨l₁, a, l₂, hl, hlen, -, -⟩ := rposition_eq_some hpos
    simp only [hpos, Prod.mk.injEq] at h
    rw [hl, ← hlen] at h
    simp at h

/-- The loop of `pick_chain` is a greedy walk down from `next`. -/
theorem pickBelow_walk (next : Segment) (hfuel : byEnd.length ≤ fuel) :
    Walk Segment.Adj Segment.lastModified byEnd next (pickBelow σ fuel byEnd next.range).1
      (pickBelow σ fuel byEnd next.range).2 := by
  induction fuel generalizing byEnd next with
  | zero =>
    have : byEnd = [] := List.length_eq_zero_iff.mp (by omega)
    subst this
    exact .stop (by simp) (List.Perm.refl _)
  | succ fuel ih =>
    unfold pickBelow
    by_cases hstart : next.range.start = 0
    · -- no segment ends before block 0
      rw [if_pos hstart]
      refine .stop (fun s _ hadj => ?_) (List.Perm.refl _)
      have := hadj.stop_succ
      omega
    rw [if_neg hstart]
    rcases hpick : pickSegment σ byEnd (next.range.start - 1) (some next.range) with
      ⟨_ | s, byEnd'⟩
    · rcases pickSegment_none hpick with ⟨hnone, hperm⟩
      refine .stop (fun s hs hadj => ?_) hperm
      have := hadj.stop_succ
      refine hnone s hs (by omega) ?_
      intro n hn
      cases hn
      exact hadj
    · rcases pickSegment_some hpick with ⟨⟨hs, ⟨hstop, hacc⟩, hnewest⟩, hperm⟩
      have hlen := hperm.length_eq
      simp only [List.length_cons] at hlen
      refine .step ⟨hs, hacc _ rfl, ?_⟩ hperm (ih byEnd' s (by omega))
      intro t ht hadj
      have := hadj.stop_succ
      refine hnewest t ht ⟨by omega, ?_⟩
      intro n hn
      cases hn
      exact hadj

/-- Take the chain that ends in the newest of the segments with the greatest
end. `none` is the failed assertion on an empty map. -/
def pickChain : Option (Chain × List Segment) :=
  match (byEnd.map (·.range.stop)).max? with
  | none => none
  | some stop =>
      match pickSegment σ byEnd stop none with
      | (none, _) => none
      | (some latest, byEnd) =>
          some
            (⟨(latest :: (pickBelow σ byEnd.length byEnd latest.range).1).reverse, by simp,
                List.isChain_reverse.mpr
                  (pickBelow_walk σ byEnd.length byEnd latest (Nat.le_refl _)).linked⟩,
              (pickBelow σ byEnd.length byEnd latest.range).2)

/-- Pick chains until one starts at `minStart`. -/
def pickChains (σ : SegmentSort) (minStart : Nat) : Nat → List Segment → Option (List Chain)
  | 0, _ => none
  | fuel + 1, byEnd =>
      match pickChain σ byEnd with
      | none => none
      | some (chain, byEnd) =>
          if chain.start = minStart then some [chain]
          else (pickChains σ minStart fuel byEnd).map (chain :: ·)

/-! ## The canonical chain -/

structure Chains where
  canonical : Chain
  /-- The chain with the greatest block height past the canonical chain, where
  there is no gap between the canonical chain and the fork. -/
  fork : Option Chain
deriving DecidableEq

/-- The canonical and the fork chain of a list of segments. On a non-empty list
`none` is a failed assertion; `chains_isSome` excludes it. -/
def chains : Option Chains :=
  match (segments.map (·.range.start)).min? with
  | none => none
  | some minStart =>
      match pickChains σ minStart segments.length segments with
      | none => none
      | some picked =>
          match picked.getLast? with
          | none => none
          | some canonical =>
              let others := picked.dropLast
              let forkMin := canonical.stop + 1
              -- the position in the filtered list is used as an index of the whole
              let index := (others.filter (fun c => canonical.stop < c.stop)).findIdx?
                (fun c => c.start ≤ forkMin)
              some ⟨canonical, index.bind (others[·]?)⟩

/-- The chain of segments that queries read. -/
def canonicalChain : Option Chain :=
  (chains σ segments).map (·.canonical)

/-- Segments that are superseded: outside the canonical and the fork chain, and
inside the range of the canonical chain. -/
def reclaimableSegments : List Segment :=
  match chains σ segments with
  | none => []
  | some ⟨canonical, fork⟩ =>
      let retained := canonical.ids ++ (fork.map Chain.ids).getD []
      (segments.filter (fun s => !retained.contains s.id)).filter
        (fun s => canonical.start ≤ s.range.start && s.range.stop ≤ canonical.stop)

end CampNode

import Mathlib.Data.List.Chain
import Mathlib.Data.List.Perm.Basic
import Mathlib.Tactic.Common

/-!
# CampNode.Core.Greedy — greedy paths through a pool

A pool of nodes carries an adjacency `adj s n` ("`s` comes right before
`n`"), a `level` that adjacency increases, and a `key` by which nodes are
preferred. A *walk* goes down from a node by taking, again and again, a node
of greatest key among those adjacent before the last one, and removes what it
takes from the pool. A *round* starts such a walk from a node of greatest
level; rounds repeat until one ends in a node that is accepted.

Nothing here backtracks, so a walk can run into a dead end. `Walk.stays` is
the rule that excludes it: where the best choice at a good node is always
good, a walk that starts at a good node stays good until the bottom. Two nodes
of one key can be a tie; `SoleRounds` are the rounds that meet none, and they
do not depend on the order of the pool.
-/

namespace CampNode

open List

variable {α : Type} (adj : α → α → Prop) (level : α → Nat) (key : α → Int)

/-! ## Walks -/

/-- `s` has the greatest key among the members of `pool` satisfying `p`. -/
def Newest (p : α → Prop) (pool : List α) (s : α) : Prop :=
  s ∈ pool ∧ p s ∧ ∀ t ∈ pool, p t → key t ≤ key s

/-- `Walk pool next c rest`: walking down from `next` takes the nodes `c`, the
highest first, and leaves `rest` of the pool. -/
inductive Walk : List α → α → List α → List α → Prop where
  | stop {pool next rest} : (∀ s ∈ pool, ¬ adj s next) → pool.Perm rest → Walk pool next [] rest
  | step {pool next s mid c rest} : Newest key (adj · next) pool s → pool.Perm (s :: mid) →
      Walk mid s c rest → Walk pool next (s :: c) rest

/-- A walk that meets no tie: what it takes is newer than all others that fit. -/
inductive SoleWalk : List α → α → List α → List α → Prop where
  | stop {pool next rest} : (∀ s ∈ pool, ¬ adj s next) → pool.Perm rest → SoleWalk pool next [] rest
  | step {pool next s mid c rest} : s ∈ pool → adj s next →
      (∀ t ∈ pool, adj t next → t = s ∨ key t < key s) → pool.Perm (s :: mid) →
      SoleWalk mid s c rest → SoleWalk pool next (s :: c) rest

variable (next : α) (pool : List α) (s : α) (c : List α)

/-- The lowest node of a walk from `next`. -/
def bottom : α := (next :: c).getLast (List.cons_ne_nil _ _)

@[simp] theorem bottom_cons : bottom next (s :: c) = bottom s c := rfl

theorem bottom_mem : bottom next c ∈ next :: c := getLast_mem _

variable {adj level key}

theorem mid_subset {pool mid : List α} {s : α} (hperm : pool.Perm (s :: mid)) : mid ⊆ pool :=
  fun _ hx => hperm.mem_iff.mpr (mem_cons_of_mem _ hx)

namespace Walk

variable {pool pool₀ c rest : List α} {next : α}

section

variable (h : Walk adj key pool next c rest)
include h

/-- A walk splits the pool into what it takes and what it leaves. -/
theorem perm : pool.Perm (c ++ rest) := by
  induction h with
  | stop _ hperm => exact hperm
  | step _ hperm _ ih => exact hperm.trans (ih.cons _)

/-- Every node of a walk is adjacent before the one above it. -/
theorem linked : (next :: c).IsChain (fun a b => adj b a) := by
  induction h with
  | stop => exact isChain_singleton _
  | step hs _ _ ih => exact isChain_cons_cons.mpr ⟨hs.2.1, ih⟩

/-- Nothing that is left continues the walk. -/
theorem stuck : ∀ s ∈ rest, ¬ adj s (bottom next c) := by
  induction h with
  | stop hstop hperm => exact fun s hs => hstop s (hperm.mem_iff.mpr hs)
  | step _ _ _ ih => exact ih

end

/-- Taking `s` out of the pool keeps what lies below `s`. -/
theorem keep_below {G : α → Prop} {s : α} {mid : List α} (hperm : pool.Perm (s :: mid))
    (hsn : level s ≤ level next)
    (hkeep : ∀ x ∈ pool₀, G x → level x < level next → x ∈ pool) :
    ∀ x ∈ pool₀, G x → level x < level s → x ∈ mid := by
  intro x hx hG hlt
  have hx' : x ∈ s :: mid := hperm.mem_iff.mp (hkeep x hx hG (by omega))
  rcases mem_cons.mp hx' with rfl | hx'
  · omega
  · exact hx'

section

variable (h : Walk adj key pool next c rest)
include h

/-- If at every good node above the floor `T` some good node is adjacent that
is newer than all bad ones, a walk that starts at a good node takes only good
nodes and goes down to the floor. The pool may have lost nodes to earlier
walks, but no good one below the starting node. -/
theorem stays {G T : α → Prop} (hsub : pool ⊆ pool₀)
    (hkeep : ∀ x ∈ pool₀, G x → level x < level next → x ∈ pool)
    (hlevel : ∀ n, G n → ∀ s ∈ pool₀, adj s n → level s < level n)
    (hgood : ∀ n, G n → ¬ T n → ∃ g ∈ pool₀, adj g n ∧ ∀ u ∈ pool₀, adj u n → key g ≤ key u → G u)
    (hfloor : ∀ n, T n → ∀ s ∈ pool₀, ¬ adj s n) (hnext : G next) :
    (∀ x ∈ c, G x) ∧ T (bottom next c) := by
  induction h with
  | @stop pool next rest hstop _ =>
    refine ⟨by simp, ?_⟩
    by_contra hT
    obtain ⟨g, hg, hadj, hbest⟩ := hgood next hnext hT
    have hGg : G g := hbest g hg hadj (Int.le_refl _)
    exact hstop g (hkeep g hg hGg (hlevel next hnext g hg hadj)) hadj
  | @step pool next s mid c rest hs hperm _ ih =>
    have hT : ¬ T next := fun hT => hfloor next hT s (hsub hs.1) hs.2.1
    obtain ⟨g, hg, hadj, hbest⟩ := hgood next hnext hT
    have hGg : G g := hbest g hg hadj (Int.le_refl _)
    have hgpool : g ∈ pool := hkeep g hg hGg (hlevel next hnext g hg hadj)
    have hGs : G s := hbest s (hsub hs.1) hs.2.1 (hs.2.2 g hgpool hadj)
    have hsn : level s < level next := hlevel next hnext s (hsub hs.1) hs.2.1
    have hmid : mid ⊆ pool₀ := Subset.trans (mid_subset hperm) hsub
    obtain ⟨hall, hbot⟩ := ih hmid (keep_below hperm hsn.le hkeep) hGs
    exact ⟨by simpa [hGs] using hall, hbot⟩

end

end Walk

/-- A walk that meets no tie does not depend on the order of the pool. -/
theorem SoleWalk.eq_of_perm {pool pool' c c' rest rest' : List α} {next : α}
    (h : SoleWalk adj key pool next c rest) (h' : Walk adj key pool' next c' rest')
    (hpp : pool.Perm pool') : c' = c ∧ rest.Perm rest' := by
  induction h generalizing pool' c' with
  | @stop pool next rest hstop hperm =>
    cases h' with
    | stop _ hperm' => exact ⟨rfl, hperm.symm.trans (hpp.trans hperm')⟩
    | step hs' _ _ => exact absurd hs'.2.1 (hstop _ (hpp.mem_iff.mpr hs'.1))
  | @step pool next s mid c rest hs hadj hsole hperm hw ih =>
    have hs' : s ∈ pool' := hpp.mem_iff.mp hs
    cases h' with
    | stop hstop' _ => exact absurd hadj (hstop' s hs')
    | @step _ _ t mid' c' _ ht hperm' hw' =>
      have hle : key s ≤ key t := ht.2.2 s hs' hadj
      rcases hsole t (hpp.mem_iff.mpr ht.1) ht.2.1 with rfl | hlt
      · -- both pools lose the same node
        have hmid : mid.Perm mid' := (hperm.symm.trans (hpp.trans hperm')).cons_inv
        obtain ⟨hc, hrest⟩ := ih hw' hmid
        exact ⟨by rw [hc], hrest⟩
      · omega

/-! ## Rounds -/

variable (adj level key)

/-- A node to start a round from: of greatest level, and of greatest key among
those. -/
def Top : Prop :=
  s ∈ pool ∧ (∀ t ∈ pool, level t ≤ level s) ∧ ∀ t ∈ pool, level t = level s → key t ≤ key s

/-- `Round pool top c rest`: one walk from a top node `top`. -/
def Round (top : α) (c rest : List α) : Prop :=
  Top level key pool top ∧ ∃ mid, pool.Perm (top :: mid) ∧ Walk adj key mid top c rest

/-- Rounds, repeated until the lowest node of one satisfies `accept`. The list
holds the top and the walk of each round. -/
inductive Rounds (accept : α → Prop) : List α → List (α × List α) → Prop where
  | last {pool top c rest} : Round adj level key pool top c rest → accept (bottom top c) →
      Rounds accept pool [(top, c)]
  | more {pool top c mid cs} : Round adj level key pool top c mid → ¬ accept (bottom top c) →
      Rounds accept mid cs → Rounds accept pool ((top, c) :: cs)

/-- A round that meets no tie. -/
def SoleRound (top : α) (c rest : List α) : Prop :=
  (top ∈ pool ∧ ∀ t ∈ pool, t = top ∨ level t < level top ∨ level t = level top ∧ key t < key top) ∧
    ∃ mid, pool.Perm (top :: mid) ∧ SoleWalk adj key mid top c rest

/-- Rounds that meet no tie. -/
inductive SoleRounds (accept : α → Prop) : List α → List (α × List α) → Prop where
  | last {pool top c rest} : SoleRound adj level key pool top c rest → accept (bottom top c) →
      SoleRounds accept pool [(top, c)]
  | more {pool top c mid cs} : SoleRound adj level key pool top c mid → ¬ accept (bottom top c) →
      SoleRounds accept mid cs → SoleRounds accept pool ((top, c) :: cs)

variable {adj level key}

/-- A property that adjacency carries upwards holds of the top of a linked
sequence as soon as it holds of any node of it. -/
theorem top_of_linked {pool c : List α} {top x : α} {R : α → Prop}
    (hlinked : (top :: c).IsChain (fun a b => adj b a)) (hmem : ∀ y ∈ top :: c, y ∈ pool)
    (hup : ∀ s ∈ pool, ∀ n ∈ pool, R s → adj s n → R n) (hx : x ∈ top :: c) (hR : R x) : R top := by
  induction c generalizing top x with
  | nil =>
    rw [mem_singleton.mp hx] at hR
    exact hR
  | cons s c ih =>
    rw [isChain_cons_cons] at hlinked
    rcases mem_cons.mp hx with rfl | hx
    · exact hR
    · have hs : R s := ih hlinked.2 (fun y hy => hmem y (mem_cons_of_mem _ hy)) hx hR
      exact hup s (hmem s (by simp)) top (hmem top (by simp)) hs hlinked.1

namespace Round

variable {pool c rest : List α} {top : α}

theorem perm (h : Round adj level key pool top c rest) : pool.Perm (top :: c ++ rest) := by
  obtain ⟨-, mid, hperm, hwalk⟩ := h
  exact hperm.trans (hwalk.perm.cons _)

variable {s : α}

section

variable (h : Round adj level key pool top c rest)
include h

theorem mem_pool (hs : s ∈ top :: c) : s ∈ pool := h.perm.mem_iff.mpr (mem_append_left _ hs)

theorem rest_subset : rest ⊆ pool := fun _ hs =>
  h.perm.mem_iff.mpr (mem_append_right _ hs)

/-- What a round does not take stays in the pool. -/
theorem mem_rest (hs : s ∈ pool) (hns : s ∉ top :: c) : s ∈ rest :=
  (mem_append.mp (h.perm.mem_iff.mp hs)).resolve_left hns

theorem linked : (top :: c).IsChain (fun a b => adj b a) := by
  obtain ⟨-, mid, -, hwalk⟩ := h
  exact hwalk.linked

/-- Every node of the pool lies at or below the top of a round. -/
theorem level_le (hs : s ∈ pool) : level s ≤ level top := h.1.2.1 s hs

end

end Round

/-- `SoleWalk.eq_of_perm` for a round. -/
theorem SoleRound.eq_of_perm {pool pool' c c' rest rest' : List α} {top top' : α}
    (h : SoleRound adj level key pool top c rest) (h' : Round adj level key pool' top' c' rest')
    (hpp : pool.Perm pool') : top' = top ∧ c' = c ∧ rest.Perm rest' := by
  obtain ⟨⟨hmem, hsole⟩, mid, hperm, hwalk⟩ := h
  obtain ⟨⟨hmem', hlevel, hkey⟩, mid', hperm', hwalk'⟩ := h'
  have hle := hlevel top (hpp.mem_iff.mp hmem)
  rcases hsole top' (hpp.mem_iff.mpr hmem') with rfl | hlt | ⟨heq, hlt⟩
  · exact ⟨rfl, hwalk.eq_of_perm hwalk' (hperm.symm.trans (hpp.trans hperm')).cons_inv⟩
  · omega
  · have := hkey top (hpp.mem_iff.mp hmem) heq.symm
    omega

variable (level key) in
/-- `t` is a top node among the members of `pool` satisfying `R`. -/
def TopAmong (R : α → Prop) (pool : List α) (t : α) : Prop :=
  t ∈ pool ∧ R t ∧ ∀ s ∈ pool, R s → level s ≤ level t ∧ (level s = level t → key s ≤ key t)

namespace Rounds

variable {accept : α → Prop} {pool : List α} {cs : List (α × List α)}

section

variable (h : Rounds adj level key accept pool cs)
include h

/-- Induction over rounds: `Q` holds of the pool as long as no round is
accepted, and an accepted round establishes `P`. -/
theorem last_of_inv {Q : List α → Prop} {P : α → List α → Prop} (hQ : Q pool)
    (hmore : ∀ pool top c rest, Q pool → Round adj level key pool top c rest →
      ¬ accept (bottom top c) → Q rest)
    (hlast : ∀ pool top c rest, Q pool → Round adj level key pool top c rest →
      accept (bottom top c) → P top c) :
    ∃ init top c, cs = init ++ [(top, c)] ∧ P top c := by
  induction h with
  | last hround hacc => exact ⟨[], _, _, rfl, hlast _ _ _ _ hQ hround hacc⟩
  | more hround hacc _ ih =>
    obtain ⟨init, top, c, rfl, hpost⟩ := ih (hmore _ _ _ _ hQ hround hacc)
    exact ⟨_ :: init, top, c, rfl, hpost⟩

/-- Let `R` be closed upwards and hold of every accepted node, and let the top
nodes of `R` and the best choices below them be good. Rounds that start outside
`R` leave `R` in the pool, and the first one that starts inside is accepted:
the last round goes down from a top node of `R` through good nodes. -/
theorem last_of_closed {R G : α → Prop}
    (hlevel : ∀ n, G n → ∀ s ∈ pool, adj s n → level s < level n)
    (hup : ∀ s ∈ pool, ∀ n ∈ pool, R s → adj s n → R n)
    (haccept : ∀ s ∈ pool, accept s → R s)
    (htop : ∀ t, TopAmong level key R pool t → G t)
    (hgood : ∀ n, G n → ¬ accept n → ∃ g ∈ pool, R g ∧ adj g n ∧
      ∀ u ∈ pool, adj u n → key g ≤ key u → G u)
    (hfloor : ∀ n, accept n → ∀ s ∈ pool, ¬ adj s n) :
    ∃ init top c, cs = init ++ [(top, c)] ∧ TopAmong level key R pool top ∧
      (∀ x ∈ c, G x) ∧ accept (bottom top c) := by
  have htopAmong : ∀ pool' top c rest, pool' ⊆ pool ∧ (∀ s ∈ pool, R s → s ∈ pool') →
      Round adj level key pool' top c rest → R top → TopAmong level key R pool top := by
    rintro pool' top c rest ⟨hsub, hkeep⟩ hround hR
    refine ⟨hsub (hround.mem_pool (by simp)), hR, fun s hs hRs => ?_⟩
    exact ⟨hround.level_le (hkeep s hs hRs), hround.1.2.2 s (hkeep s hs hRs)⟩
  have hstays : ∀ pool' top c rest, pool' ⊆ pool ∧ (∀ s ∈ pool, R s → s ∈ pool') →
      Round adj level key pool' top c rest → R top →
      (∀ x ∈ c, G x) ∧ accept (bottom top c) := by
    rintro pool' top c rest hQ hround hR
    have hG := htop top (htopAmong _ _ _ _ hQ hround hR)
    obtain ⟨-, mid, hperm, hwalk⟩ := hround
    refine hwalk.stays (mid_subset hperm) (Walk.keep_below hperm (Nat.le_refl _) fun x hx _ _ => hx)
      (fun n hn s hs => hlevel n hn s (hQ.1 hs)) ?_ (fun n hn s hs => hfloor n hn s (hQ.1 hs)) hG
    intro n hn hacc
    rcases hgood n hn hacc with ⟨g, hg, hRg, hadj, hbest⟩
    exact ⟨g, hQ.2 g hg hRg, hadj, fun u hu => hbest u (hQ.1 hu)⟩
  have hupTop : ∀ pool' top c rest, pool' ⊆ pool →
      Round adj level key pool' top c rest → ∀ x ∈ top :: c, R x → R top := by
    intro pool' top c rest hsub hround x hx hR
    exact top_of_linked hround.linked (fun y hy => hsub (hround.mem_pool hy)) hup hx hR
  refine h.last_of_inv (Q := fun pool' => pool' ⊆ pool ∧ ∀ s ∈ pool, R s → s ∈ pool')
    ⟨fun _ hx => hx, fun s hs _ => hs⟩ ?_ ?_
  · -- a round that is not accepted starts, and therefore stays, outside `R`
    intro pool' top c rest hQ hround hnacc
    refine ⟨fun x hx => hQ.1 (hround.rest_subset hx), fun s hs hRs => ?_⟩
    refine hround.mem_rest (hQ.2 s hs hRs) fun hmem => hnacc ?_
    have hR : R top := hupTop _ _ _ _ hQ.1 hround s hmem hRs
    exact (hstays _ _ _ _ hQ hround hR).2
  · intro pool' top c rest hQ hround hacc
    have hbot := hround.mem_pool (bottom_mem top c)
    have hR : R top := hupTop _ _ _ _ hQ.1 hround _ (bottom_mem top c)
      (haccept _ (hQ.1 hbot) hacc)
    exact ⟨htopAmong _ _ _ _ hQ hround hR, (hstays _ _ _ _ hQ hround hR).1, hacc⟩

/-- The last round, in what the others leave of the pool. -/
theorem last_round : ∃ init top c pool' rest, cs = init ++ [(top, c)] ∧
    pool.Perm ((init.flatMap fun tc => tc.1 :: tc.2) ++ pool') ∧
    Round adj level key pool' top c rest := by
  induction h with
  | @last pool top c rest hround _ =>
    exact ⟨[], top, c, pool, rest, rfl, List.Perm.refl _, hround⟩
  | @more pool top c mid cs hround _ _ ih =>
    obtain ⟨init, top', c', pool', rest, rfl, hperm, hlast⟩ := ih
    refine ⟨(top, c) :: init, top', c', pool', rest, rfl, ?_, hlast⟩
    rw [flatMap_cons, append_assoc]
    exact hround.perm.trans (hperm.append_left _)

/-- Rounds take pairwise different parts of the pool. -/
theorem subperm : ∃ rest, pool.Perm ((cs.flatMap fun tc => tc.1 :: tc.2) ++ rest) := by
  obtain ⟨init, top, c, pool', rest, rfl, hperm, hlast⟩ := h.last_round
  refine ⟨rest, hperm.trans ?_⟩
  rw [flatMap_append, flatMap_singleton, append_assoc]
  exact hlast.perm.append_left _

end

section

variable (h : Rounds adj level key accept pool cs)
include h

theorem ne_nil : cs ≠ [] := by
  cases h <;> simp

/-- Only the last round is accepted. -/
theorem not_accept : ∀ x ∈ cs.dropLast, ¬ accept (bottom x.1 x.2) := by
  induction h with
  | last => simp
  | more hround hacc hrest ih =>
    intro x hx
    rw [dropLast_cons_of_ne_nil hrest.ne_nil] at hx
    rcases mem_cons.mp hx with rfl | hx
    · exact hacc
    · exact ih x hx

/-- No node of a later round fits under an earlier walk, which would not have ended. -/
theorem later_not_adj : cs.Pairwise fun x y => ∀ s ∈ y.1 :: y.2, ¬ adj s (bottom x.1 x.2) := by
  induction h with
  | last => exact pairwise_singleton _ _
  | more hround hacc hrest ih =>
    refine pairwise_cons.mpr ⟨?_, ih⟩
    intro y hy s hs
    obtain ⟨rest, hperm⟩ := hrest.subperm
    have hmid := hperm.mem_iff.mpr
      (mem_append_left rest (mem_flatMap.mpr ⟨y, hy, hs⟩))
    obtain ⟨-, mid, -, hwalk⟩ := hround
    exact hwalk.stuck s hmid

/-- Later rounds start at lower or equal levels. -/
theorem level_antitone : cs.Pairwise (fun a b => level b.1 ≤ level a.1) := by
  induction h with
  | last => exact pairwise_singleton _ _
  | @more pool top c mid cs hround _ hcs ih =>
    refine pairwise_cons.mpr ⟨fun b hb => ?_, ih⟩
    obtain ⟨rest, hrest⟩ := hcs.subperm
    have hb' : b.1 ∈ mid := hrest.mem_iff.mpr <| mem_append_left _ <|
      mem_flatMap.mpr ⟨b, hb, mem_cons_self ..⟩
    exact hround.level_le (hround.rest_subset hb')

end

end Rounds

/-- Rounds that meet no tie do not depend on the order of the pool. -/
theorem SoleRounds.eq_of_perm {accept : α → Prop} {pool pool' : List α} {cs cs' : List (α × List α)}
    (h : SoleRounds adj level key accept pool cs) (h' : Rounds adj level key accept pool' cs')
    (hpp : pool.Perm pool') : cs' = cs := by
  induction h generalizing pool' cs' with
  | last hround hacc =>
    cases h' with
    | last hround' _ =>
      obtain ⟨rfl, rfl, -⟩ := hround.eq_of_perm hround' hpp
      rfl
    | more hround' hacc' _ =>
      obtain ⟨rfl, rfl, -⟩ := hround.eq_of_perm hround' hpp
      exact absurd hacc hacc'
  | more hround hacc hrest ih =>
    cases h' with
    | last hround' hacc' =>
      obtain ⟨rfl, rfl, -⟩ := hround.eq_of_perm hround' hpp
      exact absurd hacc' hacc
    | more hround' _ hrest' =>
      obtain ⟨rfl, rfl, hmid⟩ := hround.eq_of_perm hround' hpp
      rw [ih hrest' hmid]

end CampNode

import CampNode.Core.Transition
import CampNode.Streaming.Query

/-!
# CampNode.Streaming.ReorgBase — the walk back to a canonical block

After a reorg `reorg_base` goes down from the previous watermark, from a block to its
parent, until it meets a canonical block. Every lookup asks for the number before the
last one, by `saturating_sub`, and for the parent hash if the row has one.

The numbers decrease until block 0, which is asked for again and again: if the row of an
orphaned block 0 has no parent hash, any row of block 0 answers, and the walk does not end
if that is the same row (`reorgBase_loops`). The walk ends exactly if no orphaned block 0 that it
meets leads back to itself, and along a stored path it ends right above the common ancestor
(`reorgBase_resumes_iff`).
-/

namespace CampNode

variable (rows : FileRows) (query : StreamingQuery) (snapshot : Snapshot)

/-- The block is orphaned, and `p` is found for its parent. -/
def Looks (b p : BlockRow) : Prop :=
  canonicalContains rows query snapshot b.watermark = false ∧
    forkFetch rows snapshot (b.number - 1) b.prevHash = some p

/-- From `b` the stored parents lead through orphaned blocks to the canonical block `a`. -/
inductive Descends : BlockRow → BlockRow → Prop where
  | canonical {a} : canonicalContains rows query snapshot a.watermark = true → Descends a a
  | orphaned {b c a} : canonicalContains rows query snapshot b.watermark = false →
      b.number = c.number + 1 → b.prevHash = some c.hash →
      forkFetch rows snapshot c.number (some c.hash) = some c → Descends c a → Descends b a

variable {rows query snapshot}

/-! ## Termination -/

variable {b : BlockRow}

theorem forkFetch_number {number : Nat} {hash : Option BlockHash}
    (h : forkFetch rows snapshot number hash = some b) :
    b ∈ allRows rows snapshot.forkFiles ∧ b.number = number :=
  ⟨(blocksTableFetch_some h).1, (blocksTableFetch_some h).2.1⟩

theorem forkWalk_of_canonical {fuel n : Nat}
    (hb : canonicalContains rows query snapshot b.watermark = true) :
    forkWalk rows query snapshot (fuel + 1) n (some b) = some n := if_pos hb

theorem forkWalk_of_orphaned {fuel n : Nat} {b : BlockRow}
    (hb : canonicalContains rows query snapshot b.watermark = false) :
    forkWalk rows query snapshot (fuel + 1) n (some b) = forkWalk rows query snapshot fuel b.number
        (forkFetch rows snapshot (b.number - 1) b.prevHash) :=
  if_neg (by simp [hb])

/-- The walk from a block ends if those from the parents that it looks up do. -/
theorem forkWalk_ends_iff (n : Nat) (b : BlockRow) :
    (∃ fuel m, forkWalk rows query snapshot fuel n (some b) = some m) ↔
      Acc (flip (Looks rows query snapshot)) b := by
  constructor
  · rintro ⟨fuel, m, h⟩
    induction fuel generalizing n b with
    | zero => cases h
    | succ fuel ih =>
      refine ⟨_, fun p hp => ?_⟩
      rw [forkWalk_of_orphaned hp.1, hp.2] at h
      exact ih _ p h
  · intro h
    induction h generalizing n with
    | intro b _ ih =>
      cases hcontains : canonicalContains rows query snapshot b.watermark with
      | true => exact ⟨1, n, forkWalk_of_canonical hcontains⟩
      | false =>
        cases hparent : forkFetch rows snapshot (b.number - 1) b.prevHash with
        | none =>
          refine ⟨2, b.number, ?_⟩
          rw [forkWalk_of_orphaned hcontains, hparent]
          rfl
        | some p =>
          obtain ⟨fuel, m, hm⟩ := ih p ⟨hcontains, hparent⟩ b.number
          exact ⟨fuel + 1, m, by rw [forkWalk_of_orphaned hcontains, hparent, hm]⟩

/-- Numbers decrease along the walk, and only block 0 can come again. -/
theorem number_le_of_transGen {p : BlockRow}
    (h : Relation.TransGen (Looks rows query snapshot) b p) : p.number ≤ b.number - 1 := by
  induction h with
  | single h => exact Nat.le_of_eq (forkFetch_number h.2).2
  | tail _ h ih =>
    have := (forkFetch_number h.2).2
    omega

/-! ## The common ancestor -/

/-- The walk down a stored path stops right above its canonical end. -/
theorem forkWalk_descends {b a : BlockRow}
    (h : Descends rows query snapshot b a) {fuel : Nat} (hfuel : b.number + 1 ≤ fuel) :
    forkWalk rows query snapshot fuel (b.number + 1) (some b) = some (a.number + 1) := by
  induction h generalizing fuel with
  | canonical hcontains =>
    rcases Nat.exists_eq_add_of_le' hfuel with ⟨k, rfl⟩
    exact forkWalk_of_canonical hcontains
  | @orphaned b c a hcontains hnum hprev hfound _ ih =>
    rcases Nat.exists_eq_add_of_le' hfuel with ⟨k, rfl⟩
    have hpred : b.number - 1 = c.number := by omega
    rw [← Nat.add_assoc, forkWalk_of_orphaned hcontains, hpred, hprev, hfound, hnum]
    exact ih (by omega)

/-- The number before the first iteration is not used if the block is orphaned. -/
theorem forkWalk_of_descends {b a : BlockRow} {fuel n : Nat}
    (hnot : canonicalContains rows query snapshot b.watermark = false)
    (h : Descends rows query snapshot b a) (hfuel : b.number + 2 ≤ fuel) :
    forkWalk rows query snapshot fuel n (some b) = some (a.number + 1) := by
  rw [← forkWalk_descends h (Nat.le_of_succ_le hfuel)]
  rcases Nat.exists_eq_add_of_le' hfuel with ⟨k, rfl⟩
  rw [← Nat.add_assoc, forkWalk_of_orphaned hnot, forkWalk_of_orphaned hnot]

/-- Lookup by number alone. -/
theorem canonicalFetch_none {number : Nat}
    (h : canonicalFetch rows query snapshot number none = none) :
    ∀ b ∈ snapshot.canonicalRows rows query, b.number ≠ number := by
  intro b hb hnum
  have hmem : b ∈ (allRows rows (snapshot.canonicalSegments query)).filter fun r =>
      r.number == number && (none : Option BlockHash).all (· == r.hash) := by
    simp only [Option.all_none, Bool.and_true, List.mem_filter, beq_iff_eq]
    exact ⟨hb, hnum⟩
  rcases snapshot.limit.some_of_mem hmem with ⟨c, hc⟩
  unfold canonicalFetch blocksTableFetch at h
  rw [h] at hc
  cases hc

variable (rows query snapshot)

/-- For every content of the table `reorg_base` ends exactly if no orphaned block 0 that it meets
leads back to itself. If the blocks from an orphaned watermark `prev` down to a canonical ancestor
are stored and there is no destination table, it returns the canonical block after the ancestor. -/
theorem reorgBase_resumes_iff (prev : Watermark) :
    ((∃ fuel base, reorgBase rows query snapshot fuel prev = some base) ↔
      ∀ first, forkFetch rows snapshot prev.number (some prev.hash) = some first →
        ∀ b, Relation.ReflTransGen (Looks rows query snapshot) first b → b.number = 0 →
          ¬ Relation.TransGen (Looks rows query snapshot) b b) ∧
    (snapshot.destination = none → canonicalContains rows query snapshot prev = false →
      ∀ b ancestor, forkFetch rows snapshot prev.number (some prev.hash) = some b →
        Descends rows query snapshot b ancestor → ∀ fuel, prev.number + 2 ≤ fuel →
          ∃ base, reorgBase rows query snapshot fuel prev = some base ∧
            (∀ next, base = some next → next ∈ snapshot.canonicalRows rows query ∧
              next.number = ancestor.number + 1) ∧
            (base = none → ∀ next ∈ snapshot.canonicalRows rows query,
              next.number ≠ ancestor.number + 1)) := by
  constructor
  · have hends : (∃ fuel base, reorgBase rows query snapshot fuel prev = some base) ↔
        ∃ fuel m, forkWalk rows query snapshot fuel prev.number
          (forkFetch rows snapshot prev.number (some prev.hash)) = some m := by
      simp [reorgBase]
    rw [hends]
    cases forkFetch rows snapshot prev.number (some prev.hash) with
    | none => exact iff_of_true ⟨1, prev.number, rfl⟩ nofun
    | some first =>
      simp only [Option.some.injEq, forall_eq']
      rw [forkWalk_ends_iff, acc_iff_acyclic (l := allRows rows snapshot.forkFiles)
        fun _ p _ hp => (forkFetch_number hp.2).1]
      refine forall₂_congr fun b _ => ⟨fun h _ => h, fun h hcycle => h ?_ hcycle⟩
      have hle := number_le_of_transGen hcycle
      omega
  rintro hdest hnot b ancestor hfound hdesc fuel hfuel
  obtain ⟨hnum, hhash⟩ := (blocksTableFetch_some hfound).2
  have hb : b.watermark = prev := by
    cases prev
    simp_all [BlockRow.watermark]
  subst hb
  refine ⟨canonicalFetch rows query snapshot (ancestor.number + 1) none, ?_, ?_, ?_⟩
  · unfold reorgBase destinationStart
    rw [hfound, forkWalk_of_descends hnot hdesc hfuel, hdest]
    rfl
  · intro next hnext
    exact canonicalFetch_some hnext
  · exact canonicalFetch_none

/-! ## Two tables -/

/-- File 1 is canonical and file 2 orphaned. -/
def forkSegments (start : Nat) : List Segment :=
  [⟨2, ⟨⟨start, start⟩, "mainnet", 20, if start = 0 then none else some 5⟩, ⟨0⟩⟩,
    ⟨1, ⟨⟨0, start⟩, "mainnet", 10, none⟩, ⟨1⟩⟩]

def forkSnapshot (start : Nat) : Snapshot where
  files := forkSegments start
  sort := insertionSort Segment.lastModified
  forkFiles := forkSegments start
  limit := limitFirst
  sources := []
  destination := none

def anyQuery : StreamingQuery := ⟨0, none, 1, "mainnet", none⟩

/-- Blocks 0 and 1, and another block 1. -/
def forkRows (s : Segment) : List BlockRow :=
  if s.id = 1 then [⟨0, 5, none⟩, ⟨1, 10, some 5⟩] else [⟨1, 20, some 5⟩]

theorem reorgBase_resumes_forked :
    ∃ base, reorgBase forkRows anyQuery (forkSnapshot 1) 3 ⟨1, 20⟩ = some base ∧
      ∀ next, base = some next → next.number = 1 := by
  have hdesc : Descends forkRows anyQuery (forkSnapshot 1) ⟨1, 20, some 5⟩ ⟨0, 5, none⟩ :=
    .orphaned (by decide) rfl rfl (by decide) (.canonical (by decide))
  rcases (reorgBase_resumes_iff forkRows anyQuery (forkSnapshot 1) ⟨1, 20⟩).2 rfl (by decide)
    ⟨1, 20, some 5⟩ ⟨0, 5, none⟩ (by decide) hdesc 3 (Nat.le_refl _) with ⟨base, hbase, hnext, -⟩
  exact ⟨base, hbase, fun next h => (hnext next h).2⟩

/-- Two blocks 0 without a parent hash. -/
def genesisRows (s : Segment) : List BlockRow :=
  if s.id = 1 then [⟨0, 10, none⟩] else [⟨0, 20, none⟩]

/-- The row of the orphaned block 0 answers for its own parent. -/
theorem reorgBase_loops : canonicalContains genesisRows anyQuery (forkSnapshot 0) ⟨0, 10⟩ = true ∧
      ∀ fuel, reorgBase genesisRows anyQuery (forkSnapshot 0) fuel ⟨0, 20⟩ = none := by
  refine ⟨by decide, fun fuel => ?_⟩
  have hnot : canonicalContains genesisRows anyQuery (forkSnapshot 0) ⟨0, 20⟩ = false := by
    decide
  have hwalk : forkWalk genesisRows anyQuery (forkSnapshot 0) fuel 0 (some ⟨0, 20, none⟩) =
      none := by
    induction fuel with
    | zero => rfl
    | succ fuel ih => exact (forkWalk_of_orphaned hnot).trans ih
  unfold reorgBase
  exact congrArg (Option.map _) hwalk

end CampNode

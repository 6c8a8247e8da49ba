import CampNode.Dump.Dataset

/-!
# CampNode.Dump.Rotation — the files of one table

A table writer closes its file for three reasons: the range ends, the next block does not
continue the chain, the file is large enough. In a dump the blocks of a provider form a chain.
Here they need not, so that all three reasons meet.

What the writer still has on its stack may be cut further, but never changes otherwise. The
invariant (`Rotating`) says this with one clause: whatever the stack is cut into, together with
the files so far it is a cut of the missing ranges. Closing the file at the end of a range and
splitting a range are the two ways to make a `Cut`.

Two inputs are excluded. A file without rows must be below the byte limit, or else the first
block meets a file that is large enough and has no range. And a range of all `2 ^ 64` block
numbers has length 0 in `u64`, so that it is not limited (`rotation_fails`).
-/

namespace CampNode

open List RawTableWriter

variable {τ β : Type}

/-! ## Blocks and files -/

/-- The blocks that a table writer is given. A block may name any parent, or none. -/
structure BlockFeed (β : Type) where
  network : String
  hash : Nat → BlockHash
  prevHash : Nat → Option BlockHash
  rows : Nat → β

namespace BlockFeed

variable (feed : BlockFeed β) (first last : Nat)

/-- The range of some blocks, with the parent of the first and the hash of the last. -/
def range : BlockRange :=
  ⟨⟨first, last⟩, feed.network, feed.hash last, feed.prevHash first⟩

def tableRows (t : τ) (n : Nat) : RawTableRows τ β := ⟨t, feed.rows n, feed.range n n, rfl⟩

/-- Every block that names its parent names the block before. -/
def Linked : Prop :=
  ∀ n h, first ≤ n → n < last → feed.prevHash (n + 1) = some h → h = feed.hash n

/-- The file of some blocks. -/
def file : ParquetFile β :=
  ⟨feed.range first last, (List.range' first (last + 1 - first)).map feed.rows⟩

/-- A file of linked blocks. -/
def Filed (f : ParquetFile β) : Prop :=
  ∃ first last, first ≤ last ∧ feed.Linked first last ∧ f = feed.file first last

theorem file_single (n : Nat) : feed.file n n = ⟨feed.range n n, [feed.rows n]⟩ := by
  unfold file
  rw [Nat.add_sub_cancel_left]
  rfl

theorem file_extend {first last : Nat} (h : first ≤ last) : feed.file first (last + 1) =
      ⟨feed.range first (last + 1), (feed.file first last).batches ++ [feed.rows (last + 1)]⟩ := by
  have hlen : last + 1 + 1 - first = last + 1 - first + 1 := by omega
  have hlast : first + (last + 1 - first) = last + 1 := by omega
  unfold file
  rw [hlen, range'_1_concat, hlast, map_append]
  rfl

variable {feed}

theorem Linked.single (n : Nat) : feed.Linked n n := by
  intro m h hfirst hlast
  omega

theorem Linked.extend {first last : Nat} (h : feed.Linked first last)
    (hnext : ∀ hash, feed.prevHash (last + 1) = some hash → hash = feed.hash last) :
    feed.Linked first (last + 1) := by
  intro n hash hfirst hlt hprev
  rcases Nat.lt_succ_iff_lt_or_eq.mp hlt with hlt | rfl
  · exact h n hash hfirst hlt hprev
  · exact hnext hash hprev

end BlockFeed

/-! ## One block -/

/-- Where a writer stands before block `n`. -/
inductive Stands (feed : BlockFeed β) (t : τ) (n : Nat) : RawTableWriter τ β → Prop where
  | done : Stands feed t n ⟨t, [], none, none⟩
  | waiting {r rest} : n ≤ r.start → Stands feed t n ⟨t, r :: rest, some [], none⟩
  | inside {r rest last f} : f = feed.file r.start last → r.start ≤ last → last + 1 = n →
      last ≤ r.stop → feed.Linked r.start last →
      Stands feed t n ⟨t, r :: rest, some f.batches, some f.range⟩

/-- A writer before block `n`, with the files it has closed. -/
structure Rotating (feed : BlockFeed β) (t : τ) (ranges : List RangeInclusive) (n : Nat)
    (files : List (ParquetFile β)) (w : RawTableWriter τ β) : Prop where
  stands : Stands feed t n w
  valid : ∀ r ∈ w.rangesToWrite, r.Valid
  pair : w.rangesToWrite.Pairwise RangeInclusive.Below
  tiles : ∀ parts, Cut w.rangesToWrite parts → Cut ranges (files.map (·.range.numbers) ++ parts)
  filed : ∀ f ∈ files, feed.Filed f

section

variable {feed : BlockFeed β} {t : τ} {ranges : List RangeInclusive} {n : Nat}
  {files : List (ParquetFile β)} {opts : WriterProperties β}
variable {r : RangeInclusive} {rest : List RangeInclusive} {w : RawTableWriter τ β}

/-- The file of the first range on the stack is closed. -/
theorem Rotating.closed {rest stack : List RangeInclusive} {file : Option (List β)}
    {range : Option BlockRange} {f : ParquetFile β} {last : Nat}
    (h : Rotating feed t ranges n files ⟨t, r :: rest, file, range⟩)
    (hf : f = feed.file r.start last) (hle : r.start ≤ last) (hlinked : feed.Linked r.start last)
    (hcut : ∀ parts, Cut stack parts → Cut (r :: rest) (⟨r.start, last⟩ :: parts)) :
    (∀ parts, Cut stack parts → Cut ranges ((files ++ [f]).map (·.range.numbers) ++ parts)) ∧
      ∀ g ∈ files ++ [f], feed.Filed g := by
  constructor
  · intro parts hparts
    have htiles := h.tiles _ (hcut parts hparts)
    rw [map_append, append_assoc, hf]
    exact htiles
  · intro g hg
    rcases mem_append.mp hg with hg | hg
    · exact h.filed g hg
    · rw [mem_singleton.mp hg]
      exact ⟨r.start, last, hle, hlinked, hf⟩

/-- After `passRange` the writer is not past its range, and a writer that closed a file has no
open file with rows. -/
theorem passRange_spec (h : Rotating feed t ranges n files w) :
    ∃ out w', w.passRange n = some (out, w') ∧ Rotating feed t ranges n (files ++ out.toList) w' ∧
      (∀ r ∈ w'.rangesToWrite.head?, n ≤ r.stop) ∧ (out = none ∨ w'.currentRange = none) := by
  have hrotating := h
  rcases h with ⟨hstands, hvalid, hpair, htiles, hfiled⟩
  have hsame : files ++ (none : Option (ParquetFile β)).toList = files := append_nil files
  cases hstands with
  | done => exact ⟨none, _, rfl, hsame.symm ▸ hrotating, nofun, .inl rfl⟩
  | @waiting r rest hn =>
    have hr : r.start ≤ r.stop := hvalid r mem_cons_self
    refine ⟨none, _, if_neg (by omega), hsame.symm ▸ hrotating, ?_, .inl rfl⟩
    intro x hx
    cases hx
    omega
  | @inside r rest last f hf hle hn hstop hlinked =>
    by_cases hlt : r.stop < n
    · -- the range is complete
      have hlast : last = r.stop := by omega
      rcases pairwise_cons.mp hpair with ⟨hfirst, hpair⟩
      have hvalid' : ∀ s ∈ rest, s.Valid := fun s hs => hvalid s (mem_cons_of_mem r hs)
      have hcut : ∀ parts, Cut rest parts → Cut (r :: rest) (⟨r.start, last⟩ :: parts) := by
        intro parts hparts
        rw [hlast]
        exact .keep hparts
      rcases hrotating.closed hf hle hlinked hcut with ⟨htiles', hfiled'⟩
      refine ⟨some f, ⟨t, rest, rest.head?.map fun _ => [], none⟩, if_pos hlt,
        ⟨?_, hvalid', hpair, htiles', hfiled'⟩, ?_, .inr rfl⟩
      · cases rest with
        | nil => exact .done
        | cons s rest =>
          have hbelow : r.stop < s.start := hfirst s mem_cons_self
          exact .waiting (by omega)
      · intro x hx
        have hmem := mem_of_mem_head? hx
        have hbelow : r.stop < x.start := hfirst x hmem
        have hx : x.start ≤ x.stop := hvalid' x hmem
        omega
    · refine ⟨none, _, if_neg hlt, hsame.symm ▸ hrotating, ?_, .inl rfl⟩
      intro x hx
      cases hx
      omega

/-- The first block of a file. -/
theorem Rotating.begin (h : Rotating feed t ranges n files ⟨t, r :: rest, some [], none⟩) (hn : r.start = n)
    (hstop : n ≤ r.stop) :
    ∃ w', writeRows ⟨t, r :: rest, some [], none⟩ (feed.tableRows t n) = some w' ∧
      Rotating feed t ranges (n + 1) files w' := by
  subst hn
  refine ⟨_, rfl, ?_, h.valid, h.pair, h.tiles, h.filed⟩
  exact .inside (feed.file_single r.start).symm (Nat.le_refl _) rfl hstop (.single _)

/-- One more block of a file. -/
theorem Rotating.extend {f : ParquetFile β}
    {last : Nat}
    (h : Rotating feed t ranges n files ⟨t, r :: rest, some f.batches, some f.range⟩)
    (hf : f = feed.file r.start last) (hle : r.start ≤ last) (hn : last + 1 = n)
    (hstop : n ≤ r.stop) (hlinked : feed.Linked r.start n) :
    ∃ w', writeRows ⟨t, r :: rest, some f.batches, some f.range⟩
        (feed.tableRows t n) = some w' ∧ Rotating feed t ranges (n + 1) files w' := by
  subst hn hf
  have hnetwork : (feed.file r.start last).range.network =
    (feed.tableRows t (last + 1)).range.network := rfl
  refine ⟨_, if_pos hnetwork, ?_, h.valid, h.pair, h.tiles, h.filed⟩
  exact .inside (feed.file_extend hle).symm (Nat.le_succ_of_le hle) rfl hstop hlinked

/-- The file is closed before block `n` and the rest of its range is left. -/
theorem splitFile_closes {f : ParquetFile β} {last : Nat}
    (h : Rotating feed t ranges n files ⟨t, r :: rest, some f.batches, some f.range⟩)
    (hf : f = feed.file r.start last) (hle : r.start ≤ last) (hn : last + 1 = n)
    (hstop : n ≤ r.stop) (hlinked : feed.Linked r.start last) (hu64 : n < 2 ^ 64)
    (hclose : isReorg ⟨t, r :: rest, some f.batches, some f.range⟩
        (feed.tableRows t n) = true ∨ opts.bytesWritten f.batches ≥ opts.partitionBytes) :
    splitFile opts ⟨t, r :: rest, some f.batches, some f.range⟩
        (feed.tableRows t n) none =
        some (some f, ⟨t, ⟨n, r.stop⟩ :: rest, some [], none⟩) ∧
      Rotating feed t ranges n (files ++ [f]) ⟨t, ⟨n, r.stop⟩ :: rest, some [], none⟩ := by
  constructor
  · have hprev : f.range.stop = prevBlock n := by
      rw [hf]
      show last = (n + (2 ^ 64 - 1)) % 2 ^ 64
      omega
    have hblock : (feed.tableRows t n).blockNum = n := rfl
    have hcond : (isReorg ⟨t, r :: rest, some f.batches, some f.range⟩
        (feed.tableRows t n) || decide (opts.bytesWritten f.batches ≥ opts.partitionBytes)) =
          true := by
      rw [Bool.or_eq_true, decide_eq_true_eq]
      exact hclose
    unfold splitFile
    simp only [Option.bind_eq_bind, Option.bind_some]
    rw [if_pos hcond]
    simp [closeCurrentFile, hblock, hprev.symm]
  · have hcut : ∀ parts, Cut (⟨n, r.stop⟩ :: rest) parts →
        Cut (r :: rest) (⟨r.start, last⟩ :: parts) := by
      intro parts hparts
      rw [← hn] at hparts
      exact .cut hle (by omega) hparts
    rcases h.closed hf hle hlinked hcut with ⟨htiles, hfiled⟩
    rcases pairwise_cons.mp h.pair with ⟨hfirst, hpair⟩
    refine ⟨.waiting (Nat.le_refl n), ?_, pairwise_cons.mpr ⟨hfirst, hpair⟩, htiles, hfiled⟩
    intro s hs
    rcases mem_cons.mp hs with rfl | hs
    · exact hstop
    · exact h.valid s (mem_cons_of_mem r hs)

/-- The last two parts of `writeBlock`. -/
theorem writeBlock_of_split {w w₁ w' : RawTableWriter τ β} {out out' : Option (ParquetFile β)}
    {rows : RawTableRows τ β} (hranges : w.rangesToWrite = r :: rest)
    (hreached : r.start ≤ rows.blockNum) (hsplit : w.splitFile opts rows out = some (out', w₁))
    (hrows : w₁.writeRows rows = some w') :
    w.writeBlock opts rows out = some (out', w') := by
  unfold writeBlock
  rw [hranges]
  simp only [if_neg (Nat.not_lt.mpr hreached), hsplit, hrows, Option.bind_eq_bind, Option.bind_some]

/-- A block that is not past the range of the writer. -/
theorem writeBlock_spec {out : Option (ParquetFile β)}
    (h : Rotating feed t ranges n (files ++ out.toList) w)
    (hempty : opts.bytesWritten [] < opts.partitionBytes) (hu64 : n < 2 ^ 64)
    (hreach : ∀ r ∈ w.rangesToWrite.head?, n ≤ r.stop) (hout : out = none ∨ w.currentRange = none) :
    ∃ out' w', w.writeBlock opts (feed.tableRows t n) out = some (out', w') ∧
      Rotating feed t ranges (n + 1) (files ++ out'.toList) w' := by
  have hrotating := h
  rcases h with ⟨hstands, hvalid, hpair, htiles, hfiled⟩
  cases hstands with
  | done => exact ⟨out, _, rfl, .done, hvalid, hpair, htiles, hfiled⟩
  | @waiting r rest hn =>
    by_cases hlt : n < r.start
    · -- the range is not reached
      exact ⟨out, _, if_pos hlt, .waiting hlt, hvalid, hpair, htiles, hfiled⟩
    have hsplit : splitFile opts ⟨t, r :: rest, some [], none⟩
        (feed.tableRows t n) out = some (out, ⟨t, r :: rest, some [], none⟩) := by
      simp [splitFile, isReorg, hempty]
    rcases hrotating.begin (by omega) (hreach r rfl) with ⟨w', hw', hrotating'⟩
    exact ⟨out, w', writeBlock_of_split rfl (Nat.le_of_not_lt hlt) hsplit hw', hrotating'⟩
  | @inside r rest last f hf hle hn hstop hlinked =>
    have hreached : r.start ≤ n := by omega
    have hreach : n ≤ r.stop := hreach r rfl
    rcases hout with rfl | hnone
    · by_cases hclose : isReorg ⟨t, r :: rest, some f.batches, some f.range⟩
          (feed.tableRows t n) = true ∨ opts.bytesWritten f.batches ≥ opts.partitionBytes
      · -- the file is closed and the block begins the next one
        rw [Option.toList_none, append_nil] at hrotating
        rcases splitFile_closes hrotating hf hle hn hreach hlinked hu64 hclose with
          ⟨hsplit, hclosed⟩
        rcases hclosed.begin rfl hreach with ⟨w', hw', hrotating'⟩
        exact ⟨some f, w', writeBlock_of_split rfl hreached hsplit hw', hrotating'⟩
      -- the block is added to the file
      rcases not_or.mp hclose with ⟨hreorg, hbytes⟩
      have hsplit : splitFile opts ⟨t, r :: rest, some f.batches, some f.range⟩
          (feed.tableRows t n) none =
            some (none, ⟨t, r :: rest, some f.batches, some f.range⟩) := by
        simp [splitFile, hreorg, hbytes]
      have hlinked' : feed.Linked r.start n := by
        rw [← hn]
        refine hlinked.extend ?_
        intro hash hprev
        have hsame : feed.hash last = hash := by
          simpa [isReorg, hf, ← hn, BlockFeed.file, BlockFeed.range,
            BlockFeed.tableRows, hprev] using hreorg
        exact hsame.symm
      rcases hrotating.extend hf hle hn hreach hlinked' with ⟨w', hw', hrotating'⟩
      exact ⟨none, w', writeBlock_of_split rfl hreached hsplit hw', hrotating'⟩
    · cases hnone

/-- What block `n` does to a writer that stands before it. -/
theorem Rotating.write [DecidableEq τ] (h : Rotating feed t ranges n files w)
    (hempty : opts.bytesWritten [] < opts.partitionBytes) (hu64 : n < 2 ^ 64) :
    ∃ out w', w.write opts (feed.tableRows t n) = some (out, w') ∧
      Rotating feed t ranges (n + 1) (files ++ out.toList) w' := by
  have htable : (feed.tableRows t n).table = w.table := by
    cases h.stands <;> rfl
  rcases passRange_spec h with ⟨out, w₁, hpass, hrotating, hreach, hout⟩
  rcases writeBlock_spec hrotating hempty hu64 hreach hout with ⟨out', w', hwrite, hrotating'⟩
  refine ⟨out', w', ?_, hrotating'⟩
  refine (if_pos htable).trans ?_
  show (passRange w n).bind _ = _
  rw [hpass]
  exact hwrite

/-! ## All blocks -/

/-- A run of blocks. -/
theorem Rotating.writeAll [DecidableEq τ] {count : Nat} {s : TableDump τ β}
    {w : RawTableWriter τ β} (h : Rotating feed t ranges n s.files w) (hs : s.writer = some w)
    (hempty : opts.bytesWritten [] < opts.partitionBytes) (hu64 : n + count ≤ 2 ^ 64) :
    ∃ s' w', ((range' n count).map (feed.tableRows t)).foldlM (TableDump.write opts) s =
        some s' ∧ s'.writer = some w' ∧ Rotating feed t ranges (n + count) s'.files w' := by
  induction count generalizing n s w with
  | zero => exact ⟨s, w, rfl, hs, h⟩
  | succ count ih =>
    rcases h.write hempty (by omega) with ⟨out, w₁, hw₁, h₁⟩
    have hstep : s.write opts (feed.tableRows t n) = some ⟨some w₁, s.files ++ out.toList⟩ := by
      rw [TableDump.write, hs]
      show (w.write opts (feed.tableRows t n)).bind _ = _
      rw [hw₁]
      rfl
    have hrest := @ih (n + 1) ⟨some w₁, s.files ++ out.toList⟩ w₁ h₁ rfl (by omega)
    rcases hrest with ⟨s', w', hs', hwriter, h'⟩
    refine ⟨s', w', ?_, hwriter, ?_⟩
    · rw [range'_succ, map_cons, foldlM_cons, hstep]
      exact hs'
    · rw [Nat.add_right_comm, Nat.add_assoc] at h'
      exact h'

/-- The end of the blocks. -/
theorem Rotating.close {s : TableDump τ β} (h : Rotating feed t ranges n s.files w)
    (hs : s.writer = some w) (hvalid : ∀ r ∈ ranges, r.Valid) (hend : ∀ r ∈ ranges, r.stop < n) :
    ∃ files, s.close = some ⟨none, files⟩ ∧ Cut ranges (files.map (·.range.numbers)) ∧
      ∀ f ∈ files, feed.Filed f := by
  have hstack : ∀ r ∈ w.rangesToWrite, r.stop < n := by
    intro r hr
    exact (h.tiles _ (.refl _)).stop_lt hvalid hend r (mem_append_right _ hr)
  have hrotating := h
  rcases h with ⟨hstands, hwvalid, hpair, htiles, hfiled⟩
  cases hstands with
  | done =>
    have hcut := htiles [] .nil
    rw [append_nil] at hcut
    refine ⟨s.files, ?_, hcut, hfiled⟩
    simp [TableDump.close, hs, close]
  | @waiting r rest hn =>
    have hr : r.start ≤ r.stop := hwvalid r mem_cons_self
    have hstop := hstack r mem_cons_self
    omega
  | @inside r rest last f hf hle hn hstop hlinked =>
    -- a later range would end after the last block
    have hrest : rest = [] := by
      cases rest with
      | nil => rfl
      | cons r' rest =>
        have hmem : r' ∈ r :: r' :: rest := mem_cons_of_mem r mem_cons_self
        have hbelow : r.stop < r'.start := (pairwise_cons.mp hpair).1 r' mem_cons_self
        have hr' : r'.start ≤ r'.stop := hwvalid r' hmem
        have hend' := hstack r' hmem
        omega
    subst hrest
    have hlast : last = r.stop := by
      have hend' := hstack r mem_cons_self
      omega
    have hcut : ∀ parts, Cut [] parts → Cut [r] (⟨r.start, last⟩ :: parts) := by
      intro parts hparts
      rw [hlast]
      exact .keep hparts
    rcases hrotating.closed hf hle hlinked hcut with ⟨htiles', hfiled'⟩
    have hall := htiles' [] .nil
    rw [append_nil] at hall
    refine ⟨s.files ++ [f], ?_, hall, hfiled'⟩
    simp [TableDump.close, hs, close, closeCurrentFile]

end

/-- Write some blocks of a table to files, with the missing ranges of the table. -/
def writeTable [DecidableEq τ] (opts : WriterProperties β) (t : τ) (missing : List RangeInclusive)
    (blocks : List (RawTableRows τ β)) : Option (List (ParquetFile β)) := do
  let w ← RawTableWriter.new t missing
  let s ← blocks.foldlM (TableDump.write opts) ⟨some w, []⟩
  let s ← s.close
  some s.files

/-- The files of a table: they tile its missing ranges in order, none has too many blocks, and
each has linked blocks, the parent of its first block and the hash of its last. -/
theorem writeTable_tiles [DecidableEq τ] (opts : WriterProperties β) (t : τ) (feed : BlockFeed β)
    (missing : List RangeInclusive) (first last : Nat) (hfirst : first ≤ last)
    (hlast : last < 2 ^ 64)
    (hvalid : ∀ r ∈ missing, r.Valid) (hpair : missing.Pairwise RangeInclusive.Below)
    (hinside : ∀ r ∈ missing, first ≤ r.start ∧ r.stop ≤ last)
    (hlt : ∀ r ∈ missing, blockCount r < 2 ^ 64)
    (hempty : opts.bytesWritten [] < opts.partitionBytes) :
    ∃ files, writeTable opts t missing
        ((range' first (last + 1 - first)).map (feed.tableRows t)) = some files ∧
      Cut missing (files.map (·.range.numbers)) ∧
      blockNumbers (files.map (·.range.numbers)) = blockNumbers missing ∧
      ∀ f ∈ files, blockCount f.range.numbers ≤ maxPartitionBlockRange ∧
        f.range.Valid ∧ f.range.network = feed.network ∧
        f.range.prevHash = feed.prevHash f.range.start ∧ f.range.hash = feed.hash f.range.stop ∧
        feed.Linked f.range.start f.range.stop ∧
        f.batches = (range' f.range.start (f.range.stop + 1 - f.range.start)).map feed.rows := by
  rcases limitRanges_spec (show 0 < maxPartitionBlockRange by decide) hvalid hlt with
    ⟨ranges, hranges, hcut, hsize⟩
  have hrvalid := hcut.valid hvalid
  have hbegin := hcut.le_start hvalid fun r hr => (hinside r hr).1
  have hend := hcut.stop_lt hvalid fun r hr => Nat.lt_succ_of_le (hinside r hr).2
  have hcount : first + (last + 1 - first) = last + 1 := by omega
  have hnew : (new t missing : Option (RawTableWriter τ β)) =
      some ⟨t, ranges, ranges.head?.map fun _ => [], none⟩ := by
    rw [new, hranges]
    rfl
  have hstart : Rotating feed t ranges first [] ⟨t, ranges, ranges.head?.map fun _ => [], none⟩ := by
    refine ⟨?_, hrvalid, hcut.pairwise hvalid hpair, fun _ hparts => hparts, forall_mem_nil _⟩
    cases ranges with
    | nil => exact .done
    | cons r rest => exact .waiting (hbegin r mem_cons_self)
  rcases @Rotating.writeAll τ β feed t ranges first opts _ (last + 1 - first) ⟨some _, []⟩ _ hstart
    rfl hempty (by omega) with ⟨s, w, hs, hwriter, hrotating⟩
  rw [hcount] at hrotating
  rcases hrotating.close hwriter hrvalid hend with ⟨files, hclose, htiles, hfiled⟩
  have hall := hcut.trans htiles
  refine ⟨files, ?_, hall, hall.blockNumbers_eq, ?_⟩
  · simp only [writeTable, hnew, Option.bind_eq_bind, Option.bind_some, hs, hclose]
  · intro f hf
    have hlimit := htiles.blockCount_le hsize f.range.numbers (mem_map.mpr ⟨f, hf, rfl⟩)
    rcases hfiled f hf with ⟨a, b, hle, hlinked, rfl⟩
    exact ⟨hlimit, hle, rfl, rfl, rfl, hlinked, rfl⟩

/-- Block 7 names another parent than block 6. -/
def forkedFeed : BlockFeed Nat :=
  ⟨"mainnet", fun n => n, fun n => if n = 7 then some 66 else some (n - 1), id⟩

/-- Blocks 4 to 11 with two missing ranges, in files of at most two blocks. -/
theorem writeTable_tiles_forked : ∃ files, writeTable ⟨2, length⟩ () [⟨5, 8⟩, ⟨10, 10⟩]
      ((range' 4 8).map (forkedFeed.tableRows ())) = some files ∧
      Cut [⟨5, 8⟩, ⟨10, 10⟩] (files.map (·.range.numbers)) := by
  rcases writeTable_tiles ⟨2, length⟩ () forkedFeed [⟨5, 8⟩, ⟨10, 10⟩] 4 11 (by decide)
    (by decide) (by decide) (by simp [RangeInclusive.Below]) (by decide) (by decide) (by decide) with
    ⟨files, hfiles, hcut, -⟩
  exact ⟨files, hfiles, hcut⟩

example : (writeTable ⟨2, length⟩ () [⟨5, 8⟩, ⟨10, 10⟩]
    ((range' 4 8).map (forkedFeed.tableRows ()))).map (·.map (·.range.numbers)) =
      some [⟨5, 6⟩, ⟨7, 8⟩, ⟨10, 10⟩] := by
  decide

/-- A Parquet file without rows has the four bytes of its magic number. With a limit of four
bytes the first block of a range finds no range to close. And the range of all block numbers is
one file. -/
theorem rotation_fails : writeTable ⟨4, fun batches : List Nat => 4 + batches.length⟩ () [⟨5, 5⟩]
        ((range' 5 1).map (forkedFeed.tableRows ())) = none ∧
      (new () [⟨0, 2 ^ 64 - 1⟩] : Option (RawTableWriter Unit Nat)).map
        (·.rangesToWrite) = some [⟨0, 2 ^ 64 - 1⟩] ∧
      maxPartitionBlockRange < blockCount ⟨0, 2 ^ 64 - 1⟩ := by
  refine ⟨by decide, ?_, by decide⟩
  rfl

end CampNode

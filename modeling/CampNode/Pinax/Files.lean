import CampNode.Core.BinarySearch
import CampNode.Core.Radix
import Mathlib.Data.List.Sort
import Mathlib.Data.String.Basic

/-!
# CampNode.Pinax.Files — the files of a block range

The Pinax extractor reads Parquet files of another party. The files of a table are listed and
sorted by location, which is their order in time. The block numbers of a file are known from the
statistics of its row groups, if they have any. `files_in_range` looks for the first file that
reaches the start block by a binary search, in which a file without statistics counts as one that
does, and then takes files up to the first that is known to start behind the end block. The rows
of all these files are loaded, and each block of the range gets the rows with its number.

* `files_in_range_complete` — if the blocks of the files are increasing, no file with a row of the
  range is left out, whichever files have statistics, and every row of the range is found for one
  block, once.
* `fileBounds_covers` — files whose row groups all have statistics have known bounds that hold
  for their rows. If only some have, the bounds are those of the row groups that do.
-/

namespace CampNode.Pinax

open List

/-! ## Files -/

abbrev Location := String

/-- Statistics of a column: the bytes of the least and of the greatest value. -/
structure Statistics where
  minBytes : Option (List UInt8)
  maxBytes : Option (List UInt8)

/-- A row group: the statistics by column, and the rows as they are mapped to the table. -/
structure RowGroup (Row : Type) where
  statistics : Nat → Option Statistics
  rows : List Row

structure ParquetFile (Row : Type) where
  columns : List String
  rowGroups : List (RowGroup Row)

/-- The object store: what is listed for a table, and the files. -/
structure Store (ε Row : Type) where
  list : Except ε (List Location)
  read : Location → Except ε (ParquetFile Row)

section Bounds

variable {Row : Type}

/-- Eight bytes, the least significant first. -/
def u64le : Option (List UInt8) → Option Nat
  | none => none
  | some bytes => if bytes.length = 8 then some (ofBE bytes.reverse) else none

/-- The bounds that a row group has statistics for. -/
def groupBounds (idx : Nat) (group : RowGroup Row) : Option (Nat × Nat) :=
  match group.statistics idx with
  | none => none
  | some st =>
      match u64le st.minBytes, u64le st.maxBytes with
      | some a, some b => some (a, b)
      | _, _ => none

/-- The loop over the row groups, with `lo`, `hi` and `have`. -/
def boundsFrom (idx : Nat) (acc : Nat × Nat × Bool) (groups : List (RowGroup Row)) :
    Nat × Nat × Bool :=
  groups.foldl (fun (lo, hi, known) group => match groupBounds idx group with
    | some (a, b) => (min lo a, max hi b, true)
    | none => (lo, hi, known)) acc

def fileBounds (file : ParquetFile Row) : Option Nat × Option Nat :=
  match file.columns.findIdx? (· == "block_num") with
  | none => (none, none)
  | some idx =>
      match boundsFrom idx (2 ^ 64 - 1, 0, false) file.rowGroups with
      | (lo, hi, true) => (some lo, some hi)
      | (_, _, false) => (none, none)

def ParquetFile.rows (file : ParquetFile Row) : List Row := file.rowGroups.flatMap (·.rows)

end Bounds

/-! ## File selection -/

section Selection

variable {ε Row : Type} (store : Store ε Row) (start stop : Nat)
variable (blockNum : Row → Option Nat) (metas : List Location)

/-- The test of the binary search: the file is known to end before the start block. -/
def endsBefore (i : Nat) : Except ε Bool :=
  match metas[i]? with
  | none => .ok false
  | some location =>
      match store.read location with
      | .error e => .error e
      | .ok file =>
          match (fileBounds file).2 with
          | some mx => .ok (mx < start)
          | none => .ok false

/-- The forward scan, up to the first file that is known to start behind the end block. -/
def scan : List Location → Except ε (List Location)
  | [] => .ok []
  | location :: rest =>
      match store.read location with
      | .error e => .error e
      | .ok file =>
          if (fileBounds file).1.any (stop < ·) then .ok []
          else (scan rest).map (location :: ·)

/-- `sort_by` location. -/
def sortByLocation : List Location :=
  metas.insertionSort (· ≤ ·)

def filesInRange : Except ε (List Location) :=
  match store.list with
  | .error e => .error e
  | .ok listed =>
      let metas := sortByLocation listed
      match searchFrom (endsBefore store start metas) metas.length 0 metas.length with
      | .error e => .error e
      | .ok lo => scan store stop (metas.drop lo)

/-- The search ends by itself: more rounds change nothing. -/
theorem search_not_cut (more : Nat) :
    searchFrom (endsBefore store start metas) (metas.length + more) 0 metas.length =
      searchFrom (endsBefore store start metas) metas.length 0 metas.length := by
  induction more with
  | zero => rfl
  | succ more ih => rw [← ih, ← Nat.add_assoc, searchFrom_fuel (by omega)]

/-- The rows of a block among those of the files. A row without a number is dropped. -/
def filterBlock (batches : List (List Row)) (block : Nat) : List Row :=
  (batches.map fun b => b.filter fun row => blockNum row == some block).flatten

/-- The rows of the files, file by file. -/
def load : List Location → Except ε (List (List Row))
  | [] => .ok []
  | location :: rest =>
      match store.read location with
      | .error e => .error e
      | .ok file => (load rest).map (file.rows :: ·)

/-- `block_stream` for one table: the rows of each block of the range. -/
def blockStream : Except ε (List (List Row)) :=
  match filesInRange store start stop with
  | .error e => .error e
  | .ok files =>
      match load store files with
      | .error e => .error e
      | .ok batches =>
          .ok ((List.range' start (stop + 1 - start)).map (filterBlock blockNum batches))

end Selection

/-! ## Bounds -/

section Bounds

variable {Row : Type} (blockNum : Row → Option Nat)

/-- The numbers of all rows of the file are between the bounds. The bounds are what the statistics
say, unless there are none. -/
structure Bounded (file : ParquetFile Row) (bounds : Nat × Nat) : Prop where
  ordered : bounds.1 ≤ bounds.2
  rows : ∀ row ∈ file.rows, ∀ n, blockNum row = some n → bounds.1 ≤ n ∧ n ≤ bounds.2
  known : fileBounds file = (some bounds.1, some bounds.2) ∨ fileBounds file = (none, none)

/-- The row has a number of the range. -/
def inRange (start stop : Nat) (row : Row) : Bool :=
  (blockNum row).any fun n => start ≤ n && n ≤ stop

variable {blockNum}

/-- The statistics of a row group hold for its rows. -/
def GroupExact (blockNum : Row → Option Nat) (idx : Nat) (group : RowGroup Row) : Prop :=
  ∃ a b, groupBounds idx group = some (a, b) ∧ a ≤ b ∧
    ∀ row ∈ group.rows, ∀ n, blockNum row = some n → a ≤ n ∧ n ≤ b

/-- The bounds only widen, and hold for all rows seen. -/
theorem boundsFrom_covers {idx : Nat} {groups : List (RowGroup Row)} {lo hi : Nat} {known : Bool}
    (hgroups : ∀ group ∈ groups, GroupExact blockNum idx group) (hknown : known = true → lo ≤ hi) :
    ∃ lo' hi' known', boundsFrom idx (lo, hi, known) groups = (lo', hi', known') ∧
      lo' ≤ lo ∧ hi ≤ hi' ∧ (known = true ∨ groups ≠ [] → known' = true ∧ lo' ≤ hi') ∧
      ∀ group ∈ groups, ∀ row ∈ group.rows, ∀ n, blockNum row = some n → lo' ≤ n ∧ n ≤ hi' := by
  induction groups generalizing lo hi known with
  | nil =>
    refine ⟨lo, hi, known, rfl, Nat.le_refl _, Nat.le_refl _, ?_, nofun⟩
    rintro (h | h)
    · exact ⟨h, hknown h⟩
    · exact absurd rfl h
  | cons group groups ih =>
    obtain ⟨a, b, hbounds, hab, hrows⟩ := hgroups group mem_cons_self
    obtain ⟨lo', hi', known', heq, hlo, hhi, hany, hall⟩ :=
      @ih (min lo a) (max hi b) true (fun g hg => hgroups g (mem_cons_of_mem _ hg))
        (fun _ => by omega)
    refine ⟨lo', hi', known', ?_, by omega, by omega, fun _ => hany (.inl rfl), ?_⟩
    · unfold boundsFrom at heq ⊢
      rw [foldl_cons]
      simp only [hbounds]
      exact heq
    · intro g hg row hrow n hn
      rcases mem_cons.mp hg with rfl | hg
      · have := hrows row hrow n hn
        omega
      · exact hall g hg row hrow n hn

/-- Row groups that all have statistics give bounds that hold for all rows of the file. -/
theorem fileBounds_covers {file : ParquetFile Row} {idx : Nat}
    (hcolumn : file.columns.findIdx? (· == "block_num") = some idx) (hne : file.rowGroups ≠ [])
    (hgroups : ∀ group ∈ file.rowGroups, GroupExact blockNum idx group) :
    ∃ bounds, Bounded blockNum file bounds ∧ fileBounds file = (some bounds.1, some bounds.2) := by
  obtain ⟨lo, hi, known, heq, -, -, hany, hall⟩ :=
    @boundsFrom_covers _ _ _ _ (2 ^ 64 - 1) 0 false hgroups nofun
  obtain ⟨rfl, hordered⟩ := hany (.inr hne)
  have hbounds : fileBounds file = (some lo, some hi) := by
    unfold fileBounds
    simp only [hcolumn, heq]
  refine ⟨(lo, hi), ⟨hordered, ?_, .inl hbounds⟩, hbounds⟩
  intro row hrow n hn
  obtain ⟨group, hgroup, hrow⟩ := mem_flatMap.mp hrow
  exact hall group hgroup row hrow n hn

end Bounds

/-! ## No file is left out -/

section Complete

variable {ε Row : Type} {blockNum : Row → Option Nat} {store : Store ε Row}
  {files : Location → ParquetFile Row} {bounds : Location → Nat × Nat} {start stop : Nat}
  {metas : List Location}

variable (blockNum store files bounds metas) in
/-- The files of a listing: they can be read, and their block bounds are increasing. -/
structure Listing :
    Prop where
  read : ∀ m ∈ metas, store.read m = .ok (files m)
  bounded : ∀ m ∈ metas, Bounded blockNum (files m) (bounds m)
  increasing : metas.Pairwise fun a b => (bounds a).2 < (bounds b).1

variable (blockNum files start stop) in
/-- The file has no row of the range. -/
def Skippable (m : Location) : Prop :=
  ∀ row ∈ (files m).rows, inRange blockNum start stop row = false

section

variable (h : Listing blockNum store files bounds metas)
include h

theorem Listing.skippable_of_before {m : Location} (hm : m ∈ metas) (hbefore : (bounds m).2 < start) :
    Skippable blockNum files start stop m := by
  intro row hrow
  unfold inRange
  cases hn : blockNum row with
  | none => rfl
  | some n =>
    have := (h.bounded m hm).rows row hrow n hn
    simp only [Option.any_some, Bool.and_eq_false_iff, decide_eq_false_iff_not]
    omega

theorem Listing.skippable_of_after {m : Location} (hm : m ∈ metas) (hafter : stop < (bounds m).1) :
    Skippable blockNum files start stop m := by
  intro row hrow
  unfold inRange
  cases hn : blockNum row with
  | none => rfl
  | some n =>
    have := (h.bounded m hm).rows row hrow n hn
    simp only [Option.any_some, Bool.and_eq_false_iff, decide_eq_false_iff_not]
    omega

/-- The test answers for every file, and where it holds no file up to there has a row of the
range: their bounds are below the known ones. -/
theorem Listing.endsBefore {i : Nat} (hi : i < metas.length) :
    ∃ b, endsBefore store start metas i = .ok b ∧
      (b = true → ∀ j ≤ i, ∀ m, metas[j]? = some m → Skippable blockNum files start stop m) := by
  have hmem : metas[i] ∈ metas := getElem_mem hi
  have hbounded := h.bounded metas[i] hmem
  unfold Pinax.endsBefore
  rw [getElem?_eq_getElem hi]
  simp only [h.read metas[i] hmem]
  rcases hbounded.known with hknown | hknown
  · rw [hknown]
    refine ⟨_, rfl, ?_⟩
    intro hlt j hj m hm
    have hlast : (bounds metas[i]).2 < start := of_decide_eq_true hlt
    obtain ⟨hj', rfl⟩ := List.getElem?_eq_some_iff.mp hm
    refine h.skippable_of_before (getElem_mem hj') ?_
    rcases Nat.eq_or_lt_of_le hj with rfl | hji
    · exact hlast
    · have hincreasing := pairwise_iff_getElem.mp h.increasing j i hj' hi hji
      have hordered := hbounded.ordered
      omega
  · rw [hknown]
    exact ⟨false, rfl, nofun⟩

/-- The scan stops only where all later files are behind the range. -/
theorem Listing.scan : ∃ found rest, scan store stop metas = .ok found ∧ metas = found ++ rest ∧
      ∀ m ∈ rest, Skippable blockNum files start stop m := by
  induction metas with
  | nil => exact ⟨[], [], rfl, rfl, nofun⟩
  | cons m metas ih =>
    obtain ⟨hfirst, hincreasing⟩ := pairwise_cons.mp h.increasing
    have htail : Listing blockNum store files bounds metas :=
      ⟨fun m hm => h.read m (mem_cons_of_mem _ hm),
        fun m hm => h.bounded m (mem_cons_of_mem _ hm), hincreasing⟩
    have hbounded := h.bounded m mem_cons_self
    unfold Pinax.scan
    simp only [h.read m mem_cons_self]
    split
    · -- the bounds are known, and so are those of all later files
      rename_i hbehind
      refine ⟨[], m :: metas, rfl, rfl, ?_⟩
      have hafter : stop < (bounds m).1 := by
        rcases hbounded.known with hknown | hknown
        · rw [hknown] at hbehind
          simpa using hbehind
        · rw [hknown] at hbehind
          cases hbehind
      intro m' hm'
      refine h.skippable_of_after hm' ?_
      rcases mem_cons.mp hm' with rfl | hm'
      · exact hafter
      · have := hfirst m' hm'
        have := hbounded.ordered
        omega
    · obtain ⟨found, rest, hscan, hsplit, hskip⟩ := ih htail
      refine ⟨m :: found, rest, ?_, ?_, hskip⟩
      · rw [hscan]
        rfl
      · rw [hsplit, cons_append]

end

/-- Selected files are read as they are. -/
theorem load_ok {found : List Location} (h : ∀ m ∈ found, store.read m = .ok (files m)) :
    load store found = .ok (found.map fun m => (files m).rows) := by
  induction found with
  | nil => rfl
  | cons m found ih =>
    unfold load
    simp only [h m mem_cons_self, ih fun m hm => h m (mem_cons_of_mem _ hm)]
    rfl

/-- The selected files are a piece of the listing, and no other file has a row of the range. -/
theorem Listing.filesInRange (h : Listing blockNum store files bounds (sortByLocation metas))
    (hlist : store.list = .ok metas) :
    ∃ before found after, filesInRange store start stop = .ok found ∧
      sortByLocation metas = before ++ (found ++ after) ∧
      (∀ m ∈ before, Skippable blockNum files start stop m) ∧
      ∀ m ∈ after, Skippable blockNum files start stop m := by
  generalize hsorted : sortByLocation metas = sorted at h ⊢
  obtain ⟨lo, hsearch, hskip⟩ := @searchFrom_spec _ (Pinax.endsBefore store start sorted) sorted.length 0
    sorted.length (fun j => ∀ m, sorted[j]? = some m → Skippable blockNum files start stop m)
    sorted.length (fun i hi => h.endsBefore hi) nofun (Nat.le_refl _)
  have hdrop : Listing blockNum store files bounds (sorted.drop lo) :=
    ⟨fun m hm => h.read m (mem_of_mem_drop hm),
      fun m hm => h.bounded m (mem_of_mem_drop hm), h.increasing.sublist (drop_sublist _ _)⟩
  obtain ⟨found, after, hscan, hsplit, hafter⟩ : ∃ found after,
      Pinax.scan store stop (sorted.drop lo) = .ok found ∧ sorted.drop lo = found ++ after ∧
        ∀ m ∈ after, Skippable blockNum files start stop m := hdrop.scan
  refine ⟨sorted.take lo, found, after, ?_, ?_, ?_, hafter⟩
  · unfold Pinax.filesInRange
    simp only [hlist, hsorted, hsearch, hscan]
  · rw [← hsplit, take_append_drop]
  · intro m hm
    obtain ⟨j, hj, rfl⟩ := mem_iff_getElem.mp hm
    rw [getElem_take]
    rw [length_take] at hj
    exact hskip j (by omega) _ (getElem?_eq_getElem (by omega))

theorem Skippable.filter_rows {part : List Location}
    (h : ∀ m ∈ part, Skippable blockNum files start stop m) :
    (part.flatMap fun m => (files m).rows).filter (inRange blockNum start stop) = [] := by
  refine filter_eq_nil_iff.mpr ?_
  intro row hrow
  obtain ⟨m, hm, hrow⟩ := mem_flatMap.mp hrow
  rw [h m hm row hrow]
  exact Bool.false_ne_true

end Complete

/-! ## Every row once -/

section Rows

variable {Row : Type} {blockNum : Row → Option Nat}

/-- Selecting for each number in turn selects the rows of all of them, each once. -/
theorem flatMap_filter_perm (rows : List Row) {blocks : List Nat} (hnodup : blocks.Nodup) :
    (blocks.flatMap fun block => rows.filter fun row => blockNum row == some block).Perm
      (rows.filter fun row => (blockNum row).any (blocks.contains ·)) := by
  induction blocks with
  | nil =>
    have hnone : (rows.filter fun row => (blockNum row).any fun n => ([] : List Nat).contains n) =
        [] := by
      refine filter_eq_nil_iff.mpr ?_
      intro row _
      cases blockNum row <;> simp
    rw [hnone]
    exact .refl _
  | cons block blocks ih =>
    obtain ⟨hnew, hnodup⟩ := nodup_cons.mp hnodup
    -- the rows of the first block, and the others
    let all := rows.filter fun row => (blockNum row).any ((block :: blocks).contains ·)
    have hfirst : all.filter (fun row => blockNum row == some block) =
        rows.filter fun row => blockNum row == some block := by
      rw [filter_filter]
      apply filter_congr
      intro row _
      cases hn : blockNum row with
      | none => rfl
      | some n => by_cases h : n = block <;> simp [h]
    have hothers : all.filter (fun row => !(blockNum row == some block)) =
        rows.filter fun row => (blockNum row).any (blocks.contains ·) := by
      rw [filter_filter]
      apply filter_congr
      intro row _
      cases hn : blockNum row with
      | none => rfl
      | some n => by_cases h : n = block <;> simp [h, hnew]
    have hsplit := filter_append_perm (fun row => blockNum row == some block) all
    rw [hfirst, hothers] at hsplit
    exact ((ih hnodup).append_left _).trans hsplit

theorem filterBlock_eq (batches : List (List Row)) (block : Nat) :
    filterBlock blockNum batches block =
      batches.flatten.filter fun row => blockNum row == some block :=
  (filter_flatten ..).symm

/-- Together the blocks of the range get the rows of the range, each once. -/
theorem filterBlock_perm (batches : List (List Row)) (start stop : Nat) :
    ((range' start (stop + 1 - start)).map (filterBlock blockNum batches)).flatten.Perm
      (batches.flatten.filter (inRange blockNum start stop)) := by
  have hrange : (fun row => (blockNum row).any
      ((range' start (stop + 1 - start)).contains ·)) = inRange blockNum start stop := by
    funext row
    congr 1
    funext n
    rw [Bool.eq_iff_iff]
    simp only [contains_eq_mem, decide_eq_true_eq, mem_range'_1, Bool.and_eq_true]
    omega
  have hnodup : (range' start (stop + 1 - start)).Nodup := nodup_range'
  have hfilter : filterBlock blockNum batches =
      fun block => batches.flatten.filter fun row => blockNum row == some block :=
    funext (filterBlock_eq batches)
  rw [hfilter, ← flatMap_def, ← hrange]
  exact flatMap_filter_perm batches.flatten hnodup

end Rows

/-- The files are listed in any order; sorted by location their block bounds are increasing and
disjoint, and any of them can be without statistics. Then every file with a row of the range is
selected, and the blocks of the range get the rows of the range in all listed files, each once. -/
theorem files_in_range_complete {ε Row : Type} (blockNum : Row → Option Nat) (store : Store ε Row)
    (listed : List Location) (hlist : store.list = .ok listed)
    (files : Location → ParquetFile Row) (bounds : Location → Nat × Nat)
    (hlisting : Listing blockNum store files bounds (sortByLocation listed)) (start stop : Nat) :
    ∃ found blocks, filesInRange store start stop = .ok found ∧
      (∀ m ∈ listed, (∃ row ∈ (files m).rows, inRange blockNum start stop row = true) → m ∈ found) ∧
      blockStream store start stop blockNum = .ok blocks ∧
      blocks.flatten.Perm
        ((listed.flatMap fun m => (files m).rows).filter (inRange blockNum start stop)) := by
  obtain ⟨before, found, after, hfound, hsplit, hbefore, hafter⟩ :
      ∃ before found after, filesInRange store start stop = .ok found ∧
        sortByLocation listed = before ++ (found ++ after) ∧
        (∀ m ∈ before, Skippable blockNum files start stop m) ∧
        ∀ m ∈ after, Skippable blockNum files start stop m := hlisting.filesInRange hlist
  have hperm : (sortByLocation listed).Perm listed := perm_insertionSort _ _
  have hread : ∀ m ∈ found, store.read m = .ok (files m) := by
    intro m hm
    apply hlisting.read
    rw [hsplit]
    exact mem_append_right _ (mem_append_left _ hm)
  refine ⟨found, (range' start (stop + 1 - start)).map
    (filterBlock blockNum (found.map fun m => (files m).rows)), hfound, ?_, ?_, ?_⟩
  · rintro m hm ⟨row, hrow, hin⟩
    rw [← hperm.mem_iff, hsplit] at hm
    -- a file outside of the piece has no such row
    rcases mem_append.mp hm with hm | hm
    · rw [hbefore m hm row hrow] at hin
      cases hin
    · rcases mem_append.mp hm with hm | hm
      · exact hm
      · rw [hafter m hm row hrow] at hin
        cases hin
  · unfold blockStream
    simp only [hfound, load_ok hread]
  · refine (filterBlock_perm _ start stop).trans ?_
    have hall : (sortByLocation listed).flatMap (fun m => (files m).rows) =
        (before.flatMap fun m => (files m).rows) ++ ((found.flatMap fun m => (files m).rows) ++
          after.flatMap fun m => (files m).rows) := by
      rw [hsplit, flatMap_append, flatMap_append]
    have hsame : (found.map fun m => (files m).rows).flatten.filter (inRange blockNum start stop) =
        ((sortByLocation listed).flatMap fun m => (files m).rows).filter
          (inRange blockNum start stop) := by
      rw [hall, filter_append, filter_append, Skippable.filter_rows hbefore,
        Skippable.filter_rows hafter, nil_append, append_nil, flatMap_def]
    rw [hsame]
    exact (hperm.flatMap_right _).filter _

/-! ### Three files -/

/-- Row groups of plain numbers, with statistics or without. -/
def numbers (first last : UInt8) (known : Bool) (rows : List Nat) : ParquetFile Nat :=
  let bytes (n : UInt8) := some [n, 0, 0, 0, 0, 0, 0, 0]
  ⟨["block_num"], [⟨fun _ => if known then some ⟨bytes first, bytes last⟩ else none, rows⟩]⟩

/-- The second file has no statistics. -/
def threeFiles (location : Location) : ParquetFile Nat :=
  if location = "0001" then numbers 1 3 true [1, 2, 2, 3]
  else if location = "0002" then numbers 5 6 false [5, 5, 6]
  else numbers 8 9 true [8, 9]

def threeBounds (location : Location) : Nat × Nat :=
  if location = "0001" then (1, 3) else if location = "0002" then (5, 6) else (8, 9)

def threeStore : Store String Nat := ⟨.ok ["0003", "0001", "0002"], fun m => .ok (threeFiles m)⟩

theorem sort_three : sortByLocation ["0003", "0001", "0002"] = ["0001", "0002", "0003"] := by
  decide +kernel

theorem threeListing :
    Listing some threeStore threeFiles threeBounds (sortByLocation ["0003", "0001", "0002"]) := by
  rw [sort_three]
  refine ⟨fun _ _ => rfl, ?_, by decide⟩
  intro m hm
  simp only [mem_cons, not_mem_nil, or_false] at hm
  rcases hm with rfl | rfl | rfl
  · exact ⟨by decide, by decide, .inl (by decide +kernel)⟩
  · exact ⟨by decide, by decide, .inr (by decide +kernel)⟩
  · exact ⟨by decide, by decide, .inl (by decide +kernel)⟩

theorem files_in_range_complete_three :
    ∃ found blocks, filesInRange threeStore 3 5 = .ok found ∧ (∀ m ∈ ["0003", "0001", "0002"],
        (∃ row ∈ (threeFiles m).rows, inRange some 3 5 row = true) → m ∈ found) ∧
      blockStream threeStore 3 5 some = .ok blocks ∧ blocks.flatten.Perm [3, 5, 5] := by
  obtain ⟨found, blocks, hfound, hmem, hblocks, hperm⟩ :=
    files_in_range_complete some threeStore _ rfl threeFiles threeBounds threeListing 3 5
  refine ⟨found, blocks, hfound, hmem, hblocks, hperm.trans ?_⟩
  decide +kernel

end CampNode.Pinax

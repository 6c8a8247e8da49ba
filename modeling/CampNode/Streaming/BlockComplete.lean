import CampNode.Streaming.Session

/-!
# CampNode.Streaming.BlockComplete — marking complete blocks

`MessageStreamWithBlockComplete` wraps the messages of a streaming query. It splits a batch
where a block ends and puts a `BlockComplete` message between the parts, so that a reader
knows that no more rows of that block follow in the microbatch.

The adapter is modelled as the source has it, one `poll_next` at a time with its two pending
slots. A batch is processed as a whole into at most three messages (`emitted`), which are
polled one after the other. Of a row the model has its cell in the `_block_num` column; the
other cells are carried along. `Poll::Pending` of the inner stream changes nothing and is
left out.

* `Before` — what may stand before what within a microbatch.
* `processDataBatch_spec` — one batch.
* `marks_blocks` — the adapter keeps the rows and the messages around them, and its output is
  ordered by `Before`.
-/

namespace CampNode.BlockComplete

open List

/-! ## Batches -/

/-- The type of a column; only one is supported for `_block_num`. -/
inductive DataType where
  | uint64
  | other (name : String)
deriving DecidableEq, Repr

structure Row (ρ : Type) where
  /-- The cell of the `_block_num` column; `none` is null. -/
  blockNum : Option Nat
  cells : ρ
deriving DecidableEq, Repr

structure RecordBatch (ρ : Type) where
  /-- The type of the `_block_num` column, if there is one. -/
  column : Option DataType
  rows : List (Row ρ)
  /-- Numbers come from a column of that type. -/
  typed : column ≠ some .uint64 → ∀ r ∈ rows, r.blockNum = none

variable {ρ : Type} (batch : RecordBatch ρ)

/-- The numbers in the `_block_num` column. -/
def RecordBatch.blockNums : List Nat := batch.rows.filterMap Row.blockNum

/-- All columns of a batch, sliced. -/
def RecordBatch.slice (offset length : Nat) : RecordBatch ρ where
  column := batch.column
  rows := (batch.rows.drop offset).take length
  typed h r hr := batch.typed h r (List.mem_of_mem_drop (List.mem_of_mem_take hr))

abbrev Message (ρ : Type) := QueryMessage (RecordBatch ρ)

inductive StreamError where
  | message (text : String)
  | panic
deriving DecidableEq, Repr

inductive BatchProcessResult (ρ : Type) where
  /-- Pass the batch through unchanged. -/
  | passThrough (batch : RecordBatch ρ)
  /-- Update the tracked block number and pass through. -/
  | updateBlockNum (batch : RecordBatch ρ) (blockNum : Nat)
  /-- Split the batch on a block boundary. -/
  | split (currentBlockBatch : Option (RecordBatch ρ)) (completedBlockNum : Nat)
      (nextBlockBatch : RecordBatch ρ) (nextBlockNum : Nat)

def extractBlockNumbers (dataType : DataType) (rows : List (Row ρ)) :
    Except StreamError (List Nat) :=
  match dataType with
  | .uint64 =>
      match rows.mapM Row.blockNum with
      | some blockNums => .ok blockNums
      | none => .error (.message "Found null values in _block_num column")
  | .other name => .error (.message ("Unsupported _block_num column type: " ++ name))

def validateBlockOrdering : List Nat → Except StreamError Unit
  | a :: b :: rest =>
      if a > b then
        .error (.message ("Block numbers not ordered: " ++ toString a ++ " > " ++ toString b))
      else validateBlockOrdering (b :: rest)
  | _ => .ok ()

def splitRecordBatch (splitIndex : Nat) : Except StreamError (RecordBatch ρ × RecordBatch ρ) :=
  if splitIndex = 0 then .error (.message "Split index is 0, cannot split")
  else if splitIndex ≥ batch.rows.length then .error (.message "Split index is out of bounds")
  else .ok (batch.slice 0 splitIndex, batch.slice splitIndex (batch.rows.length - splitIndex))

/-- The part of `process_data_batch` after the numbers are found to be ordered. -/
def processOrdered (blockNums : List Nat) (firstBlock lastBlock : Nat) (lastBlockNum : Option Nat) :
    Except StreamError (BatchProcessResult ρ) :=
  match lastBlockNum with
  -- first batch, just track the block number
  | none => .ok (.updateBlockNum batch lastBlock)
  | some currentBlock =>
      if firstBlock = currentBlock then
        if lastBlock = currentBlock then .ok (.passThrough batch)
        else
          match blockNums.findIdx? fun n => decide (currentBlock < n) with
          | none => .error .panic
          | some splitIndex =>
              match splitRecordBatch batch splitIndex with
              | .error e => .error e
              | .ok (currentBatch, nextBatch) =>
                  .ok (.split (some currentBatch) currentBlock nextBatch lastBlock)
      else if currentBlock < firstBlock then .ok (.split none currentBlock batch lastBlock)
      -- the block number went backwards
      else .ok (.updateBlockNum batch lastBlock)

def processDataBatch (lastBlockNum : Option Nat) : Except StreamError (BatchProcessResult ρ) :=
  match batch.column with
  | none => .ok (.passThrough batch)
  | some dataType =>
      match extractBlockNumbers dataType batch.rows with
      | .error e => .error e
      | .ok [] => .ok (.passThrough batch)
      | .ok (firstBlock :: rest) =>
          match validateBlockOrdering (firstBlock :: rest) with
          | .error e => .error e
          | .ok () => processOrdered batch (firstBlock :: rest) firstBlock
              ((firstBlock :: rest).getLast (List.cons_ne_nil _ _)) lastBlockNum

/-! ## The adapter -/

/-- The adapter, with what is left of the inner stream. -/
structure MessageStream (ρ : Type) where
  inner : List (Except StreamError (Message ρ))
  lastBlockNum : Option Nat
  pendingBatch : Option (RecordBatch ρ)
  pendingBlockComplete : Option Nat

def MessageStream.new (inner : List (Except StreamError (Message ρ))) : MessageStream ρ :=
  ⟨inner, none, none, none⟩

/-- A message of the inner stream, when nothing is pending. -/
def handleMessage (message : Message ρ) (stream : MessageStream ρ) :
    Except StreamError (Message ρ) × MessageStream ρ :=
  match message with
  | .microbatchStart range isReorg =>
      (.ok (.microbatchStart range isReorg),
        if isReorg then { stream with lastBlockNum := none } else stream)
  | .data batch =>
      match processDataBatch batch stream.lastBlockNum with
      | .error e => (.error e, stream)
      | .ok (.passThrough batch) => (.ok (.data batch), stream)
      | .ok (.split currentBlockBatch completedBlockNum nextBlockBatch nextBlockNum) =>
          match currentBlockBatch with
          | none =>
              (.ok (.blockComplete completedBlockNum), { stream with
                  lastBlockNum := some nextBlockNum
                  pendingBatch := some nextBlockBatch })
          | some batch =>
              -- the mark is emitted after the rows of the current block
              (.ok (.data batch), { stream with
                  lastBlockNum := some nextBlockNum
                  pendingBatch := some nextBlockBatch
                  pendingBlockComplete := some completedBlockNum })
      | .ok (.updateBlockNum batch blockNum) =>
          (.ok (.data batch), { stream with lastBlockNum := some blockNum })
  | .microbatchEnd range => (.ok (.microbatchEnd range), { stream with lastBlockNum := none })
  | .blockComplete blockNum =>
      (.error (.message
        ("Unexpected BlockComplete message from inner stream: " ++ toString blockNum)), stream)

def pollNext (stream : MessageStream ρ) :
    Option (Except StreamError (Message ρ)) × MessageStream ρ :=
  match stream.pendingBlockComplete with
  | some blockNum =>
      (some (.ok (.blockComplete blockNum)), { stream with pendingBlockComplete := none })
  | none =>
      match stream.pendingBatch with
      | some batch => (some (.ok (.data batch)), { stream with pendingBatch := none })
      | none =>
          match stream.inner with
          | [] => (none, stream)
          | .error e :: inner => (some (.error e), { stream with inner := inner })
          | .ok message :: inner =>
              let (item, stream) := handleMessage message { stream with inner := inner }
              (some item, stream)

/-- All items of the stream; `none` if that takes more than `fuel` polls. -/
def collect : Nat → MessageStream ρ → Option (List (Except StreamError (Message ρ)))
  | 0, _ => none
  | fuel + 1, stream =>
      match pollNext stream with
      | (none, _) => some []
      | (some item, stream) => (collect fuel stream).map (item :: ·)

/-! ## One message of the inner stream -/

/-- The messages that a processed batch becomes. -/
def emitted : BatchProcessResult ρ → List (Message ρ)
  | .passThrough batch => [.data batch]
  | .updateBlockNum batch _ => [.data batch]
  | .split none completed next _ => [.blockComplete completed, .data next]
  | .split (some current) completed next _ => [.data current, .blockComplete completed, .data next]

/-- The tracked block number after a batch. -/
def tracked (lastBlockNum : Option Nat) : BatchProcessResult ρ → Option Nat
  | .passThrough _ => lastBlockNum
  | .updateBlockNum _ blockNum => some blockNum
  | .split _ _ _ nextBlockNum => some nextBlockNum

variable {out : List (Except StreamError (Message ρ))} {fuel : Nat}

theorem collect_of_poll {stream next : MessageStream ρ} {item : Except StreamError (Message ρ)}
    (hpoll : pollNext stream = (some item, next)) (h : collect fuel next = some out) :
    collect (fuel + 1) stream = some (item :: out) := by
  rw [collect, hpoll]
  exact congrArg (Option.map _) h

theorem collect_mono {stream : MessageStream ρ} (h : collect fuel stream = some out) (more : Nat) :
    collect (fuel + more) stream = some out := by
  induction fuel generalizing stream out with
  | zero => cases h
  | succ fuel ih =>
    rw [Nat.add_right_comm]
    unfold collect at h ⊢
    cases hpoll : pollNext stream with
    | mk item next =>
      cases item with
      | none =>
        rw [hpoll] at h
        exact h
      | some item =>
        rw [hpoll] at h
        rcases Option.map_eq_some_iff.mp h with ⟨rest, hrest, rfl⟩
        simp only [ih hrest, Option.map_some]

variable {last : Option Nat}

/-- A processed batch is polled as a whole before the next message of the inner stream. -/
theorem collect_data {batch : RecordBatch ρ} {result : BatchProcessResult ρ}
    (hprocess : processDataBatch batch last = .ok result)
    {inner : List (Except StreamError (Message ρ))}
    (h : collect fuel ⟨inner, tracked last result, none, none⟩ = some out) :
    collect (fuel + 3) ⟨.ok (.data batch) :: inner, last, none, none⟩ =
      some ((emitted result).map .ok ++ out) := by
  cases result with
  | passThrough b =>
    apply collect_of_poll _ (collect_mono h 2)
    simp only [pollNext, handleMessage, hprocess, tracked]
  | updateBlockNum b n =>
    apply collect_of_poll _ (collect_mono h 2)
    simp only [pollNext, handleMessage, hprocess, tracked]
  | split current completed next n =>
    -- the pending slots are emptied in the order of the messages
    have hnext : collect (fuel + 1) ⟨inner, some n, some next, none⟩ =
        some (.ok (.data next) :: out) := collect_of_poll rfl h
    cases current with
    | none =>
      apply collect_of_poll _ (collect_mono hnext 1)
      simp only [pollNext, handleMessage, hprocess]
    | some current =>
      have hmark : collect (fuel + 2) ⟨inner, some n, some next, some completed⟩ =
          some (.ok (.blockComplete completed) :: .ok (.data next) :: out) :=
        collect_of_poll rfl hnext
      apply collect_of_poll _ hmark
      simp only [pollNext, handleMessage, hprocess]

/-! ## Numbered batches -/

/-- A batch in which every row has a block number, or which has no such column. -/
def RecordBatch.Numbered : Prop :=
  batch.column = none ∨ batch.column = some .uint64 ∧ ∀ r ∈ batch.rows, r.blockNum ≠ none

section

variable {rows : List (Row ρ)} (h : ∀ r ∈ rows, r.blockNum ≠ none)
include h

theorem blockNum_mapM : rows.mapM Row.blockNum = some (rows.filterMap Row.blockNum) := by
  induction rows with
  | nil => rfl
  | cons r rows ih =>
    rcases Option.ne_none_iff_exists'.mp (h r mem_cons_self) with ⟨n, hn⟩
    rw [mapM_cons, ih fun x hx => h x (mem_cons_of_mem r hx), filterMap_cons_some hn, hn]
    rfl

/-- A split of numbered rows is a split of their numbers. -/
theorem blockNum_take_drop (i : Nat) :
    (rows.take i).filterMap Row.blockNum = (rows.filterMap Row.blockNum).take i ∧
      (rows.drop i).filterMap Row.blockNum = (rows.filterMap Row.blockNum).drop i := by
  induction rows generalizing i with
  | nil => simp
  | cons r rows ih =>
    cases i with
    | zero => simp
    | succ i =>
      rcases Option.ne_none_iff_exists'.mp (h r mem_cons_self) with ⟨n, hn⟩
      rcases ih (fun x hx => h x (mem_cons_of_mem r hx)) i with ⟨htake, hdrop⟩
      rw [take_succ_cons, drop_succ_cons, filterMap_cons_some hn,
        filterMap_cons_some hn, htake, hdrop]
      exact ⟨rfl, rfl⟩

theorem blockNum_length : (rows.filterMap Row.blockNum).length = rows.length := by
  induction rows with
  | nil => rfl
  | cons r rows ih =>
    rcases Option.ne_none_iff_exists'.mp (h r mem_cons_self) with ⟨n, hn⟩
    rw [filterMap_cons_some hn, length_cons, length_cons, ih fun x hx => h x (mem_cons_of_mem r hx)]

end

theorem validateBlockOrdering_ok {l : List Nat} (h : l.Pairwise (· ≤ ·)) :
    validateBlockOrdering l = .ok () := by
  induction l with
  | nil => rfl
  | cons a l ih =>
    rcases pairwise_cons.mp h with ⟨ha, hl⟩
    cases l with
    | nil => rfl
    | cons b l =>
      have hab : ¬ a > b := Nat.not_lt.mpr (ha b mem_cons_self)
      rw [validateBlockOrdering, if_neg hab]
      exact ih hl

/-- Where ordered numbers first exceed a bound, all later ones do. -/
theorem ordered_split {l : List Nat} (h : l.Pairwise (· ≤ ·)) {c i : Nat}
    (hi : l.findIdx? (fun n => decide (c < n)) = some i) :
    i < l.length ∧ (∀ n ∈ l.take i, n ≤ c) ∧ ∀ n ∈ l.drop i, c < n := by
  induction l generalizing i with
  | nil => simp at hi
  | cons a l ih =>
    rcases pairwise_cons.mp h with ⟨ha, hl⟩
    by_cases hca : c < a
    · rw [findIdx?_cons, if_pos (by simpa using hca)] at hi
      cases hi
      refine ⟨Nat.succ_pos _, by simp, ?_⟩
      intro n hn
      rcases mem_cons.mp hn with rfl | hn
      · exact hca
      · exact Nat.lt_of_lt_of_le hca (ha n hn)
    · rw [findIdx?_cons, if_neg (by simpa using hca)] at hi
      rcases Option.map_eq_some_iff.mp hi with ⟨j, hj, rfl⟩
      rcases ih hl hj with ⟨hlt, htake, hdrop⟩
      refine ⟨Nat.succ_lt_succ hlt, ?_, hdrop⟩
      intro n hn
      rw [take_succ_cons] at hn
      rcases mem_cons.mp hn with rfl | hn
      · exact Nat.le_of_not_lt hca
      · exact htake n hn

/-! ## The order of messages -/

/-- What holds of a message and a later one of its microbatch: rows before a mark belong to
blocks up to it, rows after it to later blocks, and marks increase. -/
def Before : Message ρ → Message ρ → Prop
  | .data batch, .blockComplete b => ∀ n ∈ batch.blockNums, n ≤ b
  | .blockComplete b, .data batch => ∀ n ∈ batch.blockNums, b < n
  | .blockComplete b, .blockComplete b' => b < b'
  | _, _ => True

/-- The rows of the data messages. -/
def rowsOf (messages : List (Message ρ)) : List (Row ρ) :=
  messages.flatMap fun
    | .data batch => batch.rows
    | _ => []

@[simp] theorem rowsOf_append (messages messages' : List (Message ρ)) :
    rowsOf (messages ++ messages') = rowsOf messages ++ rowsOf messages' :=
  flatMap_append ..

/-- The message belongs to the tracked block or later ones. -/
def AtLeast (last : Option Nat) : Message ρ → Prop
  | .data batch => ∀ c ∈ last, ∀ n ∈ batch.blockNums, c ≤ n
  | .blockComplete b => ∀ c ∈ last, c ≤ b
  | _ => False

/-- The rows belong to the tracked block or earlier ones, and marks to earlier ones. -/
def AtMost (last : Option Nat) : Message ρ → Prop
  | .data batch => ∀ n ∈ batch.blockNums, ∃ c ∈ last, n ≤ c
  | .blockComplete b => ∃ c ∈ last, b < c
  | _ => False

theorem before_of_bounds {x y : Message ρ} (hx : AtMost last x) (hy : AtLeast last y) :
    Before x y := by
  cases x with
  | microbatchStart => exact hx.elim
  | microbatchEnd => exact hx.elim
  | data batch =>
    cases y with
    | microbatchStart => exact hy.elim
    | microbatchEnd => exact hy.elim
    | data batch' => exact trivial
    | blockComplete b =>
      intro n hn
      rcases hx n hn with ⟨c, hc, hnc⟩
      exact hnc.trans (hy c hc)
  | blockComplete b =>
    rcases hx with ⟨c, hc, hbc⟩
    cases y with
    | microbatchStart => exact hy.elim
    | microbatchEnd => exact hy.elim
    | data batch => exact fun n hn => Nat.lt_of_lt_of_le hbc (hy c hc n hn)
    | blockComplete b' => exact Nat.lt_of_lt_of_le hbc (hy c hc)

theorem AtLeast.mono {last last' : Option Nat} {x : Message ρ} (h : AtLeast last' x)
    (hle : ∀ c ∈ last, ∃ c' ∈ last', c ≤ c') : AtLeast last x := by
  cases x with
  | microbatchStart => exact h
  | microbatchEnd => exact h
  | data batch =>
    intro c hc n hn
    rcases hle c hc with ⟨c', hc', hcc⟩
    exact hcc.trans (h c' hc' n hn)
  | blockComplete b =>
    intro c hc
    rcases hle c hc with ⟨c', hc', hcc⟩
    exact hcc.trans (h c' hc')

theorem AtLeast.inner {x : Message ρ} (h : AtLeast last x) : x.Inner := by
  cases x with
  | microbatchStart => exact h
  | microbatchEnd => exact h
  | data batch => exact trivial
  | blockComplete b => exact trivial

variable (last) in
/-- What the messages of a batch satisfy. -/
structure Processed (result : BatchProcessResult ρ) :
    Prop where
  rows : rowsOf (emitted result) = batch.rows
  ordered : (emitted result).Pairwise Before
  atLeast : ∀ x ∈ emitted result, AtLeast last x
  atMost : ∀ x ∈ emitted result, AtMost (tracked last result) x
  grows : ∀ c ∈ last, ∃ c' ∈ tracked last result, c ≤ c'
  source : ∀ c ∈ tracked last result, c ∈ last ∨ c ∈ batch.blockNums

variable {batch} in
/-- Only rows of the tracked block. -/
theorem Processed.passThrough (h : ∀ n ∈ batch.blockNums, n ∈ last) : Processed batch last (.passThrough batch) where
  rows := append_nil _
  ordered := pairwise_singleton _ _
  atLeast x hx := by
    rw [mem_singleton.mp hx]
    intro c hc n hn
    exact Nat.le_of_eq (Option.mem_unique hc (h n hn))
  atMost x hx := by
    rw [mem_singleton.mp hx]
    exact fun n hn => ⟨n, h n hn, Nat.le_refl n⟩
  grows c hc := ⟨c, hc, Nat.le_refl c⟩
  source c hc := .inl hc

/-- The first rows of a microbatch. -/
theorem Processed.updateBlockNum {batch : RecordBatch ρ} {l : Nat} (hl : l ∈ batch.blockNums)
    (hmax : ∀ n ∈ batch.blockNums, n ≤ l) :
    Processed batch none (.updateBlockNum batch l) where
  rows := append_nil _
  ordered := pairwise_singleton _ _
  atLeast x hx := by
    rw [mem_singleton.mp hx]
    exact nofun
  atMost x hx := by
    rw [mem_singleton.mp hx]
    exact fun n hn => ⟨l, rfl, hmax n hn⟩
  grows := nofun
  source c hc := by
    cases hc
    exact .inr hl

/-- Only rows of later blocks. -/
theorem Processed.splitBefore {batch : RecordBatch ρ} {c l : Nat} (hl : l ∈ batch.blockNums)
    (hmin : ∀ n ∈ batch.blockNums, c < n) (hmax : ∀ n ∈ batch.blockNums, n ≤ l) :
    Processed batch (some c) (.split none c batch l) where
  rows := append_nil _
  ordered := pairwise_pair.mpr hmin
  atLeast x hx := by
    rcases mem_cons.mp hx with rfl | hx
    · intro c' hc'
      cases hc'
      exact Nat.le_refl c
    · rw [mem_singleton.mp hx]
      intro c' hc' n hn
      cases hc'
      exact Nat.le_of_lt (hmin n hn)
  atMost x hx := by
    rcases mem_cons.mp hx with rfl | hx
    · exact ⟨l, rfl, hmin l hl⟩
    · rw [mem_singleton.mp hx]
      exact fun n hn => ⟨l, rfl, hmax n hn⟩
  grows c' hc' := by
    cases hc'
    exact ⟨l, rfl, Nat.le_of_lt (hmin l hl)⟩
  source x hx := by
    cases hx
    exact .inr hl

/-- Rows of the tracked block and of later ones. -/
theorem Processed.splitInside {batch current next : RecordBatch ρ} {c l : Nat}
    (hrows : current.rows ++ next.rows = batch.rows) (hl : l ∈ next.blockNums)
    (hcurrent : ∀ n ∈ current.blockNums, n = c) (hmin : ∀ n ∈ next.blockNums, c < n)
    (hmax : ∀ n ∈ next.blockNums, n ≤ l) :
    Processed batch (some c) (.split (some current) c next l) where
  rows := by
    rw [← hrows]
    exact congrArg (current.rows ++ ·) (append_nil _)
  ordered := by
    refine pairwise_cons.mpr ⟨?_, pairwise_pair.mpr hmin⟩
    intro x hx
    rcases mem_cons.mp hx with rfl | hx
    · exact fun n hn => Nat.le_of_eq (hcurrent n hn)
    · rw [mem_singleton.mp hx]
      exact trivial
  atLeast x hx := by
    rcases mem_cons.mp hx with rfl | hx
    · intro c' hc' n hn
      cases hc'
      exact Nat.le_of_eq (hcurrent n hn).symm
    · exact (Processed.splitBefore hl hmin hmax).atLeast x hx
  atMost x hx := by
    rcases mem_cons.mp hx with rfl | hx
    · intro n hn
      rw [hcurrent n hn]
      exact ⟨l, rfl, Nat.le_of_lt (hmin l hl)⟩
    · exact (Processed.splitBefore hl hmin hmax).atMost x hx
  grows := (Processed.splitBefore hl hmin hmax).grows
  source x hx := by
    cases hx
    refine .inr ?_
    unfold RecordBatch.blockNums
    rw [← hrows, filterMap_append]
    exact mem_append_right _ hl

theorem getLast_greatest {l : List Nat} (h : l.Pairwise (· ≤ ·)) (hne : l ≠ []) :
    ∀ n ∈ l, n ≤ l.getLast hne := by
  intro n hn
  rw [← dropLast_append_getLast hne] at h hn
  rcases mem_append.mp hn with hn | hn
  · exact (pairwise_append.mp h).2.2 n hn _ (mem_singleton_self _)
  · exact Nat.le_of_eq (mem_singleton.mp hn)

/-- A batch that begins with rows of the tracked block `c` and ends with rows of block `l`
is split where the rows of `c` end. -/
theorem splitRecordBatch_spec {batch : RecordBatch ρ} (hnum : ∀ r ∈ batch.rows, r.blockNum ≠ none)
    (hordered : batch.blockNums.Pairwise (· ≤ ·)) {c l i : Nat} (hc : c ∈ batch.blockNums.head?)
    (hge : ∀ n ∈ batch.blockNums, c ≤ n) (hl : l ∈ batch.blockNums)
    (hmax : ∀ n ∈ batch.blockNums, n ≤ l) (hcl : c < l)
    (hfind : batch.blockNums.findIdx? (fun n => decide (c < n)) = some i) :
    ∃ current next, splitRecordBatch batch i = .ok (current, next) ∧
      Processed batch (some c) (.split (some current) c next l) := by
  rcases ordered_split hordered hfind with ⟨hi, htake, hdrop⟩
  have hpos : i ≠ 0 := by
    rintro rfl
    have hgt := hdrop c (mem_of_mem_head? hc)
    omega
  have hlen : ¬ i ≥ batch.rows.length := by
    have hcount := blockNum_length hnum
    unfold RecordBatch.blockNums at hi
    omega
  rcases blockNum_take_drop hnum i with ⟨hcurrent, hnext⟩
  -- the second slice goes to the end
  have hrest : (batch.slice i (batch.rows.length - i)).rows = batch.rows.drop i := by
    apply take_of_length_le
    rw [length_drop]
  have hcurrentNums : (batch.slice 0 i).blockNums = batch.blockNums.take i := hcurrent
  have hnextNums : (batch.slice i (batch.rows.length - i)).blockNums = batch.blockNums.drop i := by
    unfold RecordBatch.blockNums
    rw [hrest]
    exact hnext
  refine ⟨batch.slice 0 i, batch.slice i (batch.rows.length - i), ?_, .splitInside ?_ ?_ ?_ ?_ ?_⟩
  · rw [splitRecordBatch, if_neg hpos, if_neg hlen]
  · rw [hrest]
    exact take_append_drop i batch.rows
  · rw [hnextNums]
    rw [← take_append_drop i batch.blockNums] at hl
    rcases mem_append.mp hl with hlt | hlast
    · have hle := htake l hlt
      omega
    · exact hlast
  · rw [hcurrentNums]
    intro n hn
    exact Nat.le_antisymm (htake n hn) (hge n (mem_of_mem_take hn))
  · rw [hnextNums]
    exact hdrop
  · rw [hnextNums]
    exact fun n hn => hmax n (mem_of_mem_drop hn)

theorem processOrdered_spec {batch : RecordBatch ρ} (hnum : ∀ r ∈ batch.rows, r.blockNum ≠ none)
    (hordered : batch.blockNums.Pairwise (· ≤ ·)) (hlast : ∀ c ∈ last, ∀ n ∈ batch.blockNums, c ≤ n)
    {first l : Nat} (hfirst : first ∈ batch.blockNums.head?)
    (hmin : ∀ n ∈ batch.blockNums, first ≤ n) (hl : l ∈ batch.blockNums)
    (hmax : ∀ n ∈ batch.blockNums, n ≤ l) :
    ∃ result, processOrdered batch batch.blockNums first l last = .ok result ∧
      Processed batch last result := by
  cases last with
  | none => exact ⟨_, rfl, .updateBlockNum hl hmax⟩
  | some c =>
    have hge := hlast c rfl
    have hcf : c ≤ first := hge first (mem_of_mem_head? hfirst)
    simp only [processOrdered]
    by_cases hfc : first = c
    · subst hfc
      rw [if_pos rfl]
      by_cases hlc : l = first
      · -- all rows belong to the tracked block
        rw [if_pos hlc]
        refine ⟨_, rfl, .passThrough ?_⟩
        intro n hn
        have hle := hmax n hn
        have hle' := hmin n hn
        rw [Option.mem_some_iff]
        omega
      · rw [if_neg hlc]
        have hcl : first < l := Nat.lt_of_le_of_ne (hmin l hl) (Ne.symm hlc)
        cases hfind : batch.blockNums.findIdx? fun n => decide (first < n) with
        | none =>
          have hnot := findIdx?_eq_none_iff.mp hfind l hl
          simp only [decide_eq_false_iff_not] at hnot
          exact absurd hcl hnot
        | some i =>
          rcases splitRecordBatch_spec hnum hordered hfirst hmin hl hmax hcl hfind with
            ⟨current, next, hsplit, hresult⟩
          simp only [hsplit]
          exact ⟨_, rfl, hresult⟩
    · have hlt : c < first := Nat.lt_of_le_of_ne hcf (Ne.symm hfc)
      rw [if_neg hfc, if_pos hlt]
      exact ⟨_, rfl, .splitBefore hl (fun n hn => Nat.lt_of_lt_of_le hlt (hmin n hn)) hmax⟩

/-- A numbered batch whose rows are ordered and not before the tracked block. -/
theorem processDataBatch_spec {batch : RecordBatch ρ} (hnumbered : batch.Numbered)
    (hordered : batch.blockNums.Pairwise (· ≤ ·)) (hlast : ∀ c ∈ last, ∀ n ∈ batch.blockNums, c ≤ n) :
    ∃ result, processDataBatch batch last = .ok result ∧ Processed batch last result := by
  unfold processDataBatch
  rcases hnumbered with hcolumn | ⟨hcolumn, hnum⟩
  · -- without the column there are no numbers
    have hnone : batch.blockNums = [] := by
      apply filterMap_eq_nil_iff.mpr
      exact batch.typed (by rw [hcolumn]; nofun)
    rw [hcolumn]
    refine ⟨_, rfl, .passThrough ?_⟩
    rw [hnone]
    exact nofun
  have hextract : extractBlockNumbers .uint64 batch.rows = .ok batch.blockNums := by
    simp only [extractBlockNumbers, blockNum_mapM hnum]
    rfl
  rw [hcolumn]
  simp only [hextract]
  cases hnums : batch.blockNums with
  | nil =>
    refine ⟨_, rfl, .passThrough ?_⟩
    rw [hnums]
    exact nofun
  | cons first rest =>
    have hvalid := validateBlockOrdering_ok (hnums ▸ hordered)
    have hmax := getLast_greatest (hnums ▸ hordered) (cons_ne_nil first rest)
    have hmem : (first :: rest).getLast (cons_ne_nil _ _) ∈ first :: rest := getLast_mem _
    have hmin : ∀ n ∈ first :: rest, first ≤ n := by
      intro n hn
      rcases mem_cons.mp hn with rfl | hn
      · exact Nat.le_refl n
      · exact (pairwise_cons.mp (hnums ▸ hordered)).1 n hn
    simp only [hvalid]
    generalize (first :: rest).getLast (cons_ne_nil first rest) = l at hmax hmem ⊢
    rw [← hnums] at hmax hmem hmin ⊢
    exact processOrdered_spec hnum hordered hlast (by rw [hnums]; rfl) hmin hmem hmax

/-! ## Microbatches -/

/-- A microbatch of the inner stream. -/
structure Microbatch (ρ : Type) where
  range : BlockRange
  isReorg : Bool
  batches : List (RecordBatch ρ)
  endRange : BlockRange

namespace Microbatch

/-- The messages of a microbatch with the given messages inside. -/
def around (m : Microbatch ρ) (body : List (Message ρ)) : List (Message ρ) :=
  .microbatchStart m.range m.isReorg :: (body ++ [.microbatchEnd m.endRange])

def messages (m : Microbatch ρ) : List (Message ρ) := m.around (m.batches.map .data)

def rows (m : Microbatch ρ) : List (Row ρ) := m.batches.flatMap RecordBatch.rows

/-- The rows have block numbers that do not decrease across the batches. -/
structure Ordered (m : Microbatch ρ) : Prop where
  numbered : ∀ batch ∈ m.batches, batch.Numbered
  ordered : (m.batches.flatMap RecordBatch.blockNums).Pairwise (· ≤ ·)

end Microbatch

/-- The batches of a microbatch are processed one after the other. -/
theorem collect_batches {batches : List (RecordBatch ρ)} {last : Option Nat}
    (hnumbered : ∀ batch ∈ batches, batch.Numbered)
    (hordered : (batches.flatMap RecordBatch.blockNums).Pairwise (· ≤ ·))
    (hlast : ∀ c ∈ last, ∀ n ∈ batches.flatMap RecordBatch.blockNums, c ≤ n) :
    ∃ body last', rowsOf body = batches.flatMap RecordBatch.rows ∧ body.Pairwise Before ∧
      (∀ x ∈ body, AtLeast last x) ∧
      ∀ inner fuel out, collect fuel ⟨inner, last', none, none⟩ = some out →
        collect (fuel + 3 * batches.length)
          ⟨(batches.map fun batch => .ok (.data batch)) ++ inner, last, none, none⟩ =
            some (body.map .ok ++ out) := by
  induction batches generalizing last with
  | nil => exact ⟨[], last, rfl, .nil, nofun, fun inner fuel out h => h⟩
  | cons batch batches ih =>
    rw [flatMap_cons] at hordered hlast
    rcases pairwise_append.mp hordered with ⟨hbatch, hrest, hcross⟩
    rcases processDataBatch_spec (hnumbered batch mem_cons_self) hbatch
      (fun c hc n hn => hlast c hc n (mem_append_left _ hn)) with ⟨result, hprocess, hresult⟩
    -- the tracked number is not above what follows
    have hlast' : ∀ c ∈ tracked last result, ∀ n ∈ batches.flatMap RecordBatch.blockNums,
        c ≤ n := by
      intro c hc n hn
      rcases hresult.source c hc with hold | hnew
      · exact hlast c hold n (mem_append_right _ hn)
      · exact hcross c hnew n hn
    rcases ih (fun b hb => hnumbered b (mem_cons_of_mem _ hb)) hrest hlast' with
      ⟨body, last', hrows, hbefore, hatLeast, hcollect⟩
    refine ⟨emitted result ++ body, last', ?_, ?_, ?_, ?_⟩
    · rw [rowsOf_append, hresult.rows, hrows, flatMap_cons]
    · refine pairwise_append.mpr ⟨hresult.ordered, hbefore, ?_⟩
      intro x hx y hy
      exact before_of_bounds (hresult.atMost x hx) (hatLeast y hy)
    · intro x hx
      rcases mem_append.mp hx with hx | hx
      · exact hresult.atLeast x hx
      · exact (hatLeast x hx).mono hresult.grows
    · intro inner fuel out h
      have hstep := collect_data hprocess (hcollect inner fuel out h)
      rw [length_cons, Nat.mul_succ, ← Nat.add_assoc, map_append, append_assoc]
      exact hstep

/-- The messages that the adapter puts between the start and the end of a microbatch. -/
def Marked (m : Microbatch ρ) (body : List (Message ρ)) : Prop :=
  rowsOf body = m.rows ∧ (∀ x ∈ body, x.Inner) ∧ body.Pairwise Before

/-- One microbatch, from a state without a tracked block back to one. -/
theorem collect_microbatch {m : Microbatch ρ} (hm : m.Ordered) :
    ∃ body, Marked m body ∧ ∀ inner fuel out, collect fuel ⟨inner, none, none, none⟩ = some out →
        collect (fuel + 3 * m.messages.length) ⟨m.messages.map .ok ++ inner, none, none, none⟩ =
          some ((m.around body).map .ok ++ out) := by
  rcases @collect_batches ρ m.batches none hm.numbered hm.ordered nofun with
    ⟨body, last', hrows, hbefore, hatLeast, hcollect⟩
  refine ⟨body, ⟨hrows, fun x hx => (hatLeast x hx).inner, hbefore⟩, ?_⟩
  intro inner fuel out h
  -- the end of the microbatch resets the state
  have hend : collect (fuel + 1) ⟨.ok (.microbatchEnd m.endRange) :: inner, last', none, none⟩ =
      some (.ok (.microbatchEnd m.endRange) :: out) := collect_of_poll rfl h
  have hbody := hcollect _ _ _ hend
  have hstart : collect (fuel + 1 + 3 * m.batches.length + 1)
      ⟨.ok (.microbatchStart m.range m.isReorg) ::
        ((m.batches.map fun batch => .ok (.data batch)) ++
          .ok (.microbatchEnd m.endRange) :: inner), none, none, none⟩ =
      some (.ok (.microbatchStart m.range m.isReorg) ::
        (body.map .ok ++ .ok (.microbatchEnd m.endRange) :: out)) := by
    apply collect_of_poll _ hbody
    cases m.isReorg <;> rfl
  have hlen : m.messages.length = m.batches.length + 2 := by
    simp [Microbatch.messages, Microbatch.around]
  have hfuel : fuel + 3 * m.messages.length = fuel + 1 + 3 * m.batches.length + 1 + 4 := by
    rw [hlen]
    omega
  rw [hfuel]
  have hinput : m.messages.map Except.ok ++ inner = .ok (.microbatchStart m.range m.isReorg) ::
        ((m.batches.map fun batch => (.ok (.data batch) : Except StreamError (Message ρ))) ++
          .ok (.microbatchEnd m.endRange) :: inner) := by
    simp [Microbatch.messages, Microbatch.around, Function.comp_def]
  have houtput : (m.around body).map Except.ok ++ out = .ok (.microbatchStart m.range m.isReorg) ::
        (body.map (.ok : Message ρ → Except StreamError (Message ρ)) ++
          .ok (.microbatchEnd m.endRange) :: out) := by
    simp [Microbatch.around]
  rw [hinput, houtput]
  exact collect_mono hstart 4

/-- For every sequence of microbatches with ordered rows the adapter returns, for each of them,
its start and end with the same rows in the same order between them. Rows before a
`BlockComplete` belong to blocks up to it, rows after it to later blocks, and the numbers
of these messages increase. -/
theorem marks_blocks (microbatches : List (Microbatch ρ))
    (hordered : ∀ m ∈ microbatches, m.Ordered) (fuel : Nat)
    (hfuel : 3 * (microbatches.flatMap Microbatch.messages).length + 1 ≤ fuel) :
    ∃ bodies, List.Forall₂ Marked microbatches bodies ∧
      collect fuel (.new ((microbatches.flatMap Microbatch.messages).map .ok)) =
        some ((zipWith Microbatch.around microbatches bodies).flatten.map .ok) := by
  rcases Nat.exists_eq_add_of_le hfuel with ⟨k, rfl⟩
  rw [Nat.add_comm _ k]
  induction microbatches with
  | nil => exact ⟨[], .nil, rfl⟩
  | cons m microbatches ih =>
    rcases collect_microbatch (hordered m mem_cons_self) with ⟨body, hbody, hcollect⟩
    rcases ih (fun m' hm' => hordered m' (mem_cons_of_mem _ hm')) (by omega) with
      ⟨bodies, hbodies, hrest⟩
    refine ⟨body :: bodies, .cons hbody hbodies, ?_⟩
    have hfirst := hcollect _ _ _ hrest
    rw [flatMap_cons, map_append, zipWith_cons_cons, flatten_cons, map_append, length_append]
    have hsum : k + (3 * (m.messages.length +
        (microbatches.flatMap Microbatch.messages).length) + 1) =
        k + (3 * (microbatches.flatMap Microbatch.messages).length + 1) +
          3 * m.messages.length := by omega
    rw [hsum]
    exact hfirst

/-- A batch with the given block numbers. -/
def numberedBatch (blockNums : List Nat) : RecordBatch Unit where
  column := some .uint64
  rows := blockNums.map fun n => ⟨some n, ()⟩
  typed h := absurd rfl h

/-- Two batches of which the second one goes on with the block of the first. -/
def spanning : Microbatch Unit where
  range := ⟨⟨100, 102⟩, "test", 0, none⟩
  isReorg := false
  batches := [numberedBatch [100], numberedBatch [100, 101, 102, 102]]
  endRange := ⟨⟨100, 102⟩, "test", 0, none⟩

theorem marks_blocks_spanning : ∃ bodies, List.Forall₂ Marked [spanning] bodies ∧
      collect 13 (.new (spanning.messages.map .ok)) =
        some ((zipWith Microbatch.around [spanning] bodies).flatten.map .ok) := by
  have hnumbered : ∀ batch ∈ spanning.batches, batch.Numbered := by
    intro batch hbatch
    rcases mem_cons.mp hbatch with rfl | hbatch
    · exact .inr ⟨rfl, by decide⟩
    · rw [mem_singleton.mp hbatch]
      exact .inr ⟨rfl, by decide⟩
  have hordered : ∀ m ∈ [spanning], m.Ordered := by
    intro m hm
    rw [mem_singleton.mp hm]
    exact ⟨hnumbered, by decide⟩
  exact marks_blocks [spanning] hordered 13 (by decide)

example : collect 13 (.new (spanning.messages.map .ok)) = some ([
    .microbatchStart spanning.range false, .data (numberedBatch [100]),
    .data (numberedBatch [100]), .blockComplete 100, .data (numberedBatch [101, 102, 102]),
    .microbatchEnd spanning.range].map .ok) := rfl

end CampNode.BlockComplete

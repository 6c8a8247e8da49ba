import CampNode.Core.Resume
import CampNode.Firehose.PbToRows

/-!
# CampNode.Firehose.Client — the block stream of the Firehose extractor

The extractor asks a Firehose endpoint for the blocks from `next_block` to the end block and
yields the rows of each response. After every block `next_block` is set behind it; a stream
error leads to a new request from there.

A server sends blocks as they come and, after a fork, takes the latest ones back before it sends
those that replace them. The step of a response, which says so, is not looked at.

* `undo_yields_rows` — a block that is taken back is yielded once more, and then the one that
  replaces it; and an end block 0 means to the server that there is no end.
* `firehose_streams_range_iff` — the range is streamed exactly if no response that the client reads
  takes a block back, or has one behind the end.
-/

namespace CampNode.Firehose

open RawDatasetRows List

/-! ## Requests and responses -/

inductive ForkStep where
  | unset
  | new
  | undo
  | final
deriving DecidableEq, Repr

/-- `pbfirehose::Request`. A negative start counts from the head of the chain. -/
structure Request where
  startBlockNum : Int
  stopBlockNum : Nat
  finalBlocksOnly : Bool
  cursor : String
deriving DecidableEq, Repr

/-- `pbfirehose::Response`, with the result of decoding the block. -/
structure Response where
  block : Option (Except String PbBlock)
  step : ForkStep
  cursor : String

inductive Error where
  | connection (message : String)
  | call (status : String)
  | assertFail (message : String)
  | pbDecodeError (message : String)
  | conversion (blockNum : Nat) (error : ProtobufToRowError)
deriving DecidableEq, Repr

/-- A server, with the number of the connection: it refuses it, or sends a stream. -/
abbrev Server := Nat → Request → Except Error (List (Except String Response))

/-! ## The client -/

/-- The request of `Client::blocks`; the start is cast to `i64`. -/
def blocksRequest (start stop : Nat) : Request := ⟨signed 8 start, stop, false, ""⟩

/-- The items of `Client::blocks`. The step and the cursor are dropped. -/
def decodeResponse : Except String Response → Except Error PbBlock
  | .error status => .error (.call status)
  | .ok ⟨none, _, _⟩ => .error (.assertFail "Expected block, found none")
  | .ok ⟨some (.error message), _, _⟩ => .error (.pbDecodeError message)
  | .ok ⟨some (.ok block), _, _⟩ => .ok block

/-- How the loop over the items of a stream is left. -/
inductive Left where
  | streamEnded
  | streamError (error : Error)
  | conversionError (error : Error)

/-- The loop over the items of a stream: the rows, and `next_block` behind them. -/
def readStream (network : String) (next : Nat) :
    List (Except Error PbBlock) → List RawDatasetRows × Nat × Left
  | [] => ([], next, .streamEnded)
  | .error e :: _ => ([], next, .streamError e)
  | .ok block :: rest =>
      match protobufsToRows block network with
      | .error e => ([], next, .conversionError (.conversion block.number e))
      | .ok rows =>
          let (more, next', left) := readStream network (nextBlock block.number) rest
          (rows :: more, next', left)

variable (server : Server) (network : String)

/-- One round of the loop `'retry`. A refused connection and a block that cannot be converted are
yielded as errors and end the stream. -/
def connection (stop k next : Nat) : Attempt RawDatasetRows Nat :=
  match server k (blocksRequest next stop) with
  | .error _ => ⟨[], .aborted⟩
  | .ok items =>
      match readStream network next (items.map decodeResponse) with
      | (rows, _, .streamEnded) => ⟨rows, .ended⟩
      | (rows, next', .streamError _) => ⟨rows, .resume next'⟩
      | (rows, _, .conversionError _) => ⟨rows, .aborted⟩

/-- `Client::block_stream` after some connections. -/
def blockStream (start stop connections : Nat) : Attempt RawDatasetRows Nat :=
  retryLoop (connection server network stop) start connections

/-! ## Servers -/

/-- A block with a number, that is converted to rows of that number. -/
def Converts (n : Nat) (block : PbBlock) : Prop :=
  block.number = n ∧ ∃ rows, protobufsToRows block network = .ok rows ∧ rows.blockNum = n

/-- What a server sends when block `n` is next and the blocks `sent`, the latest first, were sent
on the connection and not taken back. It can fail at any point. An end block 0 is no bound. -/
inductive Streams (network : String) (stop : Nat) :
    List PbBlock → Nat → List (Except String Response) → Prop where
  | close {sent : List PbBlock} {n : Nat} : stop < n → Streams network stop sent n []
  | fail {sent : List PbBlock} {n : Nat} {status : String} :
      Streams network stop sent n [.error status]
  | new {sent : List PbBlock} {n : Nat} {block : PbBlock} {cursor : String}
      {rest : List (Except String Response)} :
      n ≤ stop ∨ stop = 0 → Converts network n block →
      Streams network stop (block :: sent) (n + 1) rest →
      Streams network stop sent n (.ok ⟨some (.ok block), .new, cursor⟩ :: rest)
  | undo {sent : List PbBlock} {n : Nat} {block : PbBlock} {cursor : String}
      {rest : List (Except String Response)} :
      Streams network stop sent block.number rest →
      Streams network stop (block :: sent) n (.ok ⟨some (.ok block), .undo, cursor⟩ :: rest)

/-- The server accepts every connection and sends the canonical blocks from the start on. -/
def Answers (server : Server) : Prop :=
  ∀ k request, 0 ≤ request.startBlockNum → ∃ items, server k request = .ok items ∧
    Streams network request.stopBlockNum [] request.startBlockNum.toNat items

/-- The steps and the blocks of the responses before a failure. -/
def readResponses : List (Except String Response) → List (ForkStep × PbBlock)
  | .ok ⟨some (.ok block), step, _⟩ :: rest => (step, block) :: readResponses rest
  | _ => []

/-- No response that is read on a connection of the client takes a block back, or has one behind
the end. -/
def ReadsForward (start stop connections : Nat) : Prop :=
  ∀ k < connections, ∀ next, (blockStream server network start stop k).outcome = .resume next →
    ∀ items, server k (blocksRequest next stop) = .ok items →
      ∀ r ∈ readResponses items, r.1 ≠ .undo ∧ r.2.number ≤ stop

/-- What has been yielded is an initial part of `start..=stop`, in order and each block once. It is
all of them when the stream has ended. -/
def StreamsRange (start stop : Nat) (a : Attempt RawDatasetRows Nat) : Prop :=
  a.yielded.map blockNum <+: range' start (stop + 1 - start) ∧
    (a.outcome = .ended → a.yielded.map blockNum = range' start (stop + 1 - start))

/-! ## A fork -/

variable (number : Nat) (hash : UInt8)

/-- A header with the number and little else. -/
def plainHeader : BlockHeader :=
  let zeros := List.replicate 32 0
  { parentHash := zeros, uncleHash := zeros, coinbase := List.replicate 20 0, stateRoot := zeros
    transactionsRoot := zeros, receiptRoot := zeros, logsBloom := [], difficulty := some ⟨[]⟩
    totalDifficulty := none, number, gasLimit := 0, gasUsed := 0, timestamp := some 0
    extraData := [], mixHash := zeros, nonce := 0, hash := List.replicate 31 0 ++ [hash]
    baseFeePerGas := none, withdrawalsRoot := [], blobGasUsed := none, excessBlobGas := none
    parentBeaconRoot := [] }

def plainBlock : PbBlock :=
  ⟨number, some (plainHeader number hash), []⟩

def sendBlock (step : ForkStep) (block : PbBlock) : Except String Response :=
  .ok ⟨some (.ok block), step, ""⟩

theorem plainBlock_converts : Converts "mainnet" number (plainBlock number hash) := by
  cases hrows : protobufsToRows (plainBlock number hash) "mainnet" with
  | ok rows => exact ⟨rfl, rows, hrows, protobufsToRows_blockNum hrows rfl⟩
  | error e =>
    simp [protobufsToRows, plainBlock, plainHeader, required, headerFromPb, bytes32, address,
      fixedBytes, optionalNumber, optionalBytes, nonNegativePbBigintToEvmCurrency,
      bind, Except.bind, pure, Except.pure] at hrows

/-- Block 6 is replaced after it was sent. Every other request fails at once. -/
def forkServer : Server := fun _ request =>
  if request.startBlockNum = 5 ∧ request.stopBlockNum = 6 then
    .ok [sendBlock .new (plainBlock 5 1), sendBlock .new (plainBlock 6 2),
      sendBlock .undo (plainBlock 6 2), sendBlock .new (plainBlock 6 3)]
  else .ok [.error "unavailable"]

theorem forkServer_answers : Answers "mainnet" forkServer := by
  intro k request _
  unfold forkServer
  split
  · rename_i h
    rw [h.1, h.2]
    refine ⟨_, rfl, ?_⟩
    refine .new (.inl (by decide)) (plainBlock_converts 5 1) ?_
    refine .new (.inl (by decide)) (plainBlock_converts 6 2) ?_
    refine .undo ?_
    exact .new (.inl (by decide)) (plainBlock_converts 6 3) (.close (by decide))
  · exact ⟨_, rfl, .fail⟩

/-- The blocks without an end. -/
def endlessServer : Server := fun _ request =>
  if request.startBlockNum = 0 ∧ request.stopBlockNum = 0 then
    .ok [sendBlock .new (plainBlock 0 1), sendBlock .new (plainBlock 1 2), .error "unavailable"]
  else .ok [.error "unavailable"]

theorem endlessServer_answers : Answers "mainnet" endlessServer := by
  intro k request _
  unfold endlessServer
  split
  · rename_i h
    rw [h.1, h.2]
    refine ⟨_, rfl, ?_⟩
    refine .new (.inl (by decide)) (plainBlock_converts 0 1) ?_
    exact .new (.inr rfl) (plainBlock_converts 1 2) .fail
  · exact ⟨_, rfl, .fail⟩

/-- For the blocks 5 and 6, block 6 is yielded three times: when it is sent, when it is taken back
and when it is replaced. For block 0 alone, block 1 is yielded too. -/
theorem undo_yields_rows : Answers "mainnet" forkServer ∧ Answers "mainnet" endlessServer ∧
      (blockStream forkServer "mainnet" 5 6 1).outcome = .ended ∧
      (blockStream forkServer "mainnet" 5 6 1).yielded.map blockNum = [5, 6, 6, 6] ∧
      (blockStream endlessServer "mainnet" 0 0 1).yielded.map blockNum = [0, 1] :=
  ⟨forkServer_answers, endlessServer_answers, by decide +kernel, by decide +kernel,
    by decide +kernel⟩

/-! ## Streams and what is read of them -/

section Reads

variable {network : String} {stop : Nat}
variable {next : Nat}

/-- One connection: the blocks from `n` on up to an error, or up to the end. -/
theorem readStream_streams (hstop : stop < 2 ^ 63 - 1) {sent : List PbBlock}
    {n : Nat} {items : List (Except String Response)} (h : Streams network stop sent n items)
    (hforward : ∀ r ∈ readResponses items, r.1 ≠ .undo ∧ r.2.number ≤ stop)
    {rows : List RawDatasetRows} {left : Left}
    (hread : readStream network n (items.map decodeResponse) = (rows, next, left)) :
    rows.map blockNum = range' n rows.length ∧
      n + rows.length ≤ max n (stop + 1) ∧ next = n + rows.length ∧
      (left = .streamEnded → stop + 1 ≤ n + rows.length) ∧ ∀ e, left ≠ .conversionError e := by
  induction h generalizing rows next left with
  | close hn =>
    cases hread
    exact ⟨rfl, Nat.le_max_left _ _, rfl, fun _ => hn, nofun⟩
  | fail =>
    cases hread
    exact ⟨rfl, Nat.le_max_left _ _, rfl, nofun, nofun⟩
  | @new sent n block cursor rest _ hconverts _ ih =>
    obtain ⟨hnumber, row, hrow, hblock⟩ := hconverts
    have hle : block.number ≤ stop := (hforward (.new, block) mem_cons_self).2
    -- `n` is at most the end, so the next block does not wrap
    have hnext : nextBlock block.number = n + 1 := by
      rw [hnumber]
      exact Nat.mod_eq_of_lt (by omega)
    cases hrest : readStream network (n + 1) (rest.map decodeResponse) with
    | mk more tail =>
      simp only [map_cons, decodeResponse, readStream, hrow, hnext, hrest, Prod.mk.injEq]
        at hread
      obtain ⟨rfl, rfl, rfl⟩ := hread
      obtain ⟨hnumbers, hbelow, hnext', hended, hconversion⟩ :=
        ih (fun r hr => hforward r (mem_cons_of_mem _ hr)) hrest
      refine ⟨?_, ?_, ?_, ?_, hconversion⟩
      · rw [map_cons, hblock, hnumbers, length_cons, range'_succ]
      · rw [length_cons]
        omega
      · rw [hnext', length_cons]
        omega
      · intro hleft
        have := hended hleft
        rw [length_cons]
        omega
  | @undo sent n block => exact absurd rfl (hforward (.undo, block) mem_cons_self).1

/-- Every response that is read has its rows, also one that takes a block back. -/
theorem readStream_numbers {sent : List PbBlock} {n : Nat} {items : List (Except String Response)}
    (h : Streams network stop sent n items) (hsent : ∀ b ∈ sent, Converts network b.number b)
    (m : Nat) : (readStream network m (items.map decodeResponse)).1.map blockNum =
      (readResponses items).map (·.2.number) := by
  induction h generalizing m with
  | close => rfl
  | fail => rfl
  | new _ hconverts _ ih =>
    obtain ⟨rfl, row, hrow, hblock⟩ := hconverts
    simp only [map_cons, decodeResponse, readStream, hrow, hblock, readResponses]
    rw [ih (forall_mem_cons.mpr ⟨⟨rfl, row, hrow, hblock⟩, hsent⟩)]
  | undo _ ih =>
    obtain ⟨hconverts, hsent⟩ := forall_mem_cons.mp hsent
    obtain ⟨-, row, hrow, hblock⟩ := hconverts
    simp only [map_cons, decodeResponse, readStream, hrow, hblock, readResponses]
    rw [ih hsent]

/-- A block that is taken back was sent on the same connection. -/
theorem Streams.not_nodup {sent : List PbBlock} {n : Nat} {items : List (Except String Response)}
    (h : Streams network stop sent n items) {block : PbBlock}
    (hundo : (.undo, block) ∈ readResponses items) :
    ¬ (sent.map (·.number) ++ (readResponses items).map (·.2.number)).Nodup := by
  induction h with
  | close => cases hundo
  | fail => cases hundo
  | new _ _ _ ih =>
    rcases mem_cons.mp hundo with heq | hundo
    · cases heq
    · intro hnodup
      exact ih hundo (perm_middle.nodup_iff.mp hnodup)
  | undo => simp [readResponses]

variable {server : Server}

theorem signed_of_lt {n : Nat} (h : n < 2 ^ 63) : signed 8 n = n := by
  unfold signed
  rw [Int.bmod_def]
  norm_num
  omega

/-- What the server sends on a connection. -/
theorem Answers.streams (hanswers : Answers network server) (k : Nat) (hnext : next < 2 ^ 63) :
    ∃ items, server k (blocksRequest next stop) = .ok items ∧
      Streams network stop [] next items := by
  obtain ⟨items, hitems, hstreams⟩ := hanswers k (blocksRequest next stop)
    (by rw [blocksRequest, signed_of_lt hnext]; exact Int.natCast_nonneg next)
  have hstart : (blocksRequest next stop).startBlockNum.toNat = next := by
    rw [blocksRequest, signed_of_lt hnext]
    rfl
  rw [hstart] at hstreams
  exact ⟨items, hitems, hstreams⟩

theorem connection_covers (hanswers : Answers network server) (hstop : stop < 2 ^ 63 - 1) (k : Nat)
    (hnext : next < 2 ^ 63) (hforward : ∀ items, server k (blocksRequest next stop) = .ok items →
      ∀ r ∈ readResponses items, r.1 ≠ .undo ∧ r.2.number ≤ stop) :
    Covers blockNum id (stop + 1) next (connection server network stop k next) := by
  obtain ⟨items, hitems, hstreams⟩ := hanswers.streams k hnext
  obtain ⟨rows, next', left, hread⟩ : ∃ rows next' left,
      readStream network next (items.map decodeResponse) = (rows, next', left) := ⟨_, _, _, rfl⟩
  obtain ⟨hnumbers, hbelow, hresume, hended, hconversion⟩ :=
    readStream_streams hstop hstreams (hforward items hitems) hread
  unfold connection
  simp only [hitems, hread]
  cases left with
  | streamEnded => exact ⟨hnumbers, hbelow, nofun, fun _ => hended rfl, nofun⟩
  | streamError e =>
    refine ⟨hnumbers, hbelow, ?_, nofun, nofun⟩
    intro s' hs'
    cases hs'
    exact hresume
  | conversionError e => exact absurd rfl (hconversion e)

theorem blockStream_covers (hanswers : Answers network server) (hstop : stop < 2 ^ 63 - 1)
    {start : Nat} (hstart : start < 2 ^ 63) {connections : Nat}
    (hforward : ReadsForward server network start stop connections) :
    Covers blockNum id (stop + 1) start (blockStream server network start stop connections) ∧
      ∀ next, (blockStream server network start stop connections).outcome = .resume next →
        next < 2 ^ 63 := by
  refine retryLoop_covers (· < 2 ^ 63) hstart connections ?_
  intro k hk next hmade hnext
  have hcovers := connection_covers hanswers hstop k hnext (hforward k hk next hmade)
  refine ⟨hcovers, ?_⟩
  intro next' hresume
  have hnext' : next' = _ := hcovers.resumes next' hresume
  have hbelow := hcovers.below
  omega

/-- A response that takes a block back, or has one behind the end, shows in what is yielded. -/
theorem readsForward_of_streamsRange (hanswers : Answers network server)
    (hstop : stop < 2 ^ 63 - 1) {start : Nat} (hstart : start < 2 ^ 63) {connections : Nat}
    (h : StreamsRange start stop (blockStream server network start stop connections)) :
    ReadsForward server network start stop connections := by
  intro k
  -- up to connection `k` all numbers are in order, so that it starts at a number below `2^63`
  induction k using Nat.strong_induction_on with
  | _ k ih =>
    intro hk next hmade items hitems r hr
    have hbefore : ReadsForward server network start stop k := fun j hj => ih j hj (by omega)
    have hnext := (blockStream_covers hanswers hstop hstart hbefore).2 next hmade
    obtain ⟨items', hitems', hstreams⟩ := hanswers.streams k hnext
    cases hitems.symm.trans hitems'
    have hyielded : (connection server network stop k next).yielded.map blockNum =
        (readResponses items).map (·.2.number) := by
      rw [← readStream_numbers hstreams nofun next]
      unfold connection
      simp only [hitems]
      split <;> simp [*]
    have hinfix := ((retryLoop_yields hk hmade).map blockNum).trans h.1.isInfix
    rw [hyielded] at hinfix
    constructor
    · rintro hundo
      refine @Streams.not_nodup _ _ _ _ _ hstreams r.2 (hundo ▸ hr) ?_
      exact hinfix.sublist.nodup nodup_range'
    · have hmem := hinfix.subset (mem_map_of_mem hr)
      have := mem_range'_1.mp hmem
      omega

/-- Without an error among the items, the loop is not left for one. -/
theorem readStream_left {items : List (Except Error PbBlock)} (h : hasError items = false)
    (next : Nat) (e : Error) : (readStream network next items).2.2 ≠ .streamError e := by
  induction items generalizing next with
  | nil => nofun
  | cons item rest ih =>
    cases item with
    | error e' => cases h
    | ok block =>
      unfold readStream
      split
      · nofun
      · exact ih h (nextBlock block.number)

/-- A connection without an error ends the stream. -/
theorem connection_ended {k next : Nat}
    (hitems : ∀ items, server k (blocksRequest next stop) = .ok items →
      hasError (items.map decodeResponse) = false)
    (hgoes : (connection server network stop k next).outcome ≠ .aborted) :
    (connection server network stop k next).outcome = .ended := by
  unfold connection at hgoes ⊢
  cases hserver : server k (blocksRequest next stop) with
  | error e =>
    rw [hserver] at hgoes
    exact absurd rfl hgoes
  | ok items =>
    have hleft := @readStream_left network _ (hitems items hserver) next
    simp only [hserver] at hgoes ⊢
    split
    · rfl
    · rename_i hread
      rw [hread] at hleft
      exact absurd rfl (hleft _)
    · rename_i hread
      simp only [hread] at hgoes
      exact absurd rfl hgoes

end Reads

/-- For every server that fails where it will and otherwise sends blocks and takes them back, and
every number of connections: the blocks `start..=stop` are yielded in order and each once exactly if
no response that is read takes a block back, or has one behind the end; and then a connection
without an error ends the stream. The numbers have to fit an `i64`. -/
theorem firehose_streams_range_iff (network : String) (server : Server)
    (hanswers : Answers network server) (start stop : Nat) (hstart : start < 2 ^ 63)
    (hstop : stop < 2 ^ 63 - 1) (connections : Nat) :
    (StreamsRange start stop (blockStream server network start stop connections) ↔
        ReadsForward server network start stop connections) ∧
      (ReadsForward server network start stop (connections + 1) →
        (∀ next items, server connections (blocksRequest next stop) = .ok items →
          hasError (items.map decodeResponse) = false) →
        (blockStream server network start stop (connections + 1)).outcome = .ended) := by
  refine ⟨⟨readsForward_of_streamsRange hanswers hstop hstart, ?_⟩, ?_⟩
  · intro hforward
    have hcovers := (blockStream_covers hanswers hstop hstart hforward).1
    exact ⟨hcovers.initial, hcovers.all⟩
  intro hforward hitems
  have hbefore : ReadsForward server network start stop connections :=
    fun k hk => hforward k (by omega)
  have hgoes := (blockStream_covers hanswers hstop hstart hforward).1.goesOn
  refine retryLoop_ends (blockStream_covers hanswers hstop hstart hbefore).1.goesOn ?_
  intro next hnext
  refine connection_ended (hitems next) ?_
  intro habort
  -- a given up connection would have given up the stream
  apply hgoes
  unfold blockStream at hnext ⊢
  rw [retryLoop, Attempt.andThen, hnext]
  exact habort

/-- One block on each connection, and then a failure. A request with the end 9 gets a block that is
taken back. -/
def flakyServer : Server := fun _ request =>
  if request.stopBlockNum < request.startBlockNum.toNat then .ok []
  else
    let block := plainBlock request.startBlockNum.toNat 1
    .ok (sendBlock .new block ::
      if request.stopBlockNum = 9 then [sendBlock .undo block, .error "unavailable"]
      else [.error "unavailable"])

theorem flakyServer_answers : Answers "mainnet" flakyServer := by
  intro k request _
  unfold flakyServer
  split
  · exact ⟨_, rfl, .close ‹_›⟩
  · refine ⟨_, rfl, ?_⟩
    refine .new (.inl (by omega)) (plainBlock_converts _ 1) ?_
    split
    · exact .undo .fail
    · exact .fail

/-- Blocks 5 and 6 on three connections. -/
theorem firehose_streams_range_flaky : (blockStream flakyServer "mainnet" 5 6 3).outcome = .ended ∧
    (blockStream flakyServer "mainnet" 5 6 3).yielded.map blockNum = [5, 6] := by
  have hended : (blockStream flakyServer "mainnet" 5 6 3).outcome = .ended := by decide +kernel
  refine ⟨hended, ((firehose_streams_range_iff "mainnet" flakyServer flakyServer_answers 5 6
    (by decide) (by decide) 3).1.mpr ?_).2 hended⟩
  intro k _ next _ items hitems r hr
  unfold flakyServer at hitems
  split at hitems
  · cases hitems
    cases hr
  · rename_i hle
    cases hitems
    have hnew : r = (.new, plainBlock (signed 8 next).toNat 1) := by
      simpa [blocksRequest, sendBlock, readResponses] using hr
    simp only [blocksRequest, Nat.not_lt] at hle
    rw [hnew]
    exact ⟨nofun, by simpa [plainBlock] using hle⟩

end CampNode.Firehose

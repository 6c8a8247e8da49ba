import CampNode.Core.Transition
import CampNode.Solana.Extractor

/-!
# CampNode.Solana.Archive — epoch files of the Old Faithful archive

The archive has one CAR file for each epoch. `of1_client::stream` downloads the files into a
directory and reads the blocks from there; a file that exists is not downloaded again. A
download creates its file before the first byte arrives, so that a download that fails or is
interrupted leaves a part of the file behind, which the next run reads.

The reader of CAR files belongs to another crate. What it does with a file that ends inside
the header or inside a node is left open (`NodeReader`). A file that ends right after a node
is one with fewer nodes for any reader, and if that node is a block it looks like the end of
the epoch: the blocks that are missing are then delivered as skipped slots as soon as a block
of the next epoch arrives (`interrupted_download_hides_block`). Otherwise a slot is
delivered as skipped only if the chain has no block there (`skipped_slots_have_no_block`).
-/

namespace CampNode.Solana

open List

/-! ## CAR files -/

structure CarBlock (O : Type) where
  slot : Nat
  parentSlot : Nat
  blockhash : BlockHash
  blockHeight : Option Nat
  blocktime : Nat
  transactions : List O
deriving DecidableEq, Repr

/-- A node of a CAR file. The nodes of the entries and transactions of a block come before
the block. -/
inductive Node (O : Type) where
  | block (block : CarBlock O)
  | epoch
  | other
deriving DecidableEq, Repr

/-- A CAR file: the length of its header, and the nodes with their lengths. -/
structure Car (O : Type) where
  headerBytes : Nat
  nodes : List (Node O × Nat)

/-- What the reader does at the end of a file that is cut. -/
structure NodeReader where
  /-- A file without a complete header is one without nodes. -/
  acceptsCutHeader : Bool
  /-- A node that is cut is ignored. -/
  acceptsCutNode : Bool

section Read

variable {O : Type}

def Node.slot? : Node O → Option Nat
  | .block b => some b.slot
  | .epoch => none
  | .other => none

/-- The slots of the blocks. -/
def nodeSlots (nodes : List (Node O)) : List Nat := nodes.filterMap Node.slot?

def Car.slots (car : Car O) : List Nat := nodeSlots (car.nodes.map (·.1))

def Car.bytes (car : Car O) : Nat := car.headerBytes + (car.nodes.map (·.2)).sum

def CarBlock.decode (prevBlockhash : BlockHash) (b : CarBlock O) : DecodedBlock O :=
  ⟨b.slot, b.parentSlot, b.blockhash, prevBlockhash, b.blockHeight, b.blocktime, b.transactions⟩

/-- The complete nodes among the first bytes, and whether the next node is cut. -/
def cutNodes : Nat → List (Node O × Nat) → List (Node O) × Bool
  | _, [] => ([], false)
  | bytes, (node, size) :: rest =>
      if size ≤ bytes then
        let later := cutNodes (bytes - size) rest
        (node :: later.1, later.2)
      else ([], decide (0 < bytes))

/-- The nodes in the first bytes of a file, and whether the reader fails after them. -/
def NodeReader.read (reader : NodeReader) (car : Car O) (bytes : Nat) : List (Node O) × Bool :=
  if bytes < car.headerBytes then ([], !reader.acceptsCutHeader)
  else
    let cut := cutNodes (bytes - car.headerBytes) car.nodes
    (cut.1, cut.2 && !reader.acceptsCutNode)

/-- `read_entire_block` until it returns no block. `last` is the last node that was read
since the block before; the result is the hash of the last block. -/
def readBlocks (fails : Bool) : Option (Node O) → BlockHash → List (Node O) →
    List (DecodedBlock O) × Except ExtractError BlockHash
  | last, prevBlockhash, [] =>
      ([], if fails then .error (.archive "reading a node failed")
        else match last with
          | some .other => .error (.archive "unexpected node while reading block")
          | _ => .ok prevBlockhash)
  | _, prevBlockhash, .block b :: rest =>
      let later := readBlocks fails none b.blockhash rest
      (b.decode prevBlockhash :: later.1, later.2)
  | _, prevBlockhash, .epoch :: rest => readBlocks fails (some .epoch) prevBlockhash rest
  | _, prevBlockhash, .other :: rest => readBlocks fails (some .other) prevBlockhash rest

end Read

/-! ## The stream of archive blocks -/

/-- `DEFAULT_SLOTS_PER_EPOCH`. -/
def slotsPerEpoch : Nat := 432000

/-- What becomes of a download. -/
inductive Download where
  /-- The file cannot be created. -/
  | createFailed
  | requestFailed
  /-- A response without success. -/
  | status (code : Nat)
  /-- The response, the disk or the process fails after some bytes were written. -/
  | interrupted (bytes : Nat)
  | complete
deriving DecidableEq, Repr

/-- The bytes of the file that a download leaves behind. -/
def Download.leaves (size : Nat) : Download → Option Nat
  | .createFailed => none
  | .requestFailed => some 0
  | .status _ => some 0
  | .interrupted bytes => some bytes
  | .complete => some size

/-- The number of bytes in the file of each epoch that exists. -/
abbrev Directory := Nat → Option Nat

inductive Fetched where
  | available (bytes : Nat)
  | notFound
  | failed (error : ExtractError)
deriving DecidableEq, Repr

/-- A call of `stream` and its environment. -/
structure Run (R : Type) where
  start : Nat
  stop : Nat
  rpc : Nat → RpcResponse R
  download : Nat → Download

section Stream

variable {O R T M : Type} (reader : NodeReader) (archive : Nat → Car O)

/-- The file of an epoch, which is downloaded if it does not exist. -/
def fetch (directory : Directory) (epoch : Nat) (download : Download) : Directory × Fetched :=
  match directory epoch with
  | some bytes => (directory, .available bytes)
  | none =>
      (match download.leaves (archive epoch).bytes with
        | none => directory
        | some bytes => Function.update directory epoch (some bytes), match download with
        | .complete => .available (archive epoch).bytes
        | .status 404 => .notFound
        | .status _ => .failed (.archive "HTTP error")
        | .requestFailed => .failed (.archive "Reqwest error")
        | .interrupted _ => .failed (.archive "Reqwest error")
        | .createFailed => .failed (.archive "I/O error"))

/-- The blocks of a file that lie in the range, and whether a later one was read. -/
def forward (start stop : Nat) : List (DecodedBlock O) → List (DecodedBlock O) × Bool
  | [] => ([], false)
  | block :: rest =>
      if block.slot < start then forward start stop rest
      else if stop < block.slot then ([], true)
      else
        let later := forward start stop rest
        (block :: later.1, later.2)

/-- The loop over the epochs, for at most `fuel` epochs. -/
def epochs (run : Run R) : Nat → Nat → BlockHash → Directory → Historical O × Directory
  | 0, _, _, directory => (⟨[], .pending⟩, directory)
  | fuel + 1, epoch, prevBlockhash, directory =>
      match fetch archive directory epoch (run.download epoch) with
      | (directory, .notFound) => (⟨[], .exhausted⟩, directory)
      | (directory, .failed e) => (⟨[], .failed e⟩, directory)
      | (directory, .available bytes) =>
          let nodes := reader.read (archive epoch) bytes
          let read := readBlocks nodes.2 none prevBlockhash nodes.1
          let forwarded := forward run.start run.stop read.1
          if forwarded.2 then (⟨forwarded.1, .exhausted⟩, directory)
          else
            match read.2 with
            | .error e => (⟨forwarded.1, .failed e⟩, directory)
            | .ok prevBlockhash =>
                let later := epochs run fuel (epoch + 1) prevBlockhash directory
                (⟨forwarded.1 ++ later.1.blocks, later.1.ending⟩, later.2)

/-- The hash of the last block before the range, by JSON-RPC. -/
def prevBlockhash (rpc : Nat → RpcResponse R) : Nat → Except ExtractError BlockHash
  | 0 => .ok 0
  | parentSlot + 1 =>
      match rpc parentSlot with
      | .block block => .ok block.blockhash
      | .error code =>
          if isBlockMissingErr code then prevBlockhash rpc parentSlot else .error (.rpc code)

def stream (run : Run R) (fuel : Nat) (directory : Directory) : Historical O × Directory :=
  match prevBlockhash run.rpc run.start with
  | .error e => (⟨[], .failed e⟩, directory)
  | .ok hash => epochs reader archive run fuel (run.start / slotsPerEpoch) hash directory

/-- `block_stream`: the items of a run, and the directory after it. -/
def blockStream (c : Conversion O R T M) (network : String) (run : Run R) (fuel : Nat)
    (directory : Directory) : List (Item T M) × Directory :=
  let historical := stream reader archive run fuel directory
  (blockStreamImpl c network run.rpc run.start run.stop historical.1, historical.2)

end Stream

/-! ## Parts of a file -/

section Parts

variable {O : Type}
variable (reader : NodeReader) (car : Car O) (bytes : Nat) (nodes : List (Node O × Nat))

theorem cutNodes_isPrefix : (cutNodes bytes nodes).1 <+: nodes.map (·.1) := by
  induction nodes generalizing bytes with
  | nil => exact ⟨[], rfl⟩
  | cons n rest ih =>
    obtain ⟨node, size⟩ := n
    unfold cutNodes
    split
    · exact (prefix_cons_inj node).mpr (ih (bytes - size))
    · exact ⟨_, rfl⟩

theorem cutNodes_all : cutNodes (nodes.map (·.2)).sum nodes = (nodes.map (·.1), false) := by
  induction nodes with
  | nil => rfl
  | cons n rest ih =>
    obtain ⟨node, size⟩ := n
    have hrest : size + (rest.map (·.2)).sum - size = (rest.map (·.2)).sum := by omega
    simp [cutNodes, hrest, ih]

theorem read_slots_prefix : nodeSlots (reader.read car bytes).1 <+: car.slots := by
  unfold NodeReader.read
  split
  · exact ⟨_, rfl⟩
  · exact List.IsPrefix.filterMap Node.slot? (cutNodes_isPrefix _ _)

/-- The complete file. -/
theorem read_all : reader.read car car.bytes = (car.nodes.map (·.1), false) := by
  have hheader : ¬ car.bytes < car.headerBytes := by
    unfold Car.bytes
    omega
  have hbytes : car.bytes - car.headerBytes = (car.nodes.map (·.2)).sum := by
    unfold Car.bytes
    omega
  simp [NodeReader.read, hheader, hbytes, cutNodes_all]

theorem readBlocks_slots (fails : Bool) (last : Option (Node O)) (hash : BlockHash)
    (nodes : List (Node O)) :
    (readBlocks fails last hash nodes).1.map (·.slot) = nodeSlots nodes := by
  induction nodes generalizing last hash with
  | nil => rfl
  | cons node rest ih =>
    cases node with
    | block b =>
      simp only [readBlocks, map_cons, ih]
      rfl
    | epoch => exact ih _ _
    | other => exact ih _ _

/-- The part of a file reads as a complete one with fewer blocks. -/
def QuietCut : Prop :=
  (∃ hash hash', (readBlocks (reader.read car bytes).2 none hash (reader.read car bytes).1).2 =
    .ok hash') ∧ nodeSlots (reader.read car bytes).1 ≠ car.slots

theorem not_quietCut_all : ¬ QuietCut reader car car.bytes := by
  rintro ⟨-, hne⟩
  rw [read_all] at hne
  exact hne rfl

theorem readBlocks_ok_iff {fails : Bool} {last : Option (Node O)} {hash : BlockHash}
    {nodes : List (Node O)} :
    (∃ hash', (readBlocks fails last hash nodes).2 = .ok hash') ↔
      fails = false ∧ (nodes.getLast?.or last) ≠ some .other := by
  induction nodes generalizing last hash with
  | nil =>
    cases fails with
    | true => simp [readBlocks]
    | false =>
      rcases last with _ | (b | _ | _) <;> simp [readBlocks]
  | cons node rest ih =>
    have hlast : ∀ l : Option (Node O), ((node :: rest).getLast?.or l) =
        rest.getLast?.or (some node) := by
      intro l
      cases rest with
      | nil => rfl
      | cons n rest =>
        rw [getLast?_cons_cons]
        cases h : (n :: rest).getLast? with
        | none => simp at h
        | some x => rfl
    rw [hlast]
    cases node with
    | block b =>
      refine ih.trans ?_
      cases h : rest.getLast? with
      | none => simp
      | some x => simp
    | epoch => exact ih
    | other => exact ih

/-- Which parts of a file a reader takes for a complete one that refuses cut headers and
nodes: the part ends right after the header, a block or the epoch node, and a later block is
missing. -/
theorem quietCut_iff {reader : NodeReader} {car : Car O} {bytes : Nat}
    (hheader : reader.acceptsCutHeader = false) (hnode : reader.acceptsCutNode = false) :
    QuietCut reader car bytes ↔ car.headerBytes ≤ bytes ∧
      (cutNodes (bytes - car.headerBytes) car.nodes).2 = false ∧
      (cutNodes (bytes - car.headerBytes) car.nodes).1.getLast? ≠ some .other ∧
      nodeSlots (cutNodes (bytes - car.headerBytes) car.nodes).1 ≠ car.slots := by
  unfold QuietCut
  simp only [readBlocks_ok_iff, exists_const, Option.or_none]
  unfold NodeReader.read
  by_cases hlt : bytes < car.headerBytes
  · simp [hlt, hheader]
  · have hle : car.headerBytes ≤ bytes := by omega
    simp [hlt, hle, hnode, and_assoc]

end Parts

/-! ## The slots of the stream -/

section Slots

variable {O R T M : Type} {reader : NodeReader} {archive : Nat → Car O} {hasBlock : Nat → Prop}

/-- The complete file of every epoch has the blocks of the chain. -/
structure Faithful (hasBlock : Nat → Prop) (archive : Nat → Car O) : Prop where
  increasing : ∀ epoch, (archive epoch).slots.Pairwise (· < ·)
  slots : ∀ epoch n, n ∈ (archive epoch).slots ↔ n / slotsPerEpoch = epoch ∧ hasBlock n

/-- Slots of a range in order, without a gap from `low` on. -/
structure Gapless (hasBlock : Nat → Prop) (start stop low : Nat) (slots : List Nat) : Prop where
  increasing : slots.Pairwise (· < ·)
  bounds : ∀ s ∈ slots, start ≤ s ∧ s ≤ stop ∧ low ≤ s
  gapless : ∀ s ∈ slots, ∀ n, start ≤ n → low ≤ n → n < s → hasBlock n → n ∈ slots

theorem Gapless.nil (hasBlock : Nat → Prop) (start stop low : Nat) :
    Gapless hasBlock start stop low [] := ⟨.nil, nofun, nofun⟩

/-- A prefix of a sorted list has everything below its elements. -/
theorem mem_of_prefix_of_lt {l l' : List Nat} (h : l <+: l') (hsorted : l'.Pairwise (· < ·))
    {s n : Nat} (hs : s ∈ l) (hn : n ∈ l') (hlt : n < s) : n ∈ l := by
  obtain ⟨tail, rfl⟩ := h
  rcases mem_append.mp hn with hn | hn
  · exact hn
  · have := (pairwise_append.mp hsorted).2.2 s hs n hn
    omega

theorem forward_sublist (start stop : Nat) (blocks : List (DecodedBlock O)) :
    (forward start stop blocks).1.Sublist blocks := by
  induction blocks with
  | nil => exact List.Sublist.slnil
  | cons b rest ih =>
    unfold forward
    split
    · exact ih.cons b
    · split
      · exact nil_sublist _
      · exact ih.cons_cons b

variable {n : Nat}

theorem mem_forward_slots {start stop : Nat} {blocks : List (DecodedBlock O)}
    (hsorted : (blocks.map (·.slot)).Pairwise (· < ·)) :
    n ∈ (forward start stop blocks).1.map (·.slot) ↔
      n ∈ blocks.map (·.slot) ∧ start ≤ n ∧ n ≤ stop := by
  induction blocks with
  | nil => simp [forward]
  | cons b rest ih =>
    rw [map_cons, pairwise_cons] at hsorted
    have hrest := ih hsorted.2
    unfold forward
    split
    · rename_i hlow
      rw [hrest, map_cons, mem_cons]
      constructor
      · rintro ⟨hn, hbounds⟩
        exact ⟨.inr hn, hbounds⟩
      · rintro ⟨rfl | hn, hbounds⟩
        · omega
        · exact ⟨hn, hbounds⟩
    rename_i hlow
    split
    · -- everything that follows is above the range
      rename_i hhigh
      rw [map_cons, mem_cons]
      refine iff_of_false (by simp) ?_
      rintro ⟨rfl | hn, -, hstop⟩
      · omega
      · have := hsorted.1 n hn
        omega
    · rename_i hhigh
      rw [map_cons, mem_cons, hrest, map_cons, mem_cons]
      constructor
      · rintro (rfl | ⟨hn, hbounds⟩)
        · exact ⟨.inl rfl, by omega, by omega⟩
        · exact ⟨.inr hn, hbounds⟩
      · rintro ⟨rfl | hn, hbounds⟩
        · exact .inl rfl
        · exact .inr ⟨hn, hbounds⟩

/-- A part of the file of an epoch has no gap. -/
theorem gapless_forward (harchive : Faithful hasBlock archive) {start stop epoch : Nat}
    {blocks : List (DecodedBlock O)} (hblocks : blocks.map (·.slot) <+: (archive epoch).slots) :
    Gapless hasBlock start stop (epoch * slotsPerEpoch)
      ((forward start stop blocks).1.map (·.slot)) := by
  have hsorted : (blocks.map (·.slot)).Pairwise (· < ·) :=
    (harchive.increasing epoch).sublist hblocks.sublist
  have hepoch : ∀ s ∈ blocks.map (·.slot), s / slotsPerEpoch = epoch :=
    fun s hs => ((harchive.slots epoch s).mp (hblocks.subset hs)).1
  refine ⟨hsorted.sublist ((forward_sublist start stop blocks).map _), ?_, ?_⟩
  · intro s hs
    rcases (mem_forward_slots hsorted).mp hs with ⟨hmem, hlow, hhigh⟩
    refine ⟨hlow, hhigh, ?_⟩
    have := hepoch s hmem
    unfold slotsPerEpoch at this ⊢
    omega
  · intro s hs n hstart hlow hlt hblock
    rcases (mem_forward_slots hsorted).mp hs with ⟨hmem, -, hhigh⟩
    have hn : n ∈ (archive epoch).slots := by
      refine (harchive.slots epoch n).mpr ⟨?_, hblock⟩
      have := hepoch s hmem
      unfold slotsPerEpoch at this hlow ⊢
      omega
    exact (mem_forward_slots hsorted).mpr
      ⟨mem_of_prefix_of_lt hblocks (harchive.increasing epoch) hmem hn hlt, hstart, by omega⟩

/-- A complete epoch, followed by the epochs after it. -/
theorem Gapless.append {start stop epoch : Nat} {slots later : List Nat}
    (h : Gapless hasBlock start stop (epoch * slotsPerEpoch) slots)
    (hall : ∀ n, start ≤ n → n ≤ stop → n / slotsPerEpoch = epoch → hasBlock n → n ∈ slots)
    (hbelow : ∀ s ∈ slots, s < (epoch + 1) * slotsPerEpoch)
    (hlater : Gapless hasBlock start stop ((epoch + 1) * slotsPerEpoch) later) :
    Gapless hasBlock start stop (epoch * slotsPerEpoch) (slots ++ later) := by
  refine ⟨pairwise_append.mpr ⟨h.increasing, hlater.increasing, ?_⟩, ?_, ?_⟩
  · intro a ha b hb
    have := hbelow a ha
    have := (hlater.bounds b hb).2.2
    omega
  · intro s hs
    rcases mem_append.mp hs with hs | hs
    · exact h.bounds s hs
    · rcases hlater.bounds s hs with ⟨hlow, hhigh, hepoch⟩
      refine ⟨hlow, hhigh, ?_⟩
      rw [Nat.succ_mul] at hepoch
      omega
  · intro s hs n hstart hlow hlt hblock
    rcases mem_append.mp hs with hs | hs
    · exact mem_append_left _ (h.gapless s hs n hstart hlow hlt hblock)
    by_cases hn : (epoch + 1) * slotsPerEpoch ≤ n
    · exact mem_append_right _ (hlater.gapless s hs n hstart hn hlt hblock)
    · have hhigh := (hlater.bounds s hs).2.1
      refine mem_append_left _ (hall n hstart (by omega) ?_ hblock)
      unfold slotsPerEpoch at hlow hn ⊢
      omega

/-- No file of the directory reads as a complete one with fewer blocks. -/
def Sound (reader : NodeReader) (archive : Nat → Car O) (directory : Directory) : Prop :=
  ∀ epoch, ∀ bytes ∈ directory epoch, ¬ QuietCut reader (archive epoch) bytes

/-- No download of the run leaves such a file. -/
def Run.Sound (reader : NodeReader) (archive : Nat → Car O) (run : Run R) : Prop :=
  ∀ epoch, ∀ bytes ∈ (run.download epoch).leaves (archive epoch).bytes,
    ¬ QuietCut reader (archive epoch) bytes

theorem fetch_sound {directory directory' : Directory} {epoch : Nat} {download : Download}
    {fetched : Fetched} (hdirectory : Sound reader archive directory)
    (hdownload : ∀ bytes ∈ download.leaves (archive epoch).bytes,
      ¬ QuietCut reader (archive epoch) bytes)
    (h : fetch archive directory epoch download = (directory', fetched)) :
    Sound reader archive directory' ∧
      ∀ bytes, fetched = .available bytes → ¬ QuietCut reader (archive epoch) bytes := by
  unfold fetch at h
  cases hfile : directory epoch with
  | some bytes =>
    simp only [hfile, Prod.mk.injEq] at h
    obtain ⟨rfl, rfl⟩ := h
    refine ⟨hdirectory, ?_⟩
    rintro _ ⟨⟩
    exact hdirectory epoch bytes hfile
  | none =>
    simp only [hfile, Prod.mk.injEq] at h
    obtain ⟨rfl, rfl⟩ := h
    constructor
    · cases hleaves : download.leaves (archive epoch).bytes with
      | none => exact hdirectory
      | some bytes =>
        intro e k hk
        by_cases he : e = epoch
        · subst he
          change k ∈ Function.update directory e (some bytes) e at hk
          rw [Function.update_self] at hk
          cases hk
          exact hdownload bytes hleaves
        · change k ∈ Function.update directory epoch (some bytes) e at hk
          rw [Function.update_of_ne he] at hk
          exact hdirectory e k hk
    · intro bytes hbytes
      -- only a complete download makes a file available
      split at hbytes
      · cases hbytes
        exact not_quietCut_all reader (archive epoch)
      all_goals cases hbytes

/-- The blocks of the archive come without a gap, and the directory stays sound. -/
theorem epochs_gapless (harchive : Faithful hasBlock archive) {run : Run R}
    (hrun : run.Sound reader archive) {fuel epoch : Nat} {hash : BlockHash} {directory : Directory}
    (hdirectory : Sound reader archive directory) :
    Gapless hasBlock run.start run.stop (epoch * slotsPerEpoch)
        ((epochs reader archive run fuel epoch hash directory).1.blocks.map (·.slot)) ∧
      Sound reader archive (epochs reader archive run fuel epoch hash directory).2 := by
  induction fuel generalizing epoch hash directory with
  | zero => exact ⟨.nil _ _ _ _, hdirectory⟩
  | succ fuel ih =>
    unfold epochs
    cases hfetch : fetch archive directory epoch (run.download epoch) with
    | mk directory' fetched =>
      rcases fetch_sound hdirectory (hrun epoch) hfetch with ⟨hsound, hquiet⟩
      cases fetched with
      | notFound => exact ⟨.nil _ _ _ _, hsound⟩
      | failed e => exact ⟨.nil _ _ _ _, hsound⟩
      | available bytes =>
        set nodes := reader.read (archive epoch) bytes with hnodes
        set read := readBlocks nodes.2 none hash nodes.1 with hread
        have hslots : read.1.map (·.slot) = nodeSlots nodes.1 := readBlocks_slots _ _ _ _
        have hinitial : read.1.map (·.slot) <+: (archive epoch).slots := by
          rw [hslots]
          exact read_slots_prefix reader (archive epoch) bytes
        have hpart := @gapless_forward _ _ _ harchive run.start run.stop epoch _ hinitial
        simp only [← hnodes, ← hread]
        split
        · exact ⟨hpart, hsound⟩
        cases hresult : read.2 with
        | error e => exact ⟨hpart, hsound⟩
        | ok hash' =>
          rcases @ih (epoch + 1) hash' directory' hsound with ⟨hlater, hsound'⟩
          refine ⟨?_, hsound'⟩
          -- the file was read to its end, so that it has all blocks of the epoch
          have hcomplete : read.1.map (·.slot) = (archive epoch).slots := by
            rw [hslots]
            by_contra hne
            exact hquiet bytes rfl ⟨⟨hash, hash', hresult⟩, hne⟩
          have hsorted : (read.1.map (·.slot)).Pairwise (· < ·) := by
            rw [hcomplete]
            exact harchive.increasing epoch
          rw [map_append]
          refine hpart.append ?_ ?_ hlater
          · intro n hlow hhigh hepoch hblock
            refine (mem_forward_slots hsorted).mpr ⟨?_, hlow, hhigh⟩
            rw [hcomplete]
            exact (harchive.slots epoch n).mpr ⟨hepoch, hblock⟩
          · intro s hs
            have hmem := ((mem_forward_slots hsorted).mp hs).1
            rw [hcomplete] at hmem
            have := ((harchive.slots epoch s).mp hmem).1
            unfold slotsPerEpoch at this ⊢
            omega

theorem stream_gapless (harchive : Faithful hasBlock archive) {run : Run R}
    (hrun : run.Sound reader archive) {fuel : Nat} {directory : Directory}
    (hdirectory : Sound reader archive directory) :
    Gapless hasBlock run.start run.stop 0
        ((stream reader archive run fuel directory).1.blocks.map (·.slot)) ∧
      Sound reader archive (stream reader archive run fuel directory).2 := by
  unfold stream
  split
  · exact ⟨.nil _ _ _ _, hdirectory⟩
  rename_i hash _
  rcases @epochs_gapless _ _ _ _ _ harchive _ hrun fuel (run.start / slotsPerEpoch) hash _
    hdirectory with ⟨h, hsound⟩
  refine ⟨⟨h.increasing, ?_, ?_⟩, hsound⟩
  · intro s hs
    rcases h.bounds s hs with ⟨hlow, hhigh, -⟩
    exact ⟨hlow, hhigh, Nat.zero_le s⟩
  · intro s hs n hlow _ hlt hblock
    refine h.gapless s hs n hlow ?_ hlt hblock
    unfold slotsPerEpoch
    omega

/-! ## Skipped slots -/

theorem exists_slot_of_lt_nextSlot {start n : Nat} {blocks : List (DecodedBlock O)}
    (hstart : start ≤ n) (hn : n < nextSlot start blocks) : ∃ b ∈ blocks, n ≤ b.slot := by
  induction blocks generalizing start with
  | nil =>
    have : n < start := hn
    omega
  | cons b rest ih =>
    by_cases hb : n ≤ b.slot
    · exact ⟨b, mem_cons_self, hb⟩
    · rcases ih (by omega) hn with ⟨b', hb', hle⟩
      exact ⟨b', mem_cons_of_mem _ hb', hle⟩

theorem emptyDbRows_injective {m n : Nat}
    (h : (emptyDbRows network m : Item T M) = emptyDbRows network n) : m = n := by
  simp only [emptyDbRows, Except.ok.injEq, cons.injEq] at h
  exact congrArg (fun rows : RawTableRows Table (Rows T M) => rows.range.start) h.1

variable {c : Conversion O R T M} {network : String}

theorem convertOfDataToDbRows_ne {block : DecodedBlock O} :
    convertOfDataToDbRows c network block ≠ (emptyDbRows network n : Item T M) := by
  simp [convertOfDataToDbRows, emptyDbRows]

/-- The RPC provider still stores every block. A slot without a block and a block that is missing in
its storage have the same codes. -/
def Run.Stored (hasBlock : Nat → Prop) (run : Run R) : Prop :=
  ∀ n code, run.rpc n = .error code → isBlockMissingErr code = true → ¬ hasBlock n

theorem rpcItem_empty {rpc : Nat → RpcResponse R} {m n : Nat}
    (h : rpcItem c network rpc m = (emptyDbRows network n : Item T M)) :
    m = n ∧ ∃ code, rpc n = .error code ∧ isBlockMissingErr code = true := by
  unfold rpcItem at h
  cases hresponse : rpc m with
  | block block =>
    simp only [hresponse, convertRpcBlockToDbRows] at h
    split at h
    · cases h
    · simp [emptyDbRows] at h
  | error code =>
    simp only [hresponse] at h
    split at h
    · rename_i hmissing
      cases emptyDbRows_injective h
      exact ⟨rfl, code, hresponse, hmissing⟩
    · cases h

/-- A stream whose archive blocks have no gap. -/
theorem no_block_of_gapless {run : Run R} (hstored : run.Stored hasBlock)
    (hstop : run.stop < 2 ^ 64) {historical : Historical O}
    (hgapless : Gapless hasBlock run.start run.stop 0 (historical.blocks.map (·.slot)))
    (hn : emptyDbRows network n ∈ blockStreamImpl c network run.rpc run.start run.stop historical) :
    ¬ hasBlock n := by
  intro hblock
  have horder : InOrder run.start run.stop historical.blocks := by
    refine ⟨hgapless.increasing, ?_⟩
    intro b hb
    rcases hgapless.bounds b.slot (mem_map_of_mem hb) with ⟨hlow, hhigh, -⟩
    exact ⟨hlow, hhigh⟩
  rcases @archiveItems_eq _ _ _ _ c network _ _ _ horder hstop with ⟨hitems, -⟩
  -- a slot that the archive passes over
  have harchive : emptyDbRows network n ∉
      (archiveItems c network run.stop run.start historical.blocks).1 := by
    intro hmem
    rw [hitems] at hmem
    rcases mem_map.mp hmem with ⟨m, hm, hitem⟩
    rcases mem_range'_1.mp hm with ⟨hlow, hhigh⟩
    unfold archiveItem at hitem
    split at hitem
    · exact convertOfDataToDbRows_ne hitem
    rename_i hfind
    cases emptyDbRows_injective hitem
    have hnone : ∀ b ∈ historical.blocks, b.slot ≠ n := by simpa using hfind
    rcases @exists_slot_of_lt_nextSlot _ _ n historical.blocks hlow (by omega) with ⟨b, hb, hle⟩
    have hne := hnone b hb
    have hmem := hgapless.gapless b.slot (mem_map_of_mem hb) n hlow (Nat.zero_le n)
      (by omega) hblock
    rcases mem_map.mp hmem with ⟨b', hb', heq⟩
    exact hnone b' hb' heq
  unfold blockStreamImpl at hn
  simp only at hn
  split at hn
  · exact harchive hn
  rcases mem_append.mp hn with hn | hn
  · exact harchive hn
  split at hn
  · -- a slot that the RPC provider has no block for
    rcases mem_flatMap.mp hn with ⟨chunk, -, hchunk⟩
    rcases mem_map.mp hchunk with ⟨m, -, hitem⟩
    rcases rpcItem_empty hitem with ⟨-, code, hcode, hmissing⟩
    exact hstored n code hcode hmissing hblock
  · rcases mem_singleton.mp hn with ⟨⟩
  · cases hn

/-- One run, which may end after any epoch. -/
def Restart (reader : NodeReader) (archive : Nat → Car O) (allowed : Run R → Prop) :
    Action Directory := fun directory directory' =>
  ∃ run fuel, allowed run ∧ directory' = (stream reader archive run fuel directory).2

/-- No file was downloaded. -/
def noFiles : StatePred Directory := fun directory => directory = fun _ => none

theorem directory_sound (harchive : Faithful hasBlock archive) :
    ∀ directory, Reachable noFiles (@Restart O R reader archive (Run.Sound reader archive))
      directory → Sound reader archive directory := by
  refine init_invariant _ _ _ ?_ ?_
  · rintro _ rfl epoch bytes hbytes
    cases hbytes
  · rintro directory _ ⟨run, fuel, hrun, rfl⟩ hdirectory
    exact (stream_gapless harchive hrun hdirectory).2

/-- If no download leaves a part of a file that reads as a complete one with fewer blocks and the
RPC provider stores every block, a run delivers a slot as skipped only if the chain has no block
there. -/
theorem skipped_slots_have_no_block (reader : NodeReader) (archive : Nat → Car O)
    (hasBlock : Nat → Prop) (harchive : Faithful hasBlock archive) (directory : Directory)
    (hreachable : Reachable noFiles (@Restart O R reader archive (Run.Sound reader archive)) directory)
    (c : Conversion O R T M) (network : String) (run : Run R) (hrun : run.Sound reader archive)
    (hstored : run.Stored hasBlock) (hstop : run.stop < 2 ^ 64) (fuel n : Nat)
    (hn : emptyDbRows network n ∈ (blockStream reader archive c network run fuel directory).1) :
    ¬ hasBlock n := by
  have hsound := directory_sound harchive directory hreachable
  exact no_block_of_gapless hstored hstop (stream_gapless harchive hrun hsound).1 hn

end Slots

/-- A reader that refuses cut headers and nodes. -/
def strictReader : NodeReader := ⟨false, false⟩

/-- A block without transactions. -/
def sampleNode (slot : Nat) : Node Unit :=
  .block ⟨slot, slot - 1, BitVec.ofNat 256 slot, none, 0, []⟩

/-- The last two slots of the first epoch and the first one of the second have blocks. -/
def sampleArchive : Nat → Car Unit
  | 0 => ⟨10, [(.other, 5), (sampleNode 431998, 5), (.other, 5), (sampleNode 431999, 5), (.epoch, 5)]⟩
  | 1 => ⟨10, [(.other, 5), (sampleNode 432000, 5), (.epoch, 5)]⟩
  | _ => ⟨10, [(.epoch, 5)]⟩

def sampleBlocks (n : Nat) : Prop := n = 431998 ∨ n = 431999 ∨ n = 432000

/-- A run with an RPC provider that has a block for every slot but 431997. -/
def sampleRun (start stop : Nat) (download : Nat → Download) : Run Unit :=
  ⟨start, stop, unitRpc fun n => n != 431997, download⟩

theorem sampleArchive_faithful : Faithful sampleBlocks sampleArchive := by
  constructor
  · rintro (_ | _ | epoch)
    · decide
    · decide
    · exact List.Pairwise.nil
  rintro (_ | _ | epoch) n
  · have hslots : (sampleArchive 0).slots = [431998, 431999] := rfl
    simp only [hslots, mem_cons, not_mem_nil, or_false, sampleBlocks, slotsPerEpoch]
    omega
  · have hslots : (sampleArchive 1).slots = [432000] := rfl
    simp only [hslots, mem_cons, not_mem_nil, or_false, sampleBlocks, slotsPerEpoch]
    omega
  · have hslots : (sampleArchive (epoch + 2)).slots = [] := rfl
    rw [hslots]
    refine iff_of_false not_mem_nil ?_
    simp only [sampleBlocks, slotsPerEpoch]
    omega

theorem sampleRun_stored (start stop : Nat) (download : Nat → Download) :
    (sampleRun start stop download).Stored sampleBlocks := by
  intro n code h _ hblock
  have hne : (n != 431997) = true := by
    unfold sampleBlocks at hblock
    simp only [bne_iff_ne]
    omega
  simp [sampleRun, unitRpc, hne] at h

/-- The download of the second epoch is interrupted inside of a node. A later run over the
first epoch delivers slot 431997 as skipped, and the chain has no block there. -/
theorem skipped_slots_have_no_block_sample :
    emptyDbRows "solana" 431997 ∈ (blockStream strictReader sampleArchive unitConversion "solana"
        (sampleRun 431997 431999 fun _ => .complete) 3
        (stream strictReader sampleArchive (sampleRun 432000 432000 fun _ => .interrupted 12) 1
          fun _ => none).2).1 ∧ ¬ sampleBlocks 431997 := by
  have hcut : ∀ epoch, ¬ QuietCut strictReader (sampleArchive epoch) 12 := by
    intro epoch
    rw [quietCut_iff rfl rfl]
    rcases epoch with _ | _ | epoch
    · decide
    · decide
    · exact fun h => absurd h.2.1 (by simp [sampleArchive, cutNodes])
  have hmem : emptyDbRows "solana" 431997 ∈ (blockStream strictReader sampleArchive unitConversion
      "solana" (sampleRun 431997 431999 fun _ => .complete) 3
      (stream strictReader sampleArchive (sampleRun 432000 432000 fun _ => .interrupted 12) 1
        fun _ => none).2).1 := mem_cons_self
  refine ⟨hmem, ?_⟩
  refine skipped_slots_have_no_block strictReader sampleArchive sampleBlocks sampleArchive_faithful
    _ (.step (.init rfl) ⟨_, 1, ?_, rfl⟩) unitConversion "solana" _ ?_ (sampleRun_stored _ _ _)
    (by decide) 3 431997 hmem
  · rintro epoch _ ⟨⟩
    exact hcut epoch
  · rintro epoch _ ⟨⟩
    exact not_quietCut_all strictReader (sampleArchive epoch)

/-- The first run is interrupted right after the first block. The second run finds the file,
takes it for the whole epoch, downloads the next one and delivers slot 431999 as skipped. So does
a run without downloads, if the RPC provider does not store the block. -/
theorem interrupted_download_hides_block :
    Faithful sampleBlocks sampleArchive ∧ sampleBlocks 431999 ∧ (∃ directory, Reachable noFiles
          (@Restart Unit Unit strictReader sampleArchive (Run.Stored sampleBlocks)) directory ∧
        directory 0 = some 20 ∧ directory 1 = none ∧
        (sampleRun 431998 432000 fun _ => .complete).Stored sampleBlocks ∧
        emptyDbRows "solana" 431999 ∈ (blockStream strictReader sampleArchive unitConversion
          "solana" (sampleRun 431998 432000 fun _ => .complete) 3 directory).1) ∧
      emptyDbRows "solana" 431999 ∈ (blockStream strictReader sampleArchive unitConversion "solana"
        ⟨431999, 431999, unitRpc fun n => n != 431999, fun _ => .status 404⟩ 3
          fun _ => none).1 := by
  refine ⟨sampleArchive_faithful, .inr (.inl rfl),
    ⟨(stream strictReader sampleArchive (sampleRun 431998 432000 fun _ => .interrupted 20) 1
      fun _ => none).2,
    .step (.init rfl) ⟨_, 1, sampleRun_stored _ _ _, rfl⟩, rfl, rfl,
    sampleRun_stored _ _ _, ?_⟩, ?_⟩
  · exact mem_cons_of_mem _ mem_cons_self
  · exact mem_cons_self

end CampNode.Solana

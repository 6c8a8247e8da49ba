import CampNode.Core.Transition
import Mathlib.Data.Nat.Basic
import Mathlib.Logic.Function.Basic
import Mathlib.Order.Lattice

/-!
# CampNode.Datasets.Tags — version tags and the `latest` tag of a dataset

The rows of the `tags` table that belong to one dataset: one for each semantic version, and
the special ones `latest` and `dev`. `DatasetStore::set_dataset_version_tag` writes the row of
a version and, if the version is greater than the one that `latest` stands for, moves
`latest`. The version that `latest` stands for is not stored; it is found again by the
manifest hash (`get_latest_for_update`).

Requests run concurrently under read committed. A statement sees what was committed when it
began, together with the writes of its own transaction, and a write waits for the transaction
that wrote to the same row. `FOR UPDATE` waits as well and then sees the new row, while the
rest of the statement still sees the old rows.

* `latest_not_greatest` — with two versions of one manifest, or with two first tags at the
  same time, `latest` ends up at a version that is not the greatest one.
* `latest_is_greatest` — it stays at the greatest version if the transactions do not overlap,
  no smaller version gets the manifest of `latest`, and no version is moved while a request to
  delete it is between its two reads.
-/

namespace CampNode.Datasets

/-! ## Tables -/

structure TagRow (H : Type) where
  hash : H
  updatedAt : Nat
deriving DecidableEq, Repr

/-- The committed tags of a dataset, apart from `dev`. -/
structure Tags (V H : Type) where
  versions : V → Option (TagRow H)
  latest : Option H

/-- How far a transaction of `set_dataset_version_tag` is. -/
inductive Phase (V H : Type) where
  /-- The row of the version is written. -/
  | upserted
  /-- `get_latest_for_update` has begun; it sees these rows and waits for the lock. -/
  | locking (view : V → Option (TagRow H))
  /-- It returned. -/
  | read (current : Option V)
  /-- `latest` is written. -/
  | wrote

structure SetTxn (V H : Type) where
  version : V
  hash : H
  /-- The row of the version after the first statement. -/
  row : TagRow H
  phase : Phase V H
  /-- The transaction has locked or written the row of `latest`. -/
  holdsLatest : Bool

/-- How far a request to delete a version is. Its statements run on their own. -/
inductive DeleteRequest (V H : Type) where
  | resolved (version : V) (hash : H)
  | checked (version : V)

structure TagStore (V H : Type) where
  tags : Tags V H
  dev : Option H
  /-- The manifests that are linked to the dataset (`dataset_manifests`). -/
  links : H → Bool
  /-- The clock of the database. It is read at the beginning of a transaction. -/
  now : Nat
  txns : Nat → Option (SetTxn V H)
  deletes : Nat → Option (DeleteRequest V H)

section Model

variable {V H : Type} [LinearOrder V] (tags : Tags V H) (version : V)

/-- The row after `upsert_version`. A row that has the hash already is not changed. -/
def upsertVersion [DecidableEq H] (hash : H) (now : Nat) : TagRow H :=
  match tags.versions version with
  | some row => if row.hash = hash then row else ⟨hash, now⟩
  | none => ⟨hash, now⟩

def Tags.setVersion (row : TagRow H) : Tags V H :=
  { tags with versions := Function.update tags.versions version (some row) }

def Tags.setLatest (hash : H) : Tags V H := { tags with latest := some hash }

def Tags.deleteVersion : Tags V H :=
  { tags with versions := Function.update tags.versions version none }

/-- `ORDER BY updated_at DESC LIMIT 1` among the rows with the hash. -/
def Newest (view : V → Option (TagRow H)) (hash : H) : Option V → Prop
  | none => ∀ v row, view v = some row → row.hash ≠ hash
  | some current => ∃ row, view current = some row ∧ row.hash = hash ∧
      ∀ v row', view v = some row' → row'.hash = hash → row'.updatedAt ≤ row.updatedAt

section Actions

variable [DecidableEq H]

namespace TagStore

variable (s : TagStore V H) (d i : Nat) (version : V) (hash : H)

/-- No other transaction has the row of the version. -/
def VersionFree : Prop :=
  ∀ j, j ≠ i → ∀ txn ∈ s.txns j, txn.version ≠ version

/-- No other transaction has the row of `latest`. -/
def LatestFree : Prop :=
  ∀ j, j ≠ i → ∀ txn ∈ s.txns j, txn.holdsLatest = false

def setTxn (txn : Option (SetTxn V H)) : TagStore V H :=
  { s with txns := Function.update s.txns i txn }

def setDelete (request : Option (DeleteRequest V H)) : TagStore V H :=
  { s with deletes := Function.update s.deletes d request }

/-! ## Actions -/

/-- `register_version_tag`. A foreign key requires a linked manifest. -/
def Begin : Action (TagStore V H) := fun s s' =>
  s.txns i = none ∧ s.VersionFree i version ∧ s.links hash = true ∧
    s' = { s.setTxn i (some ⟨version, hash, upsertVersion s.tags version hash s.now,
      .upserted, false⟩) with now := s.now + 1 }

/-- `get_latest_tag_and_lock` begins. If there is no `latest` tag, nothing is locked. -/
def ReadLatest : Action (TagStore V H) := fun s s' =>
  ∃ txn, s.txns i = some txn ∧ txn.phase = .upserted ∧ s' = s.setTxn i (some { txn with
      phase := if s.tags.latest.isNone then .read none
        else .locking (s.tags.setVersion txn.version txn.row).versions })

/-- It gets the lock and joins the rows of its view with the hash in the locked row. -/
def LockLatest (current : Option V) : Action (TagStore V H) := fun s s' =>
  ∃ txn view hash, s.txns i = some txn ∧ txn.phase = .locking view ∧ s.LatestFree i ∧
    s.tags.latest = some hash ∧ Newest view hash current ∧
    s' = s.setTxn i (some { txn with phase := .read current, holdsLatest := true })

/-- The current version is not smaller, and the transaction commits. -/
def Keep : Action (TagStore V H) := fun s s' =>
  ∃ txn current, s.txns i = some txn ∧ txn.phase = .read (some current) ∧ txn.version ≤ current ∧
    s' = { s.setTxn i none with tags := s.tags.setVersion txn.version txn.row }

/-- `set_latest_tag`. -/
def WriteLatest : Action (TagStore V H) := fun s s' =>
  ∃ txn current, s.txns i = some txn ∧ txn.phase = .read current ∧
    (∀ c ∈ current, c < txn.version) ∧ s.LatestFree i ∧
    s' = s.setTxn i (some { txn with phase := .wrote, holdsLatest := true })

def Commit : Action (TagStore V H) := fun s s' =>
  ∃ txn, s.txns i = some txn ∧ txn.phase = .wrote ∧ s' = { s.setTxn i none with
      tags := (s.tags.setVersion txn.version txn.row).setLatest txn.hash }

/-- An error in the transaction or of its connection. -/
def Rollback : Action (TagStore V H) := fun s s' => s' = s.setTxn i none

/-- `link_manifest`. No other request sees it before it is committed. -/
def LinkManifest : Action (TagStore V H) := fun s s' =>
  s' = { s with links := Function.update s.links hash true, dev := some hash }

/-- The first read of a deletion. Without a row the request is done. -/
def ResolveVersion : Action (TagStore V H) := fun s s' =>
  s.deletes d = none ∧
    s' = s.setDelete d ((s.tags.versions version).map fun row => .resolved version row.hash)

/-- The second read. The version of `latest` is not deleted. -/
def ResolveLatest : Action (TagStore V H) := fun s s' =>
  ∃ version hash, s.deletes d = some (.resolved version hash) ∧
    s' = s.setDelete d (if s.tags.latest = some hash then none else some (.checked version))

/-- The `DELETE` waits for a transaction that has written the row. -/
def DeleteVersion : Action (TagStore V H) := fun s s' =>
  ∃ version, s.deletes d = some (.checked version) ∧
    (s.tags.versions version = none ∨ ∀ i, ∀ txn ∈ s.txns i, txn.version ≠ version) ∧
    s' = { s.setDelete d none with tags := s.tags.deleteVersion version }

end TagStore

/-- A step of a request. -/
inductive Act (V H : Type) where
  | begin (i : Nat) (version : V) (hash : H)
  | readLatest (i : Nat)
  | lockLatest (i : Nat) (current : Option V)
  | keep (i : Nat)
  | writeLatest (i : Nat)
  | commit (i : Nat)
  | rollback (i : Nat)
  | linkManifest (hash : H)
  | resolveVersion (d : Nat) (version : V)
  | resolveLatest (d : Nat)
  | deleteVersion (d : Nat)

namespace TagStore

def Perform : Act V H → Action (TagStore V H)
  | .begin i version hash => Begin i version hash
  | .readLatest i => ReadLatest i
  | .lockLatest i current => LockLatest i current
  | .keep i => Keep i
  | .writeLatest i => WriteLatest i
  | .commit i => Commit i
  | .rollback i => Rollback i
  | .linkManifest hash => LinkManifest hash
  | .resolveVersion d version => ResolveVersion d version
  | .resolveLatest d => ResolveLatest d
  | .deleteVersion d => DeleteVersion d

/-- Any interleaving of requests whose steps are allowed. -/
def Next (allowed : TagStore V H → Act V H → Prop) : Action (TagStore V H) := fun s s' =>
  ∃ act, allowed s act ∧ Perform act s s'

/-- A dataset without tags. -/
def Init : StatePred (TagStore V H) := fun s =>
  (∀ v, s.tags.versions v = none) ∧ s.tags.latest = none ∧ (∀ i, s.txns i = none) ∧
    ∀ d, s.deletes d = none

end TagStore

end Actions

/-- `latest` points to the manifest of the greatest version. -/
def LatestIsGreatest : Prop :=
  ∃ g row, tags.versions g = some row ∧ (∀ v row', tags.versions v = some row' → v ≤ g) ∧
    tags.latest = some row.hash

/-! ## The current version -/

/-- `g` is the greatest version, `latest` points to its manifest, and its row is newer than
those of other versions with that manifest. -/
structure Current (tags : Tags V H) (g : V) (row : TagRow H) : Prop where
  tagged : tags.versions g = some row
  greatest : ∀ v row', tags.versions v = some row' → v ≤ g
  latest : tags.latest = some row.hash
  newest : ∀ v row', tags.versions v = some row' → row'.hash = row.hash → v ≠ g →
    row'.updatedAt < row.updatedAt

/-- The dataset has no tags, or `latest` can be found again. -/
def Tags.Ok : Prop :=
  ((∀ v, tags.versions v = none) ∧ tags.latest = none) ∨ ∃ g row, Current tags g row

/-- A greater version is tagged. -/
def Tags.Above : Prop :=
  ∃ g row, version < g ∧ tags.versions g = some row

/-- A row that is written: it is the old one, or newer than all others. -/
structure Fresh (hash : H) (row : TagRow H) : Prop where
  hash_eq : row.hash = hash
  old : ∀ row', tags.versions version = some row' → row'.hash = hash → row = row'
  newer : (∀ row', tags.versions version = some row' → row'.hash ≠ hash) →
    ∀ v row', tags.versions v = some row' → row'.updatedAt < row.updatedAt

/-- No smaller version gets the manifest of `latest`. -/
def Tags.Suits (hash : H) : Prop :=
  tags.latest = some hash → (∀ v row, tags.versions v = some row → v ≤ version) ∨
    ∃ row, tags.versions version = some row ∧ row.hash = hash

omit [LinearOrder V] in
theorem fresh_upsertVersion [DecidableEq H] {tags : Tags V H} {version : V} {hash : H} {now : Nat}
    (hnow : ∀ v row, tags.versions v = some row → row.updatedAt < now) :
    Fresh tags version hash (upsertVersion tags version hash now) := by
  unfold upsertVersion
  cases hrow : tags.versions version with
  | none =>
    refine ⟨rfl, ?_, fun _ => hnow⟩
    intro row' h
    rw [hrow] at h
    cases h
  | some row =>
    simp only
    split
    · rename_i heq
      refine ⟨heq, ?_, ?_⟩
      · intro row' h _
        rw [hrow] at h
        exact Option.some.inj h
      · intro hne
        exact absurd heq (hne row hrow)
    · rename_i hne
      refine ⟨rfl, ?_, fun _ => hnow⟩
      intro row' h heq
      rw [hrow] at h
      cases h
      exact absurd heq hne

@[simp] theorem setVersion_versions_self (row : TagRow H) :
    (tags.setVersion version row).versions version = some row := Function.update_self ..

@[simp] theorem setVersion_versions_ne {version v : V} (row : TagRow H) (h : v ≠ version) :
    (tags.setVersion version row).versions v = tags.versions v :=
  Function.update_of_ne h ..

variable {tags : Tags V H} {w : V}

theorem versions_of_setVersion {version v : V} {row row' : TagRow H}
    (h : (tags.setVersion version row).versions v = some row') :
    (v = version ∧ row = row') ∨ (v ≠ version ∧ tags.versions v = some row') :=
  (update_eq_some.mp h).imp_left fun h => ⟨h.1, Option.some.inj h.2⟩

/-- What `get_latest_for_update` returns for a transaction that sees these tags. -/
def Reads (tags : Tags V H) (view : V → Option (TagRow H)) (current : Option V) : Prop :=
  match tags.latest with
  | none => current = none
  | some hash => Newest view hash current

/-- The version of `latest` is kept if it is not smaller. -/
def Keeps (current : Option V) : Prop := ∃ c ∈ current, version ≤ c

/-- The tags after the commit are in order. -/
def Decides (tags : Tags V H) (txn : SetTxn V H) (current : Option V) : Prop :=
  (Keeps txn.version current → (tags.setVersion txn.version txn.row).Ok) ∧
    (¬ Keeps txn.version current → ((tags.setVersion txn.version txn.row).setLatest txn.hash).Ok)

section Decision

variable {tags : Tags V H} {txn : SetTxn V H} {current : Option V}
  (hfresh : Fresh tags txn.version txn.hash txn.row)

include hfresh in
/-- The version becomes the greatest one, and `latest` is moved to it. -/
theorem ok_setLatest (hgreatest : ∀ v row, tags.versions v = some row → v ≤ txn.version)
    (hmoved : ∀ row, tags.versions txn.version = some row → row.hash ≠ txn.hash) :
    ((tags.setVersion txn.version txn.row).setLatest txn.hash).Ok := by
  refine .inr ⟨txn.version, txn.row, ⟨setVersion_versions_self .., ?_, ?_, ?_⟩⟩
  · intro v row hv
    rcases versions_of_setVersion hv with ⟨rfl, -⟩ | ⟨-, hv⟩
    · exact le_rfl
    · exact hgreatest v row hv
  · exact congrArg some hfresh.hash_eq.symm
  · intro v row hv _ hne
    exact hfresh.newer hmoved v row ((setVersion_versions_ne tags txn.row hne).symm.trans hv)

/-- The newest row with the hash of `latest` belongs to `g`. -/
theorem Current.eq_of_newest {g c : V} {row row' : TagRow H} (h : Current tags g row)
    (hc : tags.versions c = some row') (hhash : row'.hash = row.hash)
    (hle : row.updatedAt ≤ row'.updatedAt) : c = g := by
  by_contra hne
  have := h.newest c row' hc hhash hne
  omega

variable {row : TagRow H}

include hfresh in
/-- A version below the greatest one. -/
theorem decides_below {g : V} (h : Current tags g row) (hlt : txn.version < g)
    (hsuits : tags.Suits txn.version txn.hash)
    (hnewest : Newest (tags.setVersion txn.version txn.row).versions row.hash current) :
    Decides tags txn current := by
  have hg : (tags.setVersion txn.version txn.row).versions g = some row := by
    rw [setVersion_versions_ne tags txn.row (ne_of_gt hlt)]
    exact h.tagged
  -- if the version has the manifest of `latest`, it had it before
  have hsame : txn.row.hash = row.hash → tags.versions txn.version = some txn.row := by
    intro hhash
    have hlatest : tags.latest = some txn.hash := by
      rw [h.latest, ← hhash, hfresh.hash_eq]
    rcases hsuits hlatest with hall | ⟨row', hrow', hhash'⟩
    · exact absurd (hall g row h.tagged) (not_le_of_gt hlt)
    · rw [hfresh.old row' hrow' hhash']
      exact hrow'
  have hold : ∀ v row', (tags.setVersion txn.version txn.row).versions v = some row' →
      row'.hash = row.hash → tags.versions v = some row' := by
    intro v row' hv hhash
    rcases versions_of_setVersion hv with ⟨rfl, rfl⟩ | ⟨-, hv⟩
    · exact hsame hhash
    · exact hv
  have hkeep : Keeps txn.version current := by
    cases current with
    | none => exact absurd rfl (hnewest g row hg)
    | some c =>
      obtain ⟨row', hc, hhash, hmax⟩ := hnewest
      have hcg := h.eq_of_newest (hold c row' hc hhash) hhash (hmax g row hg rfl)
      exact ⟨c, rfl, hcg ▸ le_of_lt hlt⟩
  refine ⟨fun _ => .inr ⟨g, row, hg, ?_, h.latest, ?_⟩, fun hnot => absurd hkeep hnot⟩
  · intro v row' hv
    rcases versions_of_setVersion hv with ⟨rfl, -⟩ | ⟨-, hv⟩
    · exact le_of_lt hlt
    · exact h.greatest v row' hv
  · intro v row' hv hhash hne
    exact h.newest v row' (hold v row' hv hhash) hhash hne

include hfresh in
/-- The greatest version itself. -/
theorem decides_greatest (h : Current tags txn.version row)
    (hnewest : Newest (tags.setVersion txn.version txn.row).versions row.hash current) :
    Decides tags txn current := by
  by_cases hhash : row.hash = txn.hash
  · -- nothing changes
    have hrow : txn.row = row := hfresh.old row h.tagged hhash
    have hsame : tags.setVersion txn.version txn.row = tags := by
      unfold Tags.setVersion
      rw [hrow, ← h.tagged, Function.update_eq_self]
    rw [hsame] at hnewest
    have hkeep : Keeps txn.version current := by
      cases current with
      | none => exact absurd rfl (hnewest _ row h.tagged)
      | some c =>
        obtain ⟨row', hc, hhash', hmax⟩ := hnewest
        exact ⟨c, rfl, le_of_eq (h.eq_of_newest hc hhash' (hmax _ row h.tagged rfl)).symm⟩
    refine ⟨fun _ => ?_, fun hnot => absurd hkeep hnot⟩
    rw [hsame]
    exact .inr ⟨_, row, h⟩
  · have hmoved : ∀ row', tags.versions txn.version = some row' → row'.hash ≠ txn.hash := by
      intro row' hrow'
      rw [h.tagged] at hrow'
      cases hrow'
      exact hhash
    refine ⟨?_, fun _ => ok_setLatest hfresh h.greatest hmoved⟩
    -- the version that is found is another one, and smaller
    rintro ⟨c, hc, hle⟩
    cases hc
    obtain ⟨row', hc, hhash', -⟩ := hnewest
    rcases versions_of_setVersion hc with ⟨-, rfl⟩ | ⟨hcv, hc⟩
    · exact absurd (hhash'.symm.trans hfresh.hash_eq) hhash
    · exact absurd (le_antisymm (h.greatest c row' hc) hle) hcv

include hfresh in
/-- A version above the greatest one. -/
theorem decides_above {g : V} (h : Current tags g row) (hlt : g < txn.version)
    (hnewest : Newest (tags.setVersion txn.version txn.row).versions row.hash current) :
    Decides tags txn current := by
  have hnone : ∀ row', tags.versions txn.version = some row' → row'.hash ≠ txn.hash := by
    intro row' hrow'
    exact absurd (h.greatest _ row' hrow') (not_le_of_gt hlt)
  have hgreatest : ∀ v row', tags.versions v = some row' → v ≤ txn.version :=
    fun v row' hv => le_trans (h.greatest v row' hv) (le_of_lt hlt)
  refine ⟨?_, fun _ => ok_setLatest hfresh hgreatest hnone⟩
  rintro ⟨c, hc, hle⟩
  cases hc
  obtain ⟨row', hc, hhash, -⟩ := hnewest
  rcases versions_of_setVersion hc with ⟨-, rfl⟩ | ⟨-, hc⟩
  · -- the new version has the manifest of `latest`
    have hok := ok_setLatest hfresh hgreatest hnone
    have hlatest : (tags.setVersion txn.version txn.row).setLatest txn.hash =
        tags.setVersion txn.version txn.row := by
      unfold Tags.setLatest
      rw [← hfresh.hash_eq, hhash, ← h.latest]
      rfl
    rwa [hlatest] at hok
  · exact absurd (h.greatest c row' hc) (not_le_of_gt (lt_of_lt_of_le hlt hle))

include hfresh in
/-- The decision of a transaction whose read sees the committed rows. -/
theorem decides_of_reads (hok : tags.Ok) (hsuits : tags.Suits txn.version txn.hash)
    (hreads : Reads tags (tags.setVersion txn.version txn.row).versions current) :
    Decides tags txn current := by
  rcases hok with ⟨hnone, hlatest⟩ | ⟨g, row, h⟩
  · have hcurrent : current = none := by
      simpa [Reads, hlatest] using hreads
    refine ⟨?_, fun _ => ok_setLatest hfresh ?_ ?_⟩
    · rintro ⟨c, hc, -⟩
      rw [hcurrent] at hc
      cases hc
    · intro v row hv
      rw [hnone v] at hv
      cases hv
    · intro row hv
      rw [hnone] at hv
      cases hv
  · have hnewest : Newest (tags.setVersion txn.version txn.row).versions row.hash current := by
      simpa [Reads, h.latest] using hreads
    rcases lt_trichotomy txn.version g with hlt | heq | hlt
    · exact decides_below hfresh h hlt hsuits hnewest
    · subst heq
      exact decides_greatest hfresh h hnewest
    · exact decides_above hfresh h hlt hnewest

end Decision

/-! ## Deletions -/

theorem versions_of_deleteVersion {tags : Tags V H} {w v : V} {row : TagRow H}
    (h : (tags.deleteVersion w).versions v = some row) : tags.versions v = some row := by
  rcases update_eq_some.mp h with ⟨-, h⟩ | ⟨-, h⟩
  · cases h
  · exact h

theorem Tags.Above.setVersion {v : V} (h : tags.Above v) (version : V) (row : TagRow H) :
    (tags.setVersion version row).Above v := by
  obtain ⟨g, row', hlt, hg⟩ := h
  by_cases hgv : g = version
  · exact ⟨g, row, hlt, hgv ▸ setVersion_versions_self ..⟩
  · exact ⟨g, row', hlt, (setVersion_versions_ne tags row hgv).trans hg⟩

theorem Tags.Above.deleteVersion {v w : V} (h : tags.Above v) (hw : tags.Above w) :
    (tags.deleteVersion w).Above v := by
  have hkept : ∀ g row, tags.versions g = some row → g ≠ w →
      (tags.deleteVersion w).versions g = some row := by
    intro g row hg hne
    exact (Function.update_of_ne hne ..).trans hg
  obtain ⟨g, row, hlt, hg⟩ := h
  by_cases hgw : g = w
  · -- the witness is deleted, and a greater one stays
    obtain ⟨g', row', hlt', hg'⟩ := hw
    exact ⟨g', row', lt_trans (hgw ▸ hlt) hlt', hkept g' row' hg' (ne_of_gt hlt')⟩
  · exact ⟨g, row, hlt, hkept g row hg hgw⟩

/-- A version that is not the greatest one can go. -/
theorem Tags.Ok.deleteVersion (h : tags.Ok) (hw : tags.Above w) : (tags.deleteVersion w).Ok := by
  obtain ⟨g', row', hlt, hg'⟩ := hw
  rcases h with ⟨hnone, -⟩ | ⟨g, row, h⟩
  · rw [hnone] at hg'
    cases hg'
  have hne : g ≠ w := by
    rintro rfl
    exact absurd (h.greatest g' row' hg') (not_le_of_gt hlt)
  refine .inr ⟨g, row, (Function.update_of_ne hne ..).trans h.tagged, ?_, h.latest, ?_⟩
  · intro v r hv
    exact h.greatest v r (versions_of_deleteVersion hv)
  · intro v r hv
    exact h.newest v r (versions_of_deleteVersion hv)

theorem deleteVersion_setVersion {v w : V} (hne : v ≠ w) (row : TagRow H) :
    (tags.deleteVersion w).setVersion v row = (tags.setVersion v row).deleteVersion w := by
  unfold Tags.deleteVersion Tags.setVersion
  rw [Function.update_comm hne]

theorem Decides.deleteVersion {txn : SetTxn V H} {current : Option V} (h : Decides tags txn current)
    (hw : tags.Above w) (hne : txn.version ≠ w) :
    Decides (tags.deleteVersion w) txn current := by
  have habove := hw.setVersion txn.version txn.row
  unfold Decides
  rw [deleteVersion_setVersion hne]
  exact ⟨fun hkeep => (h.1 hkeep).deleteVersion habove,
    fun hkeep => Tags.Ok.deleteVersion (h.2 hkeep) habove⟩

/-! ## Runs -/

/-- What is known about an open transaction. -/
def TxnOk (tags : Tags V H) (txn : SetTxn V H) : Prop :=
  match txn.phase with
  | .upserted => Fresh tags txn.version txn.hash txn.row ∧ tags.Suits txn.version txn.hash
  | .locking view => ∀ current, Reads tags view current → Decides tags txn current
  | .read current => Decides tags txn current
  | .wrote => ((tags.setVersion txn.version txn.row).setLatest txn.hash).Ok

theorem TxnOk.deleteVersion {txn : SetTxn V H} (h : TxnOk tags txn) (hw : tags.Above w)
    (hne : txn.version ≠ w) : TxnOk (tags.deleteVersion w) txn := by
  have hversion : (tags.deleteVersion w).versions txn.version = tags.versions txn.version :=
    Function.update_of_ne hne ..
  have hsub := fun v row => @versions_of_deleteVersion _ _ _ tags w v row
  unfold TxnOk at h ⊢
  cases hphase : txn.phase with
  | upserted =>
    simp only [hphase] at h
    obtain ⟨hfresh, hsuits⟩ := h
    refine ⟨⟨hfresh.hash_eq, ?_, ?_⟩, ?_⟩
    · intro row' hrow'
      exact hfresh.old row' (hversion ▸ hrow')
    · intro hmoved v row' hv
      refine hfresh.newer ?_ v row' (hsub v row' hv)
      intro row'' hrow''
      exact hmoved row'' (hversion.trans hrow'')
    · intro hlatest
      rcases hsuits hlatest with hall | ⟨row', hrow', hhash⟩
      · exact .inl fun v row' hv => hall v row' (hsub v row' hv)
      · exact .inr ⟨row', hversion.trans hrow', hhash⟩
  | locking view =>
    simp only [hphase] at h
    exact fun current hreads => (h current hreads).deleteVersion hw hne
  | read current =>
    simp only [hphase] at h
    exact h.deleteVersion hw hne
  | wrote =>
    simp only [hphase] at h
    simp only
    rw [deleteVersion_setVersion hne]
    exact Tags.Ok.deleteVersion h (hw.setVersion txn.version txn.row)

/-- Requests that do not get in each other's way: transactions do not overlap, no smaller
version gets the manifest of `latest`, and no version is moved while a request to delete it is
between its two reads. -/
def Orderly (s : TagStore V H) : Act V H → Prop
  | .begin _ version hash => (∀ i, s.txns i = none) ∧ s.tags.Suits version hash
  | .keep i | .commit i => ∀ txn ∈ s.txns i, ∀ d hash,
      s.deletes d ≠ some (.resolved txn.version hash)
  | _ => True

structure Inv (s : TagStore V H) : Prop where
  ok : s.tags.Ok
  times : ∀ v row, s.tags.versions v = some row → row.updatedAt < s.now
  rows : ∀ i, ∀ txn ∈ s.txns i, txn.row.updatedAt < s.now
  serial : ∀ i j, ∀ txn ∈ s.txns i, ∀ txn' ∈ s.txns j, i = j
  txns : ∀ i, ∀ txn ∈ s.txns i, TxnOk s.tags txn
  resolved : ∀ d v hash, s.deletes d = some (.resolved v hash) →
    (∃ row, s.tags.versions v = some row ∧ row.hash = hash) ∨ s.tags.Above v
  checked : ∀ d v, s.deletes d = some (.checked v) → s.tags.Above v

namespace TagStore

omit [LinearOrder V] in
theorem mem_setTxn {s : TagStore V H} {i j : Nat} {txn : Option (SetTxn V H)} {t : SetTxn V H} :
    t ∈ (s.setTxn i txn).txns j ↔ (j = i ∧ t ∈ txn) ∨ (j ≠ i ∧ t ∈ s.txns j) := update_eq_some

end TagStore

section Steps

open TagStore

variable {s s' : TagStore V H}

theorem init_inv (h : Init s) : Inv s := by
  obtain ⟨hversions, hlatest, htxns, hdeletes⟩ := h
  refine ⟨.inl ⟨hversions, hlatest⟩, ?_, ?_, ?_, ?_, ?_, ?_⟩
  all_goals simp [hversions, htxns, hdeletes]

variable {i d : Nat} {txn : SetTxn V H}

/-- A transaction is the only open one. -/
theorem Inv.openTxn (h : Inv s) (hidle : ∀ j, j ≠ i → s.txns j = none) {now : Nat}
    (hnow : s.now ≤ now) (hrow : txn.row.updatedAt < now) (htxn : TxnOk s.tags txn) :
    Inv { s.setTxn i (some txn) with now := now } := by
  have hopen : ∀ j, ∀ t ∈ (s.setTxn i (some txn)).txns j, j = i ∧ t = txn := by
    intro j t ht
    rcases mem_setTxn.mp ht with ⟨hj, ht⟩ | ⟨hj, ht⟩
    · exact ⟨hj, (Option.some.inj ht).symm⟩
    · rw [hidle j hj] at ht
      cases ht
  refine { h with times := ?_, rows := ?_, serial := ?_, txns := ?_ }
  · exact fun v row hv => (h.times v row hv).trans_le hnow
  · intro j t ht
    rw [(hopen j t ht).2]
    exact hrow
  · intro j k t ht t' ht'
    exact (hopen j t ht).1.trans (hopen k t' ht').1.symm
  · intro j t ht
    rw [(hopen j t ht).2]
    exact htxn

/-- A step of a transaction that does not commit. -/
theorem Inv.setTxn (h : Inv s) {txn txn' : SetTxn V H} (htxn : s.txns i = some txn)
    (hrow : txn'.row = txn.row) (hok : TxnOk s.tags txn') : Inv (s.setTxn i (some txn')) := by
  refine h.openTxn ?_ le_rfl (hrow ▸ h.rows i txn htxn) hok
  intro j hj
  exact Option.eq_none_iff_forall_not_mem.mpr fun t ht => hj (h.serial j i t ht txn htxn)

/-- The only open transaction ends. -/
theorem Inv.closeTxn (h : Inv s) (htxn : s.txns i = some txn) :
    ∀ j, ∀ t, t ∉ (s.setTxn i none).txns j := by
  intro j t ht
  rcases mem_setTxn.mp ht with ⟨-, ht⟩ | ⟨hj, ht⟩
  · cases ht
  · exact hj (h.serial j i t ht txn htxn)

/-- A transaction commits. -/
theorem Inv.commitTxn (h : Inv s) (htxn : s.txns i = some txn)
    (hdeletes : ∀ d hash, s.deletes d ≠ some (.resolved txn.version hash)) {tags : Tags V H}
    (hversions : tags.versions = (s.tags.setVersion txn.version txn.row).versions) (hok : tags.Ok) :
    Inv { s.setTxn i none with tags := tags } := by
  have hclosed := h.closeTxn htxn
  have habove : ∀ v, s.tags.Above v → tags.Above v := by
    intro v hv
    obtain ⟨g, row, hlt, hg⟩ := hv.setVersion txn.version txn.row
    exact ⟨g, row, hlt, hversions ▸ hg⟩
  refine ⟨hok, ?_, ?_, ?_, ?_, ?_, ?_⟩
  · intro v row hv
    change tags.versions v = some row at hv
    rw [hversions] at hv
    rcases versions_of_setVersion hv with ⟨-, rfl⟩ | ⟨-, hv⟩
    · exact h.rows i txn htxn
    · exact h.times v row hv
  · exact fun j t ht => absurd ht (hclosed j t)
  · exact fun j k t ht => absurd ht (hclosed j t)
  · exact fun j t ht => absurd ht (hclosed j t)
  · intro d v hash hd
    have hne : v ≠ txn.version := by
      rintro rfl
      exact hdeletes d hash hd
    rcases h.resolved d v hash hd with ⟨row, hrow, hhash⟩ | hv
    · refine .inl ⟨row, ?_, hhash⟩
      change tags.versions v = some row
      rw [hversions, setVersion_versions_ne s.tags txn.row hne]
      exact hrow
    · exact .inr (habove v hv)
  · exact fun d v hd => habove v (h.checked d v hd)

/-- A step of a request to delete a version. -/
theorem Inv.setDelete (h : Inv s) {request : Option (DeleteRequest V H)}
    (hresolved : ∀ v hash, request = some (.resolved v hash) →
      ∃ row, s.tags.versions v = some row ∧ row.hash = hash)
    (hchecked : ∀ v, request = some (.checked v) → s.tags.Above v) :
    Inv (s.setDelete d request) := by
  refine { h with resolved := ?_, checked := ?_ }
  · intro e v hash he
    rcases update_eq_some.mp he with ⟨-, he⟩ | ⟨-, he⟩
    · exact .inl (hresolved v hash he)
    · exact h.resolved e v hash he
  · intro e v he
    rcases update_eq_some.mp he with ⟨-, he⟩ | ⟨-, he⟩
    · exact hchecked v he
    · exact h.checked e v he

theorem begin_inv [DecidableEq H] (h : Inv s) {version : V} {hash : H}
    (horderly : Orderly s (.begin i version hash)) (hstep : Begin i version hash s s') :
    Inv s' := by
  obtain ⟨-, -, -, rfl⟩ := hstep
  obtain ⟨hidle, hsuits⟩ := horderly
  have hfresh := @fresh_upsertVersion _ _ _ s.tags version hash s.now h.times
  have hrow : (upsertVersion s.tags version hash s.now).updatedAt < s.now + 1 := by
    unfold upsertVersion
    split
    · rename_i row hrow
      split
      · exact Nat.lt_succ_of_lt (h.times version row hrow)
      · exact Nat.lt_succ_self _
    · exact Nat.lt_succ_self _
  exact h.openTxn (fun j _ => hidle j) (Nat.le_succ _) hrow ⟨hfresh, hsuits⟩

theorem readLatest_inv (h : Inv s) (hstep : ReadLatest i s s') : Inv s' := by
  obtain ⟨txn, htxn, hphase, rfl⟩ := hstep
  have hok := h.txns i txn htxn
  unfold TxnOk at hok
  rw [hphase] at hok
  obtain ⟨hfresh, hsuits⟩ := hok
  refine h.setTxn htxn rfl ?_
  cases hlatest : s.tags.latest with
  | none =>
    refine decides_of_reads hfresh h.ok hsuits ?_
    simp [Reads, hlatest]
  | some hash => exact fun current hreads => decides_of_reads hfresh h.ok hsuits hreads

theorem lockLatest_inv (h : Inv s) {current : Option V} (hstep : LockLatest i current s s') :
    Inv s' := by
  obtain ⟨txn, view, hash, htxn, hphase, -, hlatest, hnewest, rfl⟩ := hstep
  have hok := h.txns i txn htxn
  unfold TxnOk at hok
  rw [hphase] at hok
  refine h.setTxn htxn rfl (hok current ?_)
  simpa [Reads, hlatest] using hnewest

theorem keep_inv (h : Inv s) (horderly : Orderly s (.keep i)) (hstep : Keep i s s') : Inv s' := by
  obtain ⟨txn, current, htxn, hphase, hle, rfl⟩ := hstep
  have hok := h.txns i txn htxn
  unfold TxnOk at hok
  rw [hphase] at hok
  exact h.commitTxn htxn (horderly txn htxn) rfl (hok.1 ⟨current, rfl, hle⟩)

theorem writeLatest_inv (h : Inv s) (hstep : WriteLatest i s s') : Inv s' := by
  obtain ⟨txn, current, htxn, hphase, hlt, -, rfl⟩ := hstep
  have hok := h.txns i txn htxn
  unfold TxnOk at hok
  rw [hphase] at hok
  refine h.setTxn htxn rfl (hok.2 ?_)
  rintro ⟨c, hc, hle⟩
  exact absurd hle (not_le_of_gt (hlt c hc))

theorem commit_inv (h : Inv s) (horderly : Orderly s (.commit i)) (hstep : Commit i s s') :
    Inv s' := by
  obtain ⟨txn, htxn, hphase, rfl⟩ := hstep
  have hok := h.txns i txn htxn
  unfold TxnOk at hok
  rw [hphase] at hok
  exact h.commitTxn htxn (horderly txn htxn) rfl hok

theorem rollback_inv (h : Inv s) (hstep : Rollback i s s') : Inv s' := by
  cases hstep
  have hsub : ∀ j t, t ∈ (s.setTxn i none).txns j → t ∈ s.txns j := by
    intro j t ht
    rcases mem_setTxn.mp ht with ⟨-, ht⟩ | ⟨-, ht⟩
    · cases ht
    · exact ht
  exact ⟨h.ok, h.times, fun j t ht => h.rows j t (hsub j t ht),
    fun j k t ht t' ht' => h.serial j k t (hsub j t ht) t' (hsub k t' ht'),
    fun j t ht => h.txns j t (hsub j t ht), h.resolved, h.checked⟩

theorem resolveVersion_inv (h : Inv s) {version : V} (hstep : ResolveVersion d version s s') :
    Inv s' := by
  obtain ⟨-, rfl⟩ := hstep
  refine h.setDelete ?_ ?_
  · intro v hash hrequest
    rcases Option.map_eq_some_iff.mp hrequest with ⟨row, hrow, heq⟩
    cases heq
    exact ⟨row, hrow, rfl⟩
  · intro v hrequest
    rcases Option.map_eq_some_iff.mp hrequest with ⟨row, -, heq⟩
    cases heq

theorem resolveLatest_inv [DecidableEq H] (h : Inv s) (hstep : ResolveLatest d s s') : Inv s' := by
  obtain ⟨version, hash, hd, rfl⟩ := hstep
  refine h.setDelete ?_ ?_
  · intro v hash' hrequest
    split at hrequest
    · cases hrequest
    · cases hrequest
  intro v hrequest
  split at hrequest
  · cases hrequest
  rename_i hlatest
  cases hrequest
  rcases h.resolved d version hash hd with ⟨row, hrow, hhash⟩ | habove
  · -- the version is not the one of `latest`, so that it is not the greatest one
    rcases h.ok with ⟨hnone, -⟩ | ⟨g, row', hg⟩
    · rw [hnone] at hrow
      cases hrow
    · refine ⟨g, row', lt_of_le_of_ne (hg.greatest version row hrow) ?_, hg.tagged⟩
      rintro rfl
      have heq : row' = row := Option.some.inj (hg.tagged.symm.trans hrow)
      exact hlatest (hg.latest.trans (by rw [heq, hhash]))
  · exact habove

theorem deleteVersion_inv (h : Inv s) (hstep : DeleteVersion d s s') : Inv s' := by
  obtain ⟨version, hd, hfree, rfl⟩ := hstep
  have habove := h.checked d version hd
  have hsub : ∀ e request, (s.setDelete d none).deletes e = some request →
      s.deletes e = some request := by
    intro e request he
    rcases update_eq_some.mp he with ⟨-, he⟩ | ⟨-, he⟩
    · cases he
    · exact he
  refine ⟨h.ok.deleteVersion habove, ?_, h.rows, h.serial, ?_, ?_, ?_⟩
  · exact fun v row hv => h.times v row (versions_of_deleteVersion hv)
  · intro i txn htxn
    rcases hfree with hnone | hfree
    · -- nothing is deleted
      have hsame : s.tags.deleteVersion version = s.tags := by
        unfold Tags.deleteVersion
        rw [← hnone, Function.update_eq_self]
      show TxnOk (s.tags.deleteVersion version) txn
      rw [hsame]
      exact h.txns i txn htxn
    · exact (h.txns i txn htxn).deleteVersion habove (hfree i txn htxn)
  · intro e v hash he
    rcases h.resolved e v hash (hsub e _ he) with ⟨row, hrow, hhash⟩ | hv
    · by_cases hvv : v = version
      · subst hvv
        exact .inr (habove.deleteVersion habove)
      · exact .inl ⟨row, (Function.update_of_ne hvv ..).trans hrow, hhash⟩
    · exact .inr (hv.deleteVersion habove)
  · intro e v he
    exact (h.checked e v (hsub e _ he)).deleteVersion habove

theorem step_inv [DecidableEq H] (h : Inv s) (hstep : Next Orderly s s') : Inv s' := by
  obtain ⟨act, horderly, hact⟩ := hstep
  cases act with
  | begin i version hash => exact begin_inv h horderly hact
  | readLatest i => exact readLatest_inv h hact
  | lockLatest i current => exact lockLatest_inv h hact
  | keep i => exact keep_inv h horderly hact
  | writeLatest i => exact writeLatest_inv h hact
  | commit i => exact commit_inv h horderly hact
  | rollback i => exact rollback_inv h hact
  | linkManifest hash =>
    cases hact
    exact { h with }
  | resolveVersion d version => exact resolveVersion_inv h hact
  | resolveLatest d => exact resolveLatest_inv h hact
  | deleteVersion d => exact deleteVersion_inv h hact

/-- In an orderly run `latest` points to the manifest of the greatest version as soon as
there is a version. -/
theorem latest_is_greatest [DecidableEq H] (s : TagStore V H) (hs : Reachable Init (Next Orderly) s)
    (hversion : ∃ v row, s.tags.versions v = some row) : LatestIsGreatest s.tags := by
  have hinv : Inv s := init_invariant _ _ Inv (fun _ => init_inv) (fun _ _ h hi => step_inv hi h) s hs
  obtain ⟨v, row, hv⟩ := hversion
  rcases hinv.ok with ⟨hnone, -⟩ | ⟨g, row', hg⟩
  · rw [hnone] at hv
    cases hv
  · exact ⟨g, row', hg.tagged, hg.greatest, hg.latest⟩

end Steps

end Model

/-! ## Runs with two manifests -/

section Runs

open TagStore

/-- Every step but the beginning of a transaction is allowed while nothing is deleted. -/
def Permits (allowed : TagStore Nat Nat → Act Nat Nat → Prop) : Prop :=
  ∀ s act, (∀ d, s.deletes d = none) → (∀ i v h, act ≠ .begin i v h) → allowed s act

/-- Manifests 1 and 2 are linked, and some versions are tagged. -/
def tagged (versions : Nat → Option (TagRow Nat)) (latest : Option Nat) (now : Nat) :
    TagStore Nat Nat :=
  ⟨⟨versions, latest⟩, some 2, Function.update (Function.update (fun _ => false) 1 true) 2 true, now,
    fun _ => none, fun _ => none⟩

variable {allowed : TagStore Nat Nat → Act Nat Nat → Prop} (hallowed : Permits allowed)

include hallowed in
theorem reachable_untagged : Reachable Init (Next allowed) (tagged (fun _ => none) none 0) := by
  have hinit : Reachable Init (Next allowed)
      (⟨⟨fun _ => none, none⟩, none, fun _ => false, 0, fun _ => none, fun _ => none⟩ :
        TagStore Nat Nat) := .init ⟨fun _ => rfl, rfl, fun _ => rfl, fun _ => rfl⟩
  have hfirst := Reachable.step hinit
    ⟨.linkManifest 1, hallowed _ _ (fun _ => rfl) nofun, rfl⟩
  exact .step hfirst ⟨.linkManifest 2, hallowed _ _ (fun _ => rfl) nofun, rfl⟩

/-- Only transaction 0 is open. -/
theorem latestFree_zero {s : TagStore Nat Nat} (h : ∀ j, j ≠ 0 → s.txns j = none) :
    s.LatestFree 0 := by
  intro j hj t ht
  rw [h j hj] at ht
  cases ht

include hallowed in
/-- The first version is set. -/
theorem reachable_first (version : Nat)
    (hbegin : allowed (tagged (fun _ => none) none 0) (.begin 0 version 1)) :
    Reachable Init (Next allowed)
      (tagged (Function.update (fun _ => none) version (some ⟨1, 0⟩)) (some 1) 1) := by
  have hstep {s : TagStore Nat Nat} {act : Act Nat Nat} (h : s.deletes = fun _ => none) :=
    hallowed s act fun d => congrFun h d
  have hbegun := Reachable.step (reachable_untagged hallowed)
    ⟨.begin 0 version 1, hbegin, rfl, nofun, rfl, rfl⟩
  have hread := Reachable.step hbegun ⟨.readLatest 0, hstep rfl nofun, _, rfl, rfl, rfl⟩
  have hwrote := Reachable.step hread ⟨.writeLatest 0, hstep rfl nofun, _, none, rfl, rfl, nofun,
    latestFree_zero fun j hj => by simp [setTxn, tagged, hj], rfl⟩
  have hdone := Reachable.step hwrote ⟨.commit 0, hstep rfl nofun, _, rfl, rfl, rfl⟩
  simpa [setTxn, tagged, Tags.setVersion, Tags.setLatest, upsertVersion] using hdone

section Set

variable {rows : Nat → Option (TagRow Nat)} {latest now : Nat} {row : TagRow Nat}
  (version hash : Nat) (h : Reachable Init (Next allowed) (tagged rows (some latest) now))
  (hbegin : allowed (tagged rows (some latest) now) (.begin 0 version hash))
  (hlink : hash = 1 ∨ hash = 2) (hrow : upsertVersion ⟨rows, some latest⟩ version hash now = row)

include hallowed h hbegin hlink hrow in
/-- A version is set on its own, up to the read of `latest`. -/
theorem reachable_read {current : Option Nat}
    (hnewest : Newest (Function.update rows version (some row)) latest current) :
    Reachable Init (Next allowed) ((tagged rows (some latest) (now + 1)).setTxn 0
      (some ⟨version, hash, row, .read current, true⟩)) := by
  have hstep {s : TagStore Nat Nat} {act : Act Nat Nat} (h : s.deletes = fun _ => none) :=
    hallowed s act fun d => congrFun h d
  subst hrow
  have hbegun := Reachable.step h ⟨.begin 0 version hash, hbegin, rfl, nofun,
    by rcases hlink with rfl | rfl <;> rfl, rfl⟩
  have hread := Reachable.step hbegun ⟨.readLatest 0, hstep rfl nofun, _, rfl, rfl, rfl⟩
  have hlocked := Reachable.step hread ⟨.lockLatest 0 current, hstep rfl nofun, _, _, latest, rfl,
    rfl, latestFree_zero fun j hj => by simp [setTxn, tagged, hj], rfl, hnewest, rfl⟩
  simpa [setTxn, tagged] using hlocked

include hallowed h hbegin hlink hrow in
/-- A version is set on its own, and `latest` is kept. -/
theorem reachable_kept {current : Nat} (hle : version ≤ current)
    (hnewest : Newest (Function.update rows version (some row)) latest (some current)) :
    Reachable Init (Next allowed)
      (tagged (Function.update rows version (some row)) (some latest) (now + 1)) := by
  have hread := reachable_read hallowed version hash h hbegin hlink hrow hnewest
  have hkept := Reachable.step hread ⟨.keep 0, hallowed _ _ (fun _ => rfl) nofun, _, current, rfl,
    rfl, hle, rfl⟩
  simpa [setTxn, tagged, Tags.setVersion] using hkept

include hallowed h hbegin hlink hrow in
/-- A version is set on its own and becomes `latest`. -/
theorem reachable_moved {current : Option Nat} (hlt : ∀ c ∈ current, c < version)
    (hnewest : Newest (Function.update rows version (some row)) latest current) :
    Reachable Init (Next allowed)
      (tagged (Function.update rows version (some row)) (some hash) (now + 1)) := by
  have hread := reachable_read hallowed version hash h hbegin hlink hrow hnewest
  have hwrote := Reachable.step hread ⟨.writeLatest 0, hallowed _ _ (fun _ => rfl) nofun, _,
    current, rfl, rfl, hlt, latestFree_zero fun j hj => by simp [setTxn, tagged, hj], rfl⟩
  have hdone := Reachable.step hwrote ⟨.commit 0, hallowed _ _ (fun _ => rfl) nofun, _, rfl, rfl,
    rfl⟩
  simpa [setTxn, tagged, Tags.setVersion, Tags.setLatest] using hdone

end Set

theorem permits_orderly : Permits Orderly := by
  intro s act hdeletes hact
  cases act with
  | begin i v h => exact absurd rfl (hact i v h)
  | keep i => exact fun txn _ d hash hd => absurd ((hdeletes d).symm.trans hd) nofun
  | commit i => exact fun txn _ d hash hd => absurd ((hdeletes d).symm.trans hd) nofun
  | _ => exact trivial

/-- A version with another manifest than `latest` is deleted. -/
theorem reachable_deleted {rows : Nat → Option (TagRow Nat)} {latest now : Nat}
    {row : TagRow Nat} (version : Nat)
    (h : Reachable Init (Next Orderly) (tagged rows (some latest) now))
    (hrow : rows version = some row) (hne : latest ≠ row.hash) :
    Reachable Init (Next Orderly)
      (tagged (Function.update rows version none) (some latest) now) := by
  have hresolved := Reachable.step h ⟨.resolveVersion 0 version, trivial, rfl, rfl⟩
  have hchecked := Reachable.step hresolved ⟨.resolveLatest 0, trivial, version, row.hash,
    by simp [setDelete, tagged, hrow], rfl⟩
  have hdeleted := Reachable.step hchecked ⟨.deleteVersion 0, trivial, version,
    by simp [setDelete, tagged, hne], .inr nofun, rfl⟩
  simpa [setDelete, tagged, Tags.deleteVersion] using hdeleted

/-- Version 3 is set to manifest 1. Version 1 is set to manifest 2 and deleted. Version 3 moves
to manifest 2, and `latest` with it, and then version 2 is set to manifest 1. -/
theorem latest_is_greatest_moved : LatestIsGreatest (tagged (Function.update (Function.update
    (Function.update (Function.update (Function.update (fun _ => none) 3 (some ⟨1, 0⟩)) 1
      (some ⟨2, 1⟩)) 1 none) 3 (some ⟨2, 2⟩)) 2 (some ⟨1, 3⟩)) (some 2) 4).tags := by
  have hfirst := reachable_first permits_orderly 3 ⟨fun _ => rfl, nofun⟩
  have hset : Reachable Init (Next Orderly) (tagged (Function.update (Function.update
      (fun _ => none) 3 (some ⟨1, 0⟩)) 1 (some ⟨2, 1⟩)) (some 1) 2) := by
    refine reachable_kept permits_orderly 1 2 hfirst ⟨fun _ => rfl, nofun⟩ (.inr rfl) rfl
      (show 1 ≤ 3 by decide) ⟨⟨1, 0⟩, rfl, rfl, fun v row hv hhash => ?_⟩
    simp only [update_eq_some, Option.some.injEq] at hv
    grind
  have hdeleted := reachable_deleted 1 hset rfl (by decide)
  have hmoved : Reachable Init (Next Orderly) (tagged (Function.update (Function.update
      (Function.update (Function.update (fun _ => none) 3 (some ⟨1, 0⟩)) 1 (some ⟨2, 1⟩)) 1 none) 3
        (some ⟨2, 2⟩)) (some 2) 3) := by
    -- no row has the manifest of `latest` any more
    refine @reachable_moved _ permits_orderly _ _ _ _ 3 2 hdeleted ⟨fun _ => rfl, nofun⟩ (.inr rfl)
      rfl none nofun fun v row hv => ?_
    simp only [update_eq_some, Option.some.injEq] at hv
    grind
  refine latest_is_greatest _ (reachable_kept permits_orderly 2 1 hmoved ⟨fun _ => rfl, nofun⟩
    (.inl rfl) rfl (show 2 ≤ 3 by decide) ⟨⟨2, 2⟩, rfl, rfl, fun v row hv hhash => ?_⟩)
    ⟨2, ⟨1, 3⟩, rfl⟩
  simp only [update_eq_some, Option.some.injEq] at hv
  grind

/-- The rows after versions 3 and 1 were set to manifest 1. -/
def sharedRows : Nat → Option (TagRow Nat) :=
  Function.update (Function.update (fun _ => none) 3 (some ⟨1, 0⟩)) 1 (some ⟨1, 1⟩)

theorem sharedRows_cases {v : Nat} {row : TagRow Nat} (h : sharedRows v = some row) :
    (v = 1 ∧ row = ⟨1, 1⟩) ∨ (v = 3 ∧ row = ⟨1, 0⟩) := by
  simp only [sharedRows, update_eq_some, Option.some.injEq] at h
  grind

/-- Versions 3 and 1 have manifest 1. The row of version 1 is newer, so that `latest` is taken
to stand for it, and version 2 gets `latest`. -/
theorem reachable_shared : Reachable Init (Next fun _ _ => True)
    (tagged (Function.update sharedRows 2 (some ⟨2, 2⟩)) (some 2) 3) := by
  have hpermits : Permits fun _ _ => True := fun _ _ _ _ => trivial
  have hfirst := reachable_first hpermits 3 trivial
  have hshared : Newest sharedRows 1 (some 1) := by
    refine ⟨⟨1, 1⟩, rfl, rfl, ?_⟩
    intro v row hv _
    rcases sharedRows_cases hv with ⟨-, rfl⟩ | ⟨-, rfl⟩ <;> decide
  have hsecond := reachable_kept hpermits 1 1 hfirst trivial (.inl rfl) rfl le_rfl hshared
  have hnewest : Newest (Function.update sharedRows 2 (some ⟨2, 2⟩)) 1 (some 1) := by
    refine ⟨⟨1, 1⟩, rfl, rfl, ?_⟩
    intro v row hv hhash
    rcases update_eq_some.mp hv with ⟨-, ⟨⟩⟩ | ⟨-, hv⟩
    · cases hhash
    · rcases sharedRows_cases hv with ⟨-, rfl⟩ | ⟨-, rfl⟩ <;> decide
  exact reachable_moved hpermits 2 2 hsecond trivial (.inr rfl) rfl (by simp) hnewest

/-- Versions 2 and 1 are the first ones and set at the same time. Both transactions find no
`latest` tag to lock, and the one that commits last wins. -/
theorem reachable_concurrent : ∃ s : TagStore Nat Nat, Reachable Init (Next fun _ _ => True) s ∧
    (∀ i, s.txns i = none) ∧ s.tags = ⟨Function.update (Function.update (fun _ => none) 2
      (some ⟨1, 0⟩)) 1 (some ⟨2, 1⟩), some 2⟩ := by
  have huntagged := @reachable_untagged (fun _ _ => True) fun _ _ _ _ => trivial
  have hfree : (tagged (fun _ => none) none 0).VersionFree 0 2 := by
    intro j _ t ht
    cases ht
  have hbegun := Reachable.step huntagged ⟨.begin 0 2 1, trivial, rfl, hfree, rfl, rfl⟩
  have hbegun' := Reachable.step hbegun ⟨.begin 1 1 2, trivial, rfl, ?_, rfl, rfl⟩
  · have hread := Reachable.step hbegun' ⟨.readLatest 0, trivial, _, rfl, rfl, rfl⟩
    have hread' := Reachable.step hread ⟨.readLatest 1, trivial, _, rfl, rfl, rfl⟩
    have hwrote := Reachable.step hread' ⟨.writeLatest 0, trivial, _, none, rfl, rfl, nofun, ?_, rfl⟩
    · have hcommitted := Reachable.step hwrote ⟨.commit 0, trivial, _, rfl, rfl, rfl⟩
      have hwrote' := Reachable.step hcommitted
        ⟨.writeLatest 1, trivial, _, none, rfl, rfl, nofun, ?_, rfl⟩
      · refine ⟨_, Reachable.step hwrote' ⟨.commit 1, trivial, _, rfl, rfl, rfl⟩, ?_, rfl⟩
        intro i
        by_cases hi1 : i = 1
        · subst hi1
          rfl
        · by_cases hi0 : i = 0
          · subst hi0
            rfl
          · simp [setTxn, tagged, hi0, hi1]
      · intro j hj t ht
        by_cases hj0 : j = 0
        · subst hj0
          cases ht
        · simp [setTxn, tagged, hj, hj0] at ht
    · intro j hj t ht
      by_cases hj1 : j = 1
      · subst hj1
        cases ht
        rfl
      · simp [setTxn, tagged, hj, hj1] at ht
  · intro j hj t ht
    by_cases hj0 : j = 0
    · subst hj0
      cases ht
      decide
    · simp [setTxn, tagged, hj0] at ht

/-- Two runs after which no transaction is open and `latest` is not at the greatest version. -/
theorem latest_not_greatest :
    (∃ s : TagStore Nat Nat, Reachable Init (Next fun _ _ => True) s ∧ (∀ i, s.txns i = none) ∧
      s.tags.versions 3 = some ⟨1, 0⟩ ∧ s.tags.versions 1 = some ⟨1, 1⟩ ∧
      s.tags.versions 2 = some ⟨2, 2⟩ ∧ s.tags.latest = some 2 ∧ ¬ LatestIsGreatest s.tags) ∧
    (∃ s : TagStore Nat Nat, Reachable Init (Next fun _ _ => True) s ∧ (∀ i, s.txns i = none) ∧
      s.tags.versions 2 = some ⟨1, 0⟩ ∧ s.tags.versions 1 = some ⟨2, 1⟩ ∧
      s.tags.latest = some 2 ∧ ¬ LatestIsGreatest s.tags) := by
  constructor
  · refine ⟨_, reachable_shared, fun _ => rfl, rfl, rfl, rfl, rfl, ?_⟩
    rintro ⟨g, row, hg, hgreatest, hlatest⟩
    have hle : 3 ≤ g := hgreatest 3 ⟨1, 0⟩ rfl
    rcases update_eq_some.mp hg with ⟨rfl, -⟩ | ⟨-, hg⟩
    · omega
    · rcases sharedRows_cases hg with ⟨rfl, -⟩ | ⟨-, rfl⟩
      · omega
      · cases hlatest
  · obtain ⟨s, hs, hidle, htags⟩ := reachable_concurrent
    refine ⟨s, hs, hidle, ?_⟩
    rw [htags]
    refine ⟨rfl, rfl, rfl, ?_⟩
    rintro ⟨g, row, hg, hgreatest, hlatest⟩
    have hle : 2 ≤ g := hgreatest 2 ⟨1, 0⟩ rfl
    rcases update_eq_some.mp hg with ⟨rfl, -⟩ | ⟨-, hg⟩
    · omega
    · rcases update_eq_some.mp hg with ⟨-, ⟨⟩⟩ | ⟨-, hg⟩
      · cases hlatest
      · cases hg

end Runs

end CampNode.Datasets

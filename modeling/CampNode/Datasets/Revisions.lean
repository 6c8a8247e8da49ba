import CampNode.Core.Transition
import Mathlib.Data.List.Nodup
import Mathlib.Data.List.Pairwise
import Mathlib.Logic.Function.Basic

/-!
# CampNode.Datasets.Revisions — restoring a table from the object store

The data of a table lies in revisions, `<store_url>/<dataset_name>/<table>/<uuid>/`. The
`physical_tables` rows say for which manifest a revision is registered and which one is active.
`restore_latest_revision` looks for revisions in the object store, registers the latest one and
makes it the active one.

The path of a revision has neither the namespace nor the manifest. The latest revision of a
dataset name and a table can be one that was written for another manifest, and the upsert of
`register` then moves its row.

* `restore_takes_over` — the other manifest loses its active table, and the restored manifest
  gets data that was not written for it.
* `restore_own_iff` — otherwise, that is exactly if the registration is not carried out, or the
  revision is not the active one of another manifest and, if it is activated, was written for the
  restored one, no other manifest notices, and the data is the own one.

The registration of the files of a revision comes after all of this and does not touch the
table.
-/

namespace CampNode.Datasets

open List

/-- The URL of a revision. Names have no slashes, so that its parts determine it. The
UUID of the revision is a number; as strings of equal length they are ordered the same way. -/
structure PhyTableUrl where
  store : String
  dataset : String
  table : String
  revision : Nat
deriving DecidableEq, Repr

/-! ## The table -/

/-- A row of `physical_tables`. -/
structure TableRow (H : Type) where
  id : Nat
  manifestHash : H
  tableName : String
  datasetNamespace : String
  datasetName : String
  url : PhyTableUrl
  active : Bool
deriving DecidableEq, Repr

section Tables

variable {H : Type}

/-- Two rows that the index `unique_active_per_manifest_table` excludes. -/
def TableRow.Competes (a b : TableRow H) : Prop :=
  a.active = true ∧ b.active = true ∧ a.manifestHash = b.manifestHash ∧ a.tableName = b.tableName

/-- The constraints of the table. -/
structure Constraints (rows : List (TableRow H)) : Prop where
  ids : (rows.map (·.id)).Nodup
  urls : (rows.map (·.url)).Nodup
  active : rows.Pairwise fun a b => ¬ a.Competes b

structure PhysicalTables (H : Type) where
  rows : List (TableRow H)
  nextId : Nat
  constraints : Constraints rows
  fresh : ∀ r ∈ rows, r.id < nextId

variable [DecidableEq H]

instance (a b : TableRow H) : Decidable (a.Competes b) :=
  inferInstanceAs (Decidable (_ ∧ _ ∧ _ ∧ _))

instance (rows : List (TableRow H)) : Decidable (Constraints rows) :=
  decidable_of_iff ((rows.map (·.id)).Nodup ∧ (rows.map (·.url)).Nodup ∧
      rows.Pairwise fun a b => ¬ a.Competes b)
    ⟨fun h => ⟨h.1, h.2.1, h.2.2⟩, fun h => ⟨h.ids, h.urls, h.active⟩⟩

namespace TableRow

variable (url : PhyTableUrl) (locationId : Nat) (manifestHash : H) (tableName : String)
  (r : TableRow H)

/-- `SET manifest_hash` where the URL is the given one. -/
def setManifest : TableRow H :=
  if r.url = url then { r with manifestHash := manifestHash } else r

/-- `SET active = false WHERE manifest_hash = $1 AND table_name = $2 AND active`. -/
def deactivate : TableRow H :=
  if r.manifestHash = manifestHash ∧ r.tableName = tableName ∧ r.active = true then
    { r with active := false }
  else r

/-- `SET active = true WHERE id = $1 AND manifest_hash = $2 AND table_name = $3`. -/
def activate : TableRow H :=
  if r.id = locationId ∧ r.manifestHash = manifestHash ∧ r.tableName = tableName then
    { r with active := true }
  else r

end TableRow

namespace PhysicalTables

def empty : PhysicalTables H := ⟨[], 0, ⟨.nil, .nil, .nil⟩, nofun⟩

/-- The result of a statement. A statement that violates a constraint fails. -/
def accept (rows : List (TableRow H)) (nextId : Nat) : Option (PhysicalTables H) :=
  if h : Constraints rows ∧ ∀ r ∈ rows, r.id < nextId then some ⟨rows, nextId, h.1, h.2⟩
  else none

variable (db : PhysicalTables H) (locationId : Nat) (manifestHash : H)
  (tableName datasetNamespace datasetName : String)

/-- `INSERT ... ON CONFLICT (url) DO UPDATE SET manifest_hash = EXCLUDED.manifest_hash
RETURNING id`. -/
def insert (manifestHash : H) (tableName : String) (url : PhyTableUrl) (active : Bool) :
    Option (PhysicalTables H × Nat) :=
  match db.rows.find? fun r => decide (r.url = url) with
  | some row =>
      (accept (db.rows.map (.setManifest url manifestHash)) db.nextId).map (·, row.id)
  | none =>
      (accept (db.rows ++
          [⟨db.nextId, manifestHash, tableName, datasetNamespace, datasetName, url, active⟩])
        (db.nextId + 1)).map (·, db.nextId)

def markInactiveByTableId : Option (PhysicalTables H) :=
  accept (db.rows.map (.deactivate manifestHash tableName)) db.nextId

def markActiveById : Option (PhysicalTables H) :=
  accept (db.rows.map (.activate locationId manifestHash tableName)) db.nextId

def getActivePhysicalTable : Option (TableRow H) :=
  db.rows.find? fun r =>
    decide (r.manifestHash = manifestHash ∧ r.tableName = tableName ∧ r.active = true)

/-! ## Registering and restoring a revision -/

/-- `register_new_table_revision`, one transaction. -/
def registerNewTableRevision (manifestHash : H) (tableName : String) (url : PhyTableUrl) :
    Option (PhysicalTables H × Nat) := do
  let (db, id) ← db.insert datasetNamespace datasetName manifestHash tableName url false
  let db ← db.markInactiveByTableId manifestHash tableName
  let db ← db.markActiveById id manifestHash tableName
  some (db, id)

end PhysicalTables

/-- The steps of a restore, by the errors that they end with. -/
inductive RestoreError where
  | listRevisions
  | registerPhysicalTable
  | transactionBegin
  | markInactive
  | markActive
  | transactionCommit
deriving DecidableEq, Repr

/-- `PhysicalTable::restore`. A step fails if its statement does, or if the database cannot be
reached. The registration is not part of the transaction. -/
def restore (fails : RestoreError → Bool) (db : PhysicalTables H)
    (datasetNamespace datasetName : String) (manifestHash : H) (tableName : String)
    (url : PhyTableUrl) : PhysicalTables H × Except RestoreError Nat :=
  match db.insert datasetNamespace datasetName manifestHash tableName url false with
  | none => (db, .error .registerPhysicalTable)
  | some (registered, id) =>
      if fails .registerPhysicalTable then (db, .error .registerPhysicalTable)
      else if fails .transactionBegin then (registered, .error .transactionBegin)
      else
        match registered.markInactiveByTableId manifestHash tableName with
        | none => (registered, .error .markInactive)
        | some inactive =>
            if fails .markInactive then (registered, .error .markInactive)
            else
              match inactive.markActiveById id manifestHash tableName with
              | none => (registered, .error .markActive)
              | some restored =>
                  if fails .markActive then (registered, .error .markActive)
                  else if fails .transactionCommit then (registered, .error .transactionCommit)
                  else (restored, .ok id)

end Tables

/-! ## The object store -/

/-- The URL of the store and the paths of its objects. -/
structure DataStore where
  url : String
  objects : List (List String)

variable (parseUuid : String → Option Nat) (store : DataStore) (datasetName tableName : String)

/-- The directories right below a path. -/
def DataStore.commonPrefixes (path : List String) : List String :=
  store.objects.filterMap fun object =>
    if path.isPrefixOf object then
      match object.drop path.length with
      | directory :: _ :: _ => some directory
      | _ => none
    else none

/-- The revisions of a table: the directories whose names are UUIDs. -/
def listRevisions : List Nat :=
  (store.commonPrefixes [datasetName, tableName]).filterMap parseUuid

/-- The URL of the latest revision. -/
def latestUrl : Option PhyTableUrl :=
  (listRevisions parseUuid store datasetName tableName).max?.map
    (⟨store.url, datasetName, tableName, ·⟩)

def restoreLatestRevision {H : Type} [DecidableEq H] (fails : RestoreError → Bool)
    (db : PhysicalTables H) (store : DataStore) (datasetNamespace datasetName : String)
    (manifestHash : H) (tableName : String) :
    PhysicalTables H × Except RestoreError (Option Nat) :=
  if fails .listRevisions then (db, .error .listRevisions)
  else
    match latestUrl parseUuid store datasetName tableName with
    | none => (db, .ok none)
    | some url =>
        let (db, result) := restore fails db datasetNamespace datasetName manifestHash tableName url
        (db, result.map some)

/-! ## What a restore should do -/

section Spec

variable {H : Type} [DecidableEq H] (writtenFor : PhyTableUrl → Option H) (db : PhysicalTables H)
  (manifestHash : H)

/-- The active tables of the other manifests are unchanged, and the revision that is activated was
written for the manifest. -/
structure RestoresOwn (after : PhysicalTables H × Except RestoreError (Option Nat)) : Prop where
  others : ∀ hash table, hash ≠ manifestHash →
    after.1.getActivePhysicalTable hash table = db.getActivePhysicalTable hash table
  own : ∀ id row, after.2 = .ok (some id) →
    after.1.getActivePhysicalTable manifestHash tableName = some row →
    row.id = id ∧ writtenFor row.url = some manifestHash

/-- Nothing fails after the registration, and if the URL is registered, it is for the table. -/
def Activates (fails : RestoreError → Bool) (url : PhyTableUrl) : Prop :=
  (∀ e, e ≠ .listRevisions → e ≠ .registerPhysicalTable → fails e = false) ∧
    ∀ r ∈ db.rows, r.url = url → r.tableName = tableName

end Spec

/-! ## Statements -/

namespace TableRow

variable {H : Type} {hash : H} {table : String} {id : Nat} {url : PhyTableUrl} (r : TableRow H)

@[simp] theorem setManifest_id : (r.setManifest url hash).id = r.id := by
  unfold setManifest
  split <;> rfl

@[simp] theorem setManifest_url : (r.setManifest url hash).url = r.url := by
  unfold setManifest
  split <;> rfl

@[simp] theorem setManifest_tableName : (r.setManifest url hash).tableName = r.tableName := by
  unfold setManifest
  split <;> rfl

variable [DecidableEq H]

@[simp] theorem deactivate_id : (r.deactivate hash table).id = r.id := by
  unfold deactivate
  split <;> rfl

@[simp] theorem deactivate_url : (r.deactivate hash table).url = r.url := by
  unfold deactivate
  split <;> rfl

@[simp] theorem deactivate_manifestHash :
    (r.deactivate hash table).manifestHash = r.manifestHash := by
  unfold deactivate
  split <;> rfl

@[simp] theorem deactivate_tableName : (r.deactivate hash table).tableName = r.tableName := by
  unfold deactivate
  split <;> rfl

@[simp] theorem activate_id : (r.activate id hash table).id = r.id := by
  unfold activate
  split <;> rfl

@[simp] theorem activate_url : (r.activate id hash table).url = r.url := by
  unfold activate
  split <;> rfl

@[simp] theorem activate_manifestHash :
    (r.activate id hash table).manifestHash = r.manifestHash := by
  unfold activate
  split <;> rfl

@[simp] theorem activate_tableName : (r.activate id hash table).tableName = r.tableName := by
  unfold activate
  split <;> rfl

variable {r}

/-- A row that is active afterwards was active before, and is not one of the table. -/
theorem deactivate_active (h : (r.deactivate hash table).active = true) :
    r.active = true ∧ ¬ (r.manifestHash = hash ∧ r.tableName = table) := by
  unfold deactivate at h
  split at h
  · cases h
  · rename_i hrow
    refine ⟨h, ?_⟩
    rintro ⟨hhash, htable⟩
    exact hrow ⟨hhash, htable, h⟩

theorem activate_active (h : (r.activate id hash table).active = true) :
    r.active = true ∨ r.id = id ∧ r.manifestHash = hash ∧ r.tableName = table := by
  unfold activate at h
  split at h
  · rename_i hrow
    exact .inr hrow
  · exact .inl h

end TableRow

namespace PhysicalTables

variable {H : Type} [DecidableEq H] {db db' : PhysicalTables H} {hash : H} {table : String}

theorem accept_some {rows : List (TableRow H)} {nextId : Nat} (h : accept rows nextId = some db) :
    db.rows = rows := by
  unfold accept at h
  split at h
  · cases h
    rfl
  · cases h

/-- The active row of a table is unique. -/
theorem getActive_iff {row : TableRow H} : db.getActivePhysicalTable hash table = some row ↔
    row ∈ db.rows ∧ row.manifestHash = hash ∧ row.tableName = table ∧ row.active = true := by
  constructor
  · intro h
    have hrow := find?_some h
    exact ⟨mem_of_find?_eq_some h, of_decide_eq_true hrow⟩
  · rintro ⟨hmem, hrow⟩
    cases hfind : db.getActivePhysicalTable hash table with
    | none => exact absurd (decide_eq_true hrow) (find?_eq_none.mp hfind row hmem)
    | some found =>
      have hfound := find?_some hfind
      rw [decide_eq_true_eq] at hfound
      have : Std.Symm fun a b : TableRow H => ¬ a.Competes b :=
        ⟨fun a b h hba => h ⟨hba.2.1, hba.1, hba.2.2.1.symm, hba.2.2.2.symm⟩⟩
      by_contra hne
      exact db.constraints.active.forall (mem_of_find?_eq_some hfind) hmem
        (fun heq => hne (congrArg some heq))
        ⟨hfound.2.2, hrow.2.2, hfound.1.trans hrow.1.symm, hfound.2.1.trans hrow.2.1.symm⟩

variable {datasetNamespace datasetName : String} {url : PhyTableUrl} {id : Nat} {hash' : H}

section

variable {active : Bool}
  (h : db.insert datasetNamespace datasetName hash table url active = some (db', id))
include h

/-- What `insert` does: it moves the row of the URL, or it adds one. -/
theorem insert_some : (∃ row ∈ db.rows, row.url = url ∧ row.id = id ∧
        db'.rows = db.rows.map (.setManifest url hash)) ∨
      ((∀ row ∈ db.rows, row.url ≠ url) ∧ id = db.nextId ∧ db'.rows = db.rows ++
        [⟨db.nextId, hash, table, datasetNamespace, datasetName, url, active⟩]) := by
  unfold insert at h
  split at h
  · rename_i row hfind
    rcases Option.map_eq_some_iff.mp h with ⟨after, hafter, heq⟩
    cases heq
    have hurl := find?_some hfind
    exact .inl ⟨row, mem_of_find?_eq_some hfind, of_decide_eq_true hurl, rfl, accept_some hafter⟩
  · rename_i hfind
    rcases Option.map_eq_some_iff.mp h with ⟨after, hafter, heq⟩
    cases heq
    refine .inr ⟨fun row hrow => ?_, rfl, accept_some hafter⟩
    simpa using find?_eq_none.mp hfind row hrow

/-- The returned id is that of the row with the URL, which has the manifest now. It is a row of the
table exactly if the URL was not registered for another one. -/
theorem insert_row : ∃ row ∈ db'.rows, row.id = id ∧ row.url = url ∧ row.manifestHash = hash ∧
      (row.tableName = table ↔ ∀ r ∈ db.rows, r.url = url → r.tableName = table) := by
  rcases insert_some h with ⟨row, hrow, hurl, hid, hrows⟩ | ⟨hnone, hid, hrows⟩
  · rw [hrows]
    refine ⟨_, mem_map_of_mem hrow, by simpa using hid, by simpa using hurl, ?_, ?_⟩
    · unfold TableRow.setManifest
      rw [if_pos hurl]
    · rw [TableRow.setManifest_tableName]
      constructor
      · intro htable r hr hrurl
        rwa [inj_on_of_nodup_map db.constraints.urls hr hrow (hrurl.trans hurl.symm)]
      · exact fun htable => htable row hrow hurl
  · rw [hrows]
    exact ⟨_, mem_append_right _ (mem_singleton_self _), hid.symm, rfl, rfl,
      iff_of_true rfl fun r hr hrurl => absurd hrurl (hnone r hr)⟩

end

/-- The active table of a manifest, if no row that is or becomes active for it is changed. -/
theorem getActive_map {f : TableRow H → TableRow H} {table' : String}
    (hrows : db'.rows = db.rows.map f)
    (hbefore : ∀ r ∈ db.rows, r.manifestHash = hash' → r.active = true → f r = r)
    (hafter : ∀ r ∈ db.rows, (f r).manifestHash = hash' → f r = r) :
    db'.getActivePhysicalTable hash' table' = db.getActivePhysicalTable hash' table' := by
  ext row
  rw [getActive_iff, getActive_iff, hrows, mem_map]
  constructor
  · rintro ⟨⟨r, hr, rfl⟩, hhash, hrow⟩
    have hsame := hafter r hr hhash
    rw [hsame] at hhash hrow ⊢
    exact ⟨hr, hhash, hrow⟩
  · rintro ⟨hr, hhash, htable, hactive⟩
    exact ⟨⟨row, hr, hbefore row hr hhash hactive⟩, hhash, htable, hactive⟩

theorem markInactive_frame (hne : hash' ≠ hash) (h : db.markInactiveByTableId hash table = some db')
    (table' : String) :
    db'.getActivePhysicalTable hash' table' = db.getActivePhysicalTable hash' table' := by
  have hsame : ∀ r ∈ db.rows, r.manifestHash = hash' → r.deactivate hash table = r := by
    intro r _ hr
    exact if_neg fun hrow => hne (hr.symm.trans hrow.1)
  exact getActive_map (accept_some h) (fun r hr hhash _ => hsame r hr hhash)
    fun r hr hhash => hsame r hr (r.deactivate_manifestHash ▸ hhash)

theorem markActive_frame (hne : hash' ≠ hash) (h : db.markActiveById id hash table = some db')
    (table' : String) :
    db'.getActivePhysicalTable hash' table' = db.getActivePhysicalTable hash' table' := by
  have hsame : ∀ r ∈ db.rows, r.manifestHash = hash' → r.activate id hash table = r := by
    intro r _ hr
    exact if_neg fun hrow => hne (hr.symm.trans hrow.2.1)
  exact getActive_map (accept_some h) (fun r hr hhash _ => hsame r hr hhash)
    fun r hr hhash => hsame r hr (r.activate_manifestHash ▸ hhash)

/-- An insert leaves the other manifests alone exactly if it does not take an active row from one
of them. -/
theorem insert_frame_iff
    (h : db.insert datasetNamespace datasetName hash table url false = some (db', id)) :
    (∀ hash' table', hash' ≠ hash →
        db'.getActivePhysicalTable hash' table' = db.getActivePhysicalTable hash' table') ↔
      ∀ r ∈ db.rows, r.url = url → r.active = true → r.manifestHash = hash := by
  rcases insert_some h with ⟨-, -, -, -, hrows⟩ | ⟨hnone, -, hrows⟩
  · constructor
    · intro hframe r hr hurl hactive
      by_contra hne
      have hrow := getActive_iff.mpr ⟨hr, rfl, rfl, hactive⟩
      rw [← hframe _ r.tableName hne] at hrow
      -- no row with the URL belongs to another manifest any more
      have hmem := (getActive_iff.mp hrow).1
      rw [hrows, mem_map] at hmem
      obtain ⟨r₀, -, rfl⟩ := hmem
      rw [TableRow.setManifest_url] at hurl
      exact hne (by rw [TableRow.setManifest, if_pos hurl])
    · intro hown hash' table' hne
      apply getActive_map hrows
      · intro r hr hhash hactive
        exact if_neg fun hurl => hne (hhash.symm.trans (hown r hr hurl hactive))
      · intro r _ hhash
        refine if_neg fun hurl => hne ?_
        rw [← hhash, TableRow.setManifest, if_pos hurl]
  · refine iff_of_true ?_ fun r hr hurl => absurd hurl (hnone r hr)
    intro hash' table' hne
    ext row
    rw [getActive_iff, getActive_iff, hrows]
    constructor
    · rintro ⟨hmem, hrow⟩
      rcases mem_append.mp hmem with hmem | hmem
      · exact ⟨hmem, hrow⟩
      · cases mem_singleton.mp hmem
        exact absurd hrow.2.2 Bool.false_ne_true
    · exact fun ⟨hmem, hrow⟩ => ⟨mem_append_left _ hmem, hrow⟩

/-! ## The transaction -/

theorem accept_isSome {rows : List (TableRow H)} {nextId : Nat} (h : Constraints rows)
    (hfresh : ∀ r ∈ rows, r.id < nextId) : ∃ db, accept rows nextId = some db := by
  unfold accept
  exact ⟨_, dif_pos ⟨h, hfresh⟩⟩

/-- Making rows inactive violates no constraint. -/
theorem markInactive_isSome : ∃ db', db.markInactiveByTableId hash table = some db' := by
  refine accept_isSome ⟨?_, ?_, ?_⟩ ?_
  · simpa [Function.comp_def] using db.constraints.ids
  · simpa [Function.comp_def] using db.constraints.urls
  · refine pairwise_map.mpr (db.constraints.active.imp fun {a b} h hab => h ?_)
    have ha := (TableRow.deactivate_active hab.1).1
    have hb := (TableRow.deactivate_active hab.2.1).1
    exact ⟨ha, hb, by simpa using hab.2.2.1, by simpa using hab.2.2.2⟩
  · intro r hr
    obtain ⟨r₀, hr₀, rfl⟩ := mem_map.mp hr
    simpa using db.fresh r₀ hr₀

/-- Nor does making one row active after that. -/
theorem markActive_isSome {inactive : PhysicalTables H}
    (hinactive : db.markInactiveByTableId hash table = some inactive) :
    ∃ db', inactive.markActiveById id hash table = some db' := by
  have hnone : ∀ r ∈ inactive.rows, r.active = true →
      ¬ (r.manifestHash = hash ∧ r.tableName = table) := by
    rw [accept_some hinactive]
    intro r hr hactive
    obtain ⟨r₀, -, rfl⟩ := mem_map.mp hr
    simpa using (TableRow.deactivate_active hactive).2
  refine accept_isSome ⟨?_, ?_, ?_⟩ ?_
  · simpa [Function.comp_def] using inactive.constraints.ids
  · simpa [Function.comp_def] using inactive.constraints.urls
  · have hids := pairwise_map.mp inactive.constraints.ids
    refine pairwise_map.mpr ((inactive.constraints.active.and hids).imp_of_mem ?_)
    rintro a b ha hb ⟨hcompete, hid⟩ ⟨hactive, hactive', hhash, htable⟩
    simp only [TableRow.activate_manifestHash, TableRow.activate_tableName] at hhash htable
    rcases TableRow.activate_active hactive with ha' | ⟨haid, ha'⟩
    · rcases TableRow.activate_active hactive' with hb' | ⟨-, hb'⟩
      · exact hcompete ⟨ha', hb', hhash, htable⟩
      · exact hnone a ha ha' ⟨hhash.trans hb'.1, htable.trans hb'.2⟩
    · rcases TableRow.activate_active hactive' with hb' | ⟨hbid, -⟩
      · exact hnone b hb hb' ⟨hhash.symm.trans ha'.1, htable.symm.trans ha'.2⟩
      · exact hid (haid.trans hbid.symm)
  · intro r hr
    obtain ⟨r₀, hr₀, rfl⟩ := mem_map.mp hr
    simpa using inactive.fresh r₀ hr₀

/-- The active row after the transaction is the one with the id, if it is one of the table. -/
theorem markActive_active {inactive : PhysicalTables H} {row r : TableRow H}
    (hinactive : db.markInactiveByTableId hash table = some inactive)
    (hactive : inactive.markActiveById id hash table = some db')
    (hr : r ∈ db.rows) (hid : r.id = id) (hhash : r.manifestHash = hash) :
    db'.getActivePhysicalTable hash table = some row ↔
      r.tableName = table ∧ row = (r.deactivate hash table).activate id hash table := by
  have hmem : (r.deactivate hash table).activate id hash table ∈ db'.rows := by
    rw [accept_some hactive, accept_some hinactive]
    exact mem_map_of_mem (mem_map_of_mem hr)
  rw [getActive_iff]
  constructor
  · rintro ⟨hrow, hrowhash, hrowtable, hrowactive⟩
    rw [accept_some hactive, mem_map] at hrow
    obtain ⟨r₁, hr₁, rfl⟩ := hrow
    rw [accept_some hinactive, mem_map] at hr₁
    obtain ⟨r₀, hr₀, rfl⟩ := hr₁
    simp only [TableRow.activate_manifestHash, TableRow.deactivate_manifestHash] at hrowhash
    simp only [TableRow.activate_tableName, TableRow.deactivate_tableName] at hrowtable
    rcases TableRow.activate_active hrowactive with hold | ⟨hrowid, -⟩
    · exact absurd ⟨hrowhash, hrowtable⟩ (TableRow.deactivate_active hold).2
    · rw [TableRow.deactivate_id] at hrowid
      cases inj_on_of_nodup_map db.constraints.ids hr₀ hr (hrowid.trans hid.symm)
      exact ⟨hrowtable, rfl⟩
  · rintro ⟨htable, rfl⟩
    refine ⟨hmem, by simpa using hhash, by simpa using htable, ?_⟩
    unfold TableRow.activate
    rw [if_pos (by simpa using ⟨hid, hhash, htable⟩)]

end PhysicalTables

/-! ## Restoring -/

section Restore

variable {H : Type} [DecidableEq H] {db : PhysicalTables H} {fails : RestoreError → Bool}
  {datasetNamespace datasetName tableName : String} {hash : H} {url : PhyTableUrl}

theorem restore_unregistered (h : fails .registerPhysicalTable = true ∨
      db.insert datasetNamespace datasetName hash tableName url false = none) :
    restore fails db datasetNamespace datasetName hash tableName url =
      (db, .error .registerPhysicalTable) := by
  unfold restore
  rcases h with h | h
  · split
    · rfl
    · rw [if_pos h]
  · rw [h]

variable {registered : PhysicalTables H} {id : Nat}
  (hinsert : db.insert datasetNamespace datasetName hash tableName url false =
    some (registered, id))
  (hregister : fails .registerPhysicalTable = false)

include hinsert hregister in
/-- After the registration the transaction is committed exactly if nothing fails. -/
theorem restore_registered :
    (∃ inactive restored, registered.markInactiveByTableId hash tableName = some inactive ∧
        inactive.markActiveById id hash tableName = some restored ∧
        restore fails db datasetNamespace datasetName hash tableName url = (restored, .ok id) ∧
        ∀ e, e ≠ .listRevisions → e ≠ .registerPhysicalTable → fails e = false) ∨
      ∃ e, restore fails db datasetNamespace datasetName hash tableName url =
          (registered, .error e) ∧ fails e = true ∧ e ≠ .listRevisions ∧
        e ≠ .registerPhysicalTable := by
  obtain ⟨inactive, hinactive⟩ :=
    @PhysicalTables.markInactive_isSome _ _ registered hash tableName
  obtain ⟨restored, hactive⟩ := @PhysicalTables.markActive_isSome _ _ registered hash tableName id
    inactive hinactive
  unfold restore
  simp only [hinsert, hinactive, hactive, hregister, Bool.false_eq_true, if_false]
  by_cases hbegin : fails .transactionBegin = true
  · exact .inr ⟨_, if_pos hbegin, hbegin, nofun, nofun⟩
  by_cases hmark : fails .markInactive = true
  · exact .inr ⟨_, by rw [if_neg hbegin, if_pos hmark], hmark, nofun, nofun⟩
  by_cases hmark' : fails .markActive = true
  · exact .inr ⟨_, by rw [if_neg hbegin, if_neg hmark, if_pos hmark'], hmark', nofun, nofun⟩
  by_cases hcommit : fails .transactionCommit = true
  · exact .inr ⟨_, by rw [if_neg hbegin, if_neg hmark, if_neg hmark', if_pos hcommit], hcommit,
      nofun, nofun⟩
  refine .inl ⟨inactive, restored, rfl, hactive, ?_, ?_⟩
  · rw [if_neg hbegin, if_neg hmark, if_neg hmark', if_neg hcommit]
  · intro e hlist hreg
    cases e with
    | listRevisions => exact absurd rfl hlist
    | registerPhysicalTable => exact absurd rfl hreg
    | transactionBegin => exact eq_false_of_ne_true hbegin
    | markInactive => exact eq_false_of_ne_true hmark
    | markActive => exact eq_false_of_ne_true hmark'
    | transactionCommit => exact eq_false_of_ne_true hcommit

include hinsert hregister in
/-- A restore whose registration is carried out. -/
theorem restore_own_registered {writtenFor : PhyTableUrl → Option H} :
    RestoresOwn tableName writtenFor db hash
        ((restore fails db datasetNamespace datasetName hash tableName url).1,
          (restore fails db datasetNamespace datasetName hash tableName url).2.map some) ↔
      (∀ r ∈ db.rows, r.url = url → r.active = true → r.manifestHash = hash) ∧
        (Activates tableName db fails url → writtenFor url = some hash) := by
  obtain ⟨r, hr, hid, hurl, hhash, htable⟩ := PhysicalTables.insert_row hinsert
  rw [← PhysicalTables.insert_frame_iff hinsert]
  rcases restore_registered hinsert hregister with
    ⟨inactive, restored, hinactive, hactive, heq, hfails⟩ | ⟨e, heq, hfails, hlist, hreg⟩
  · have hothers {hash' : H} (table' : String) (hne : hash' ≠ hash) :
        restored.getActivePhysicalTable hash' table' =
          registered.getActivePhysicalTable hash' table' := by
      rw [PhysicalTables.markActive_frame hne hactive,
        PhysicalTables.markInactive_frame hne hinactive]
    rw [heq]
    have hown {row : TableRow H} := @PhysicalTables.markActive_active _ _ registered restored hash
      tableName id inactive row r hinactive hactive hr hid hhash
    constructor
    · intro h
      refine ⟨fun hash' table' hne =>
        (hothers table' hne).symm.trans (h.others hash' table' hne), ?_⟩
      intro hactivates
      have hrow := h.own id _ rfl (hown.mpr ⟨htable.mpr hactivates.2, rfl⟩)
      simpa [hurl] using hrow.2
    · rintro ⟨hframe, hwritten⟩
      refine ⟨fun hash' table' hne => (hothers table' hne).trans (hframe hash' table' hne), ?_⟩
      rintro id' row ⟨⟩ hrow
      obtain ⟨hrtable, rfl⟩ := hown.mp hrow
      exact ⟨by simpa using hid, by simpa [hurl] using hwritten ⟨hfails, htable.mp hrtable⟩⟩
  · rw [heq]
    constructor
    · intro h
      refine ⟨h.others, fun hactivates => ?_⟩
      rw [hactivates.1 e hlist hreg] at hfails
      cases hfails
    · exact fun h => ⟨h.1, nofun⟩

end Restore

/-- For every content of the database and the object store, whatever fails: the other manifests
keep their active tables and the activated revision is an own one exactly if the listing fails or
finds no revision, the registration fails or violates a constraint, or the revision is not the
active one of another manifest and, if it is activated, was written for the manifest. -/
theorem restore_own_iff {H : Type} [DecidableEq H] (parseUuid : String → Option Nat)
    (fails : RestoreError → Bool) (db : PhysicalTables H) (store : DataStore)
    (writtenFor : PhyTableUrl → Option H) (datasetNamespace datasetName : String) (hash : H)
    (tableName : String) :
    RestoresOwn tableName writtenFor db hash (restoreLatestRevision parseUuid fails db store
        datasetNamespace datasetName hash tableName) ↔
      fails .listRevisions = true ∨
        ∀ url, latestUrl parseUuid store datasetName tableName = some url →
          (fails .registerPhysicalTable = true ∨
            db.insert datasetNamespace datasetName hash tableName url false = none) ∨
          (∀ r ∈ db.rows, r.url = url → r.active = true → r.manifestHash = hash) ∧
            (Activates tableName db fails url → writtenFor url = some hash) := by
  unfold restoreLatestRevision
  split
  · rename_i hlist
    exact iff_of_true ⟨fun _ _ _ => rfl, nofun⟩ (.inl hlist)
  rename_i hlist
  rw [or_iff_right hlist]
  cases latestUrl parseUuid store datasetName tableName with
  | none => exact iff_of_true ⟨fun _ _ _ => rfl, nofun⟩ nofun
  | some url =>
    simp only [Option.some.injEq, forall_eq']
    by_cases h : fails .registerPhysicalTable = true ∨
        db.insert datasetNamespace datasetName hash tableName url false = none
    · rw [restore_unregistered h]
      exact iff_of_true ⟨fun _ _ _ => rfl, nofun⟩ (.inl h)
    · rw [or_iff_right h]
      push Not at h
      obtain ⟨⟨registered, id⟩, hinsert⟩ := Option.ne_none_iff_exists'.mp h.2
      exact restore_own_registered hinsert (eq_false_of_ne_true h.1)

def parseTwo (name : String) : Option Nat :=
  if name = "u7" then some 7 else if name = "u8" then some 8 else none

/-- Manifest 2 registers revision 7, and manifest 1 of the same dataset name is restored. -/
theorem restore_takes_over : ∃ db id,
    PhysicalTables.empty.registerNewTableRevision "core" "eth" 2 "blocks"
        ⟨"s3", "eth", "blocks", 7⟩ = some (db, id) ∧
      (db.getActivePhysicalTable 2 "blocks").isSome = true ∧
      (restoreLatestRevision parseTwo (fun _ => false) db
        ⟨"s3", [["eth", "blocks", "u7", "0.parquet"]]⟩ "core" "eth" 1 "blocks").2 = .ok (some id) ∧
      (restoreLatestRevision parseTwo (fun _ => false) db
        ⟨"s3", [["eth", "blocks", "u7", "0.parquet"]]⟩ "core" "eth" 1
          "blocks").1.getActivePhysicalTable 2 "blocks" = none ∧
      ((restoreLatestRevision parseTwo (fun _ => false) db
        ⟨"s3", [["eth", "blocks", "u7", "0.parquet"]]⟩ "core" "eth" 1
          "blocks").1.getActivePhysicalTable 1 "blocks").map (·.url) =
            some ⟨"s3", "eth", "blocks", 7⟩ :=
  ⟨_, _, rfl, rfl, rfl, rfl, rfl⟩

end CampNode.Datasets

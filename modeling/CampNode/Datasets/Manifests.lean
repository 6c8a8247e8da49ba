import CampNode.Core.Transition
import Mathlib.Logic.Function.Basic

/-!
# CampNode.Datasets.Manifests — registering, linking and deleting a manifest

A manifest has a row in `manifest_files` and a file in the object store. Datasets are linked
to it by rows in `dataset_manifests`, which refer to the row of the manifest and are deleted
with it.

The model has the operations of `DatasetStore` on one content hash. Statements run under read
committed. A transaction that inserts a link holds a key share lock on the row of the manifest
until it ends, and one that deletes the row holds it exclusively. The object store is not part
of the transactions. The count of `delete_manifest` locks the links that exist; it cannot lock
those that do not exist yet.

* `delete_removes_link`, `registered_without_file` — a link that is committed after the count
  is deleted with the row, and a file that was stored for a registration is removed before the
  row is inserted.
* `manifest_consistent` — otherwise no link is removed, and a registered manifest has its file.

A `delete_manifest` whose commit fails after the file was removed is left out.
-/

namespace CampNode.Datasets

/-- How far an operation is. -/
inductive Op (D : Type) where
  /-- `register_manifest` has stored the file. -/
  | stored
  /-- `link_manifest` has inserted the link, which is not committed. -/
  | linking (dataset : D)
  /-- `delete_manifest` has found no link. -/
  | counted
  /-- It has deleted the row, which is not committed. -/
  | deleted
  /-- It has removed the file. -/
  | removed

/-- A manifest, and the operations on it that are in progress. -/
structure Manifest (D : Type) where
  /-- The committed row in `manifest_files`. -/
  registered : Bool
  /-- The file in the object store. -/
  file : Bool
  /-- The committed rows in `dataset_manifests`. -/
  links : D → Bool
  ops : Nat → Option (Op D)

namespace Manifest

section Actions

variable {D : Type}
variable (s : Manifest D) (i : Nat)

def setOp (op : Option (Op D)) : Manifest D :=
  { s with ops := Function.update s.ops i op }

/-- A transaction holds the row exclusively. -/
def RowDeleted : Prop := ∃ i, s.ops i = some .deleted ∨ s.ops i = some .removed

/-- No transaction has inserted a link. -/
def NotLinking : Prop := ∀ i d, s.ops i ≠ some (.linking d)

/-! ## Actions -/

/-- The first step of `register_manifest`. -/
def Store : Action (Manifest D) := fun s s' =>
  s.ops i = none ∧ s' = { s.setOp i (some .stored) with file := true }

/-- `INSERT ... ON CONFLICT DO NOTHING` waits for a transaction that has deleted the row. -/
def Insert : Action (Manifest D) := fun s s' =>
  s.ops i = some .stored ∧ ¬ s.RowDeleted ∧ s' = { s.setOp i none with registered := true }

/-- The foreign key requires the row. A link that exists is not inserted again. -/
def InsertLink (dataset : D) : Action (Manifest D) := fun s s' =>
  s.ops i = none ∧ s.registered = true ∧ ¬ s.RowDeleted ∧ s.links dataset = false ∧
    s' = s.setOp i (some (.linking dataset))

def CommitLink [DecidableEq D] : Action (Manifest D) := fun s s' =>
  ∃ dataset, s.ops i = some (.linking dataset) ∧
    s' = { s.setOp i none with links := Function.update s.links dataset true }

/-- `count_dataset_links_and_lock` finds no link. Otherwise the operation fails. -/
def Count : Action (Manifest D) := fun s s' =>
  s.ops i = none ∧ (∀ d, s.links d = false) ∧ s' = s.setOp i (some .counted)

/-- The `DELETE` waits for transactions that have the row locked. Without a row the operation
is done. -/
def DeleteRow : Action (Manifest D) := fun s s' =>
  s.ops i = some .counted ∧ ¬ s.RowDeleted ∧ s.NotLinking ∧
    s' = s.setOp i (if s.registered then some .deleted else none)

def RemoveFile : Action (Manifest D) := fun s s' =>
  s.ops i = some .deleted ∧ s' = { s.setOp i (some .removed) with file := false }

/-- The links are deleted with the row. -/
def CommitDelete : Action (Manifest D) := fun s s' =>
  s.ops i = some .removed ∧
    s' = { s.setOp i none with registered := false, links := fun _ => false }

/-- An operation fails. -/
def Fail : Action (Manifest D) := fun s s' =>
  s.ops i ≠ some .removed ∧ s' = s.setOp i none

end Actions

end Manifest

/-- A step of an operation. -/
inductive ManifestAct (D : Type) where
  | store (i : Nat)
  | insert (i : Nat)
  | insertLink (i : Nat) (dataset : D)
  | commitLink (i : Nat)
  | count (i : Nat)
  | deleteRow (i : Nat)
  | removeFile (i : Nat)
  | commitDelete (i : Nat)
  | fail (i : Nat)

namespace Manifest

section Runs

variable {D : Type}

def Perform [DecidableEq D] : ManifestAct D → Action (Manifest D)
  | .store i => Store i
  | .insert i => Insert i
  | .insertLink i dataset => InsertLink i dataset
  | .commitLink i => CommitLink i
  | .count i => Count i
  | .deleteRow i => DeleteRow i
  | .removeFile i => RemoveFile i
  | .commitDelete i => CommitDelete i
  | .fail i => Fail i

/-- Any interleaving of operations whose steps are allowed. -/
def Next [DecidableEq D] (allowed : Manifest D → ManifestAct D → Prop) : Action (Manifest D) := fun s s' =>
  ∃ act, allowed s act ∧ Perform act s s'

variable (s : Manifest D)

/-- No operation is in progress. -/
def Idle : Prop := ∀ i, s.ops i = none

def Init : StatePred (Manifest D) := fun s => s.Idle ∧ (s.registered = true → s.file = true)

/-- No link is committed between the count of a deletion and its `DELETE`, and no file is
removed between the two steps of a registration. -/
def Orderly : ManifestAct D → Prop
  | .commitLink _ => ∀ i, s.ops i ≠ some .counted
  | .removeFile _ => ∀ i, s.ops i ≠ some .stored
  | _ => True

/-! ## The invariant -/

/-- The operation is a deletion that has counted the links. -/
def Op.Deletes : Op D → Prop
  | .stored => False
  | .linking _ => False
  | .counted => True
  | .deleted => True
  | .removed => True

structure Inv (s : Manifest D) : Prop where
  registered : s.registered = true → (∀ i, s.ops i ≠ some .removed) → s.file = true
  stored : ∀ i, s.ops i = some .stored → s.file = true
  unlinked : ∀ i, ∀ op ∈ s.ops i, Op.Deletes op → ∀ d, s.links d = false
  exclusive : s.RowDeleted → s.NotLinking

theorem setOp_ops_self (i : Nat) (op : Option (Op D)) :
    (s.setOp i op).ops i = op := Function.update_self ..

theorem setOp_ops_ne {i j : Nat} (op : Option (Op D)) (h : j ≠ i) :
    (s.setOp i op).ops j = s.ops j := Function.update_of_ne h ..

theorem mem_setOp {s : Manifest D} {i j : Nat} {op : Option (Op D)} {o : Op D}
    (h : (s.setOp i op).ops j = some o) : (j = i ∧ op = some o) ∨ s.ops j = some o := by
  by_cases hji : j = i
  · subst hji
    rw [setOp_ops_self] at h
    exact .inl ⟨rfl, h⟩
  · rw [setOp_ops_ne s op hji] at h
    exact .inr h

/-- An operation in another phase goes on. -/
theorem mem_setOp_of_ne {s : Manifest D} {i j : Nat} {op : Option (Op D)} {o : Op D}
    (hi : s.ops i ≠ some o) (h : s.ops j = some o) : (s.setOp i op).ops j = some o := by
  rw [setOp_ops_ne s op]
  · exact h
  · rintro rfl
    exact hi h

variable {s s' : Manifest D}
variable {i : Nat} {op : Option (Op D)}

theorem RowDeleted.of_setOp (h : (s.setOp i op).RowDeleted)
    (hop : op ≠ some .deleted ∧ op ≠ some .removed) : s.RowDeleted := by
  obtain ⟨j, hj | hj⟩ := h
  · rcases mem_setOp hj with ⟨-, hnew⟩ | hold
    · exact absurd hnew hop.1
    · exact ⟨j, .inl hold⟩
  · rcases mem_setOp hj with ⟨-, hnew⟩ | hold
    · exact absurd hnew hop.2
    · exact ⟨j, .inr hold⟩

theorem NotLinking.setOp (h : s.NotLinking) (hop : ∀ d, op ≠ some (.linking d)) :
    (s.setOp i op).NotLinking := by
  intro j d hj
  rcases mem_setOp hj with ⟨-, hnew⟩ | hold
  · exact hop d hnew
  · exact h j d hold

/-! What a field of the invariant says after an operation has moved on from a phase that the
field is not about. -/

theorem Inv.registered_setOp (h : Inv s) (hi : s.ops i ≠ some .removed) (hr : s.registered = true)
    (hremoved : ∀ j, (s.setOp i op).ops j ≠ some .removed) : s.file = true :=
  h.registered hr fun j hj => hremoved j (mem_setOp_of_ne hi hj)

theorem Inv.stored_setOp (h : Inv s) {i j : Nat} (hj : (s.setOp i op).ops j = some .stored)
    (hop : op ≠ some .stored) : s.file = true := by
  rcases mem_setOp hj with ⟨-, hnew⟩ | hold
  · exact absurd hnew hop
  · exact h.stored j hold

theorem Inv.unlinked_setOp (h : Inv s) {i j : Nat} {o : Op D} (hj : (s.setOp i op).ops j = some o)
    (hop : ∀ o ∈ op, ¬ Op.Deletes o) (ho : Op.Deletes o) (d : D) :
    s.links d = false := by
  rcases mem_setOp hj with ⟨-, hnew⟩ | hold
  · exact absurd ho (hop o hnew)
  · exact h.unlinked j o hold ho d

theorem Inv.exclusive_setOp (h : Inv s) (hop : op ≠ some .deleted ∧ op ≠ some .removed)
    (hlink : ∀ d, op ≠ some (.linking d)) (hrow : (s.setOp i op).RowDeleted) :
    (s.setOp i op).NotLinking :=
  (h.exclusive (hrow.of_setOp hop)).setOp hlink

theorem init_inv (h : Init s) : Inv s := by
  obtain ⟨hidle, hfile⟩ := h
  have hnone : ∀ i op, s.ops i ≠ some op := by
    intro i op hi
    rw [hidle] at hi
    cases hi
  constructor
  · exact fun hr _ => hfile hr
  · exact fun i hi => absurd hi (hnone i _)
  · exact fun i op hi => absurd hi (hnone i op)
  · exact fun _ i d => hnone i _

theorem store_inv (h : Inv s) (hstep : Store i s s') : Inv s' := by
  obtain ⟨-, rfl⟩ := hstep
  constructor
  · exact fun _ _ => rfl
  · exact fun _ _ => rfl
  · intro j o hj
    refine h.unlinked_setOp hj ?_
    rintro _ ⟨⟩
    exact id
  · exact h.exclusive_setOp ⟨nofun, nofun⟩ nofun

theorem insert_inv (h : Inv s) (hstep : Insert i s s') : Inv s' := by
  obtain ⟨hi, -, rfl⟩ := hstep
  constructor
  · exact fun _ _ => h.stored i hi
  · exact fun _ _ => h.stored i hi
  · exact fun j o hj => h.unlinked_setOp hj nofun
  · exact h.exclusive_setOp ⟨nofun, nofun⟩ nofun

theorem insertLink_inv (h : Inv s) {d : D} (hstep : InsertLink i d s s') : Inv s' := by
  obtain ⟨hi, -, hrow, -, rfl⟩ := hstep
  constructor
  · exact h.registered_setOp (by rw [hi]; nofun)
  · exact fun j hj => h.stored_setOp hj nofun
  · intro j o hj
    refine h.unlinked_setOp hj ?_
    rintro _ ⟨⟩
    exact id
  · exact fun hnow => absurd (hnow.of_setOp ⟨nofun, nofun⟩) hrow

theorem commitLink_inv [DecidableEq D] (h : Inv s) {i : Nat} (horderly : Orderly s (.commitLink i))
    (hstep : CommitLink i s s') : Inv s' := by
  obtain ⟨d, hi, rfl⟩ := hstep
  -- while a link is not committed, no transaction holds the row
  have hrow : ¬ s.RowDeleted := fun hrow => h.exclusive hrow i d hi
  constructor
  · exact h.registered_setOp (by rw [hi]; nofun)
  · exact fun j hj => h.stored_setOp hj nofun
  · intro j op hj hop
    rcases mem_setOp hj with ⟨-, hnew⟩ | hold
    · cases hnew
    cases op with
    | stored => exact hop.elim
    | linking => exact hop.elim
    | counted => exact absurd hold (horderly j)
    | deleted => exact absurd ⟨j, .inl hold⟩ hrow
    | removed => exact absurd ⟨j, .inr hold⟩ hrow
  · exact fun hnow => absurd (RowDeleted.of_setOp hnow ⟨nofun, nofun⟩) hrow

theorem count_inv (h : Inv s) (hstep : Count i s s') : Inv s' := by
  obtain ⟨hi, hlinks, rfl⟩ := hstep
  constructor
  · exact h.registered_setOp (by rw [hi]; nofun)
  · exact fun j hj => h.stored_setOp hj nofun
  · exact fun _ _ _ _ => hlinks
  · exact h.exclusive_setOp ⟨nofun, nofun⟩ nofun

theorem deleteRow_inv (h : Inv s) (hstep : DeleteRow i s s') : Inv s' := by
  obtain ⟨hi, -, hlinking, rfl⟩ := hstep
  have hlinks := h.unlinked i .counted hi trivial
  constructor
  · exact h.registered_setOp (by rw [hi]; nofun)
  · intro j hj
    refine h.stored_setOp hj ?_
    split <;> nofun
  · exact fun _ _ _ _ => hlinks
  · intro _
    refine hlinking.setOp ?_
    intro d
    split <;> nofun

theorem removeFile_inv (h : Inv s) {i : Nat} (horderly : Orderly s (.removeFile i))
    (hstep : RemoveFile i s s') : Inv s' := by
  obtain ⟨hi, rfl⟩ := hstep
  have hlinks := h.unlinked i .deleted hi trivial
  constructor
  · intro _ hremoved
    exact absurd (setOp_ops_self s i (some .removed)) (hremoved i)
  · intro j hj
    rcases mem_setOp hj with ⟨-, hnew⟩ | hold
    · cases hnew
    · exact absurd hold (horderly j)
  · exact fun _ _ _ _ => hlinks
  · intro _
    exact (h.exclusive ⟨i, .inl hi⟩).setOp nofun

theorem commitDelete_inv (h : Inv s) (hstep : CommitDelete i s s') : Inv s' := by
  obtain ⟨hi, rfl⟩ := hstep
  constructor
  · nofun
  · exact fun j hj => h.stored_setOp hj nofun
  · exact fun _ _ _ _ _ => rfl
  · intro _
    exact (h.exclusive ⟨i, .inr hi⟩).setOp nofun

theorem fail_inv (h : Inv s) (hstep : Fail i s s') : Inv s' := by
  obtain ⟨hi, rfl⟩ := hstep
  constructor
  · exact h.registered_setOp hi
  · exact fun j hj => h.stored_setOp hj nofun
  · exact fun j o hj => h.unlinked_setOp hj nofun
  · exact h.exclusive_setOp ⟨nofun, nofun⟩ nofun

theorem step_inv [DecidableEq D] (h : Inv s) (hstep : Next Orderly s s') : Inv s' := by
  obtain ⟨act, horderly, hact⟩ := hstep
  cases act with
  | store i => exact store_inv h hact
  | insert i => exact insert_inv h hact
  | insertLink i d => exact insertLink_inv h hact
  | commitLink i => exact commitLink_inv h horderly hact
  | count i => exact count_inv h hact
  | deleteRow i => exact deleteRow_inv h hact
  | removeFile i => exact removeFile_inv h horderly hact
  | commitDelete i => exact commitDelete_inv h hact
  | fail i => exact fail_inv h hact

/-- A step that removes a link commits a deletion. -/
theorem links_kept [DecidableEq D] (h : Inv s) {act : ManifestAct D} (hact : Perform act s s') {d : D}
    (hd : s.links d = true) : s'.links d = true := by
  cases act with
  | store i =>
    obtain ⟨-, rfl⟩ := hact
    exact hd
  | insert i =>
    obtain ⟨-, -, rfl⟩ := hact
    exact hd
  | insertLink i d' =>
    obtain ⟨-, -, -, -, rfl⟩ := hact
    exact hd
  | commitLink i =>
    obtain ⟨d', -, rfl⟩ := hact
    show Function.update s.links d' true d = true
    by_cases hdd : d = d'
    · rw [hdd, Function.update_self]
    · rw [Function.update_of_ne hdd, hd]
  | count i =>
    obtain ⟨-, -, rfl⟩ := hact
    exact hd
  | deleteRow i =>
    obtain ⟨-, -, -, rfl⟩ := hact
    exact hd
  | removeFile i =>
    obtain ⟨-, rfl⟩ := hact
    exact hd
  | commitDelete i =>
    obtain ⟨hi, -⟩ := hact
    rw [h.unlinked i .removed hi trivial d] at hd
    cases hd
  | fail i =>
    obtain ⟨-, rfl⟩ := hact
    exact hd

/-- In an orderly run no step removes a committed link, and while no operation is in progress
a registered manifest has its file. -/
theorem manifest_consistent [DecidableEq D] (s : Manifest D) (hs : Reachable Init (Next Orderly) s) :
    (∀ s', Next Orderly s s' → ∀ d, s.links d = true → s'.links d = true) ∧
      (s.Idle → s.registered = true → s.file = true) := by
  have hinv : Inv s := init_invariant _ _ Inv (fun _ => init_inv) (fun _ _ h hi => step_inv hi h) s hs
  constructor
  · rintro s' ⟨act, -, hact⟩ d hd
    exact links_kept hinv hact hd
  intro hidle hr
  refine hinv.registered hr ?_
  intro i hi
  rw [hidle] at hi
  cases hi

end Runs

/-! ## Runs of two operations -/

section Two

/-- A manifest with at most two operations, numbers 0 and 1. -/
def two (registered file : Bool) (links : Nat → Bool) (a b : Option (Op Nat)) : Manifest Nat :=
  ⟨registered, file, links, fun i => if i = 0 then a else if i = 1 then b else none⟩

variable {registered file : Bool} {links : Nat → Bool} {a b : Option (Op Nat)}

theorem two_setOp_zero (op : Option (Op Nat)) :
    (two registered file links a b).setOp 0 op = two registered file links op b := by
  unfold setOp two
  congr 1
  funext i
  by_cases hi : i = 0
  · simp [hi]
  · simp [hi]

theorem two_setOp_one (op : Option (Op Nat)) :
    (two registered file links a b).setOp 1 op = two registered file links a op := by
  unfold setOp two
  congr 1
  funext i
  by_cases hi : i = 1
  · simp [hi]
  · simp [hi]

theorem two_ops {i : Nat} {op : Op Nat} (h : (two registered file links a b).ops i = some op) :
    a = some op ∨ b = some op := by
  unfold two at h
  simp only at h
  split at h
  · exact .inl h
  · split at h
    · exact .inr h
    · cases h

theorem two_not_rowDeleted (ha : a ≠ some .deleted ∧ a ≠ some .removed)
    (hb : b ≠ some .deleted ∧ b ≠ some .removed) : ¬ (two registered file links a b).RowDeleted := by
  rintro ⟨i, hi | hi⟩
  · rcases two_ops hi with h | h
    · exact ha.1 h
    · exact hb.1 h
  · rcases two_ops hi with h | h
    · exact ha.2 h
    · exact hb.2 h

theorem two_idle : (two registered file links none none).Idle := by
  intro i
  unfold two
  simp

theorem two_notLinking (ha : ∀ d, a ≠ some (.linking d)) (hb : ∀ d, b ≠ some (.linking d)) :
    (two registered file links a b).NotLinking := by
  intro i d hi
  rcases two_ops hi with h | h
  · exact ha d h
  · exact hb d h

end Two

/-- A manifest is deleted. Its file is stored again before the deletion commits, its row is
inserted afterwards, and then dataset 7 is linked to it. -/
theorem manifest_consistent_again : ∃ s : Manifest Nat, Reachable Init (Next Orderly) s ∧ s.Idle ∧
    s.links 7 = true ∧ s.file = true ∧ ∀ s', Next Orderly s s' → s'.links 7 = true := by
  have hinit : Reachable Init (Next Orderly) (two true true (fun _ => false) none none) :=
    .init ⟨two_idle, fun _ => rfl⟩
  have hcounted := Reachable.step hinit
    ⟨.count 0, trivial, rfl, fun _ => rfl, (two_setOp_zero _).symm⟩
  have hdeleted := Reachable.step hcounted ⟨.deleteRow 0, trivial, rfl,
    two_not_rowDeleted ⟨nofun, nofun⟩ ⟨nofun, nofun⟩, two_notLinking nofun nofun,
    (two_setOp_zero _).symm⟩
  have hremoved : Reachable Init (Next Orderly)
      (two true false (fun _ => false) (some .removed) none) := by
    refine Reachable.step hdeleted ⟨.removeFile 0, ?_, rfl, by rw [two_setOp_zero]; rfl⟩
    intro i hi
    rcases two_ops hi with h | h <;> cases h
  have hstored : Reachable Init (Next Orderly)
      (two true true (fun _ => false) (some .removed) (some .stored)) :=
    Reachable.step hremoved ⟨.store 1, trivial, rfl, by rw [two_setOp_one]; rfl⟩
  have hcommitted : Reachable Init (Next Orderly)
      (two false true (fun _ => false) none (some .stored)) :=
    Reachable.step hstored ⟨.commitDelete 0, trivial, rfl, by rw [two_setOp_zero]; rfl⟩
  have hregistered : Reachable Init (Next Orderly) (two true true (fun _ => false) none none) :=
    Reachable.step hcommitted ⟨.insert 1, trivial, rfl,
      two_not_rowDeleted ⟨nofun, nofun⟩ ⟨nofun, nofun⟩, by rw [two_setOp_one]; rfl⟩
  have hinserted := Reachable.step hregistered ⟨.insertLink 0 7, trivial, rfl, rfl,
    two_not_rowDeleted ⟨nofun, nofun⟩ ⟨nofun, nofun⟩, rfl, (two_setOp_zero _).symm⟩
  have hlinked : Reachable Init (Next Orderly)
      (two true true (Function.update (fun _ => false) 7 true) none none) := by
    refine Reachable.step hinserted ⟨.commitLink 0, ?_, 7, rfl, by rw [two_setOp_zero]; rfl⟩
    intro i hi
    rcases two_ops hi with h | h <;> cases h
  obtain ⟨hkept, hfile⟩ := manifest_consistent _ hlinked
  exact ⟨_, hlinked, two_idle, rfl, hfile two_idle rfl, fun s' hs' => hkept s' hs' 7 rfl⟩

/-- Dataset 7 is linked after the count of a deletion. The deletion removes the link. -/
theorem delete_removes_link : ∃ s s' : Manifest Nat, Reachable Init (Next fun _ _ => True) s ∧
      Perform (.commitDelete 0) s s' ∧ s.links 7 = true ∧ s'.links 7 = false := by
  have hinit : Reachable Init (Next fun _ _ => True) (two true true (fun _ => false) none none) :=
    .init ⟨two_idle, fun _ => rfl⟩
  have hcounted := Reachable.step hinit
    ⟨.count 0, trivial, rfl, fun _ => rfl, (two_setOp_zero _).symm⟩
  have hinserted := Reachable.step hcounted ⟨.insertLink 1 7, trivial, rfl, rfl,
    two_not_rowDeleted ⟨nofun, nofun⟩ ⟨nofun, nofun⟩, rfl, (two_setOp_one _).symm⟩
  have hlinked : Reachable Init (Next fun _ _ => True)
      (two true true (Function.update (fun _ => false) 7 true) (some .counted) none) := by
    refine Reachable.step hinserted ⟨.commitLink 1, trivial, 7, rfl, ?_⟩
    rw [two_setOp_one]
    rfl
  have hdeleted := Reachable.step hlinked ⟨.deleteRow 0, trivial, rfl,
    two_not_rowDeleted ⟨nofun, nofun⟩ ⟨nofun, nofun⟩, two_notLinking nofun nofun,
    (two_setOp_zero _).symm⟩
  have hremoved := Reachable.step hdeleted ⟨.removeFile 0, trivial, rfl, rfl⟩
  exact ⟨_, _, hremoved, ⟨rfl, rfl⟩, rfl, rfl⟩

/-- A registration has stored its file when a deletion removes it. Then the registration
inserts the row. -/
theorem registered_without_file :
    ∃ s : Manifest Nat, Reachable Init (Next fun _ _ => True) s ∧ s.Idle ∧
      s.registered = true ∧ s.file = false := by
  have hinit : Reachable Init (Next fun _ _ => True) (two true true (fun _ => false) none none) :=
    .init ⟨two_idle, fun _ => rfl⟩
  have hstored : Reachable Init (Next fun _ _ => True)
      (two true true (fun _ => false) none (some .stored)) := by
    refine Reachable.step hinit ⟨.store 1, trivial, rfl, ?_⟩
    rw [two_setOp_one]
    rfl
  have hcounted := Reachable.step hstored
    ⟨.count 0, trivial, rfl, fun _ => rfl, (two_setOp_zero _).symm⟩
  have hdeleted := Reachable.step hcounted ⟨.deleteRow 0, trivial, rfl,
    two_not_rowDeleted ⟨nofun, nofun⟩ ⟨nofun, nofun⟩, two_notLinking nofun nofun,
    (two_setOp_zero _).symm⟩
  have hremoved : Reachable Init (Next fun _ _ => True)
      (two true false (fun _ => false) (some .removed) (some .stored)) := by
    refine Reachable.step hdeleted ⟨.removeFile 0, trivial, rfl, ?_⟩
    rw [two_setOp_zero]
    rfl
  have hcommitted : Reachable Init (Next fun _ _ => True)
      (two false false (fun _ => false) none (some .stored)) := by
    refine Reachable.step hremoved ⟨.commitDelete 0, trivial, rfl, ?_⟩
    rw [two_setOp_zero]
    rfl
  have hinserted : Reachable Init (Next fun _ _ => True)
      (two true false (fun _ => false) none none) := by
    refine Reachable.step hcommitted ⟨.insert 1, trivial, rfl,
      two_not_rowDeleted ⟨nofun, nofun⟩ ⟨nofun, nofun⟩, ?_⟩
    rw [two_setOp_one]
    rfl
  exact ⟨_, hinserted, two_idle, rfl, rfl⟩

/-- Both parts fail without a condition on the interleaving. -/
theorem manifest_inconsistent : (∃ s s' : Manifest Nat, Reachable Init (Next fun _ _ => True) s ∧
      Perform (.commitDelete 0) s s' ∧ s.links 7 = true ∧ s'.links 7 = false) ∧
    (∃ s : Manifest Nat, Reachable Init (Next fun _ _ => True) s ∧ s.Idle ∧
      s.registered = true ∧ s.file = false) :=
  ⟨delete_removes_link, registered_without_file⟩

end Manifest

end CampNode.Datasets

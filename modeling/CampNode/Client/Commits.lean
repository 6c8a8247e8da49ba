import CampNode.Client.Retention

/-!
# CampNode.Client.Commits — the state actor and its store, call by call

The two calls of `StateActor` with the calls that they make to the store, any of which may
fail. A failed call leaves the store as it was and returns at once, so that what was changed in
memory before it stays changed.

* `Kept` is the relation between memory and store: the buffer is the persisted one followed by
  the pending commits.
* `kept_despite_failures`: failures that come before anything was removed from the buffer are
  harmless. A commit that prunes the buffer and then fails is not (`failed_commit_prunes`).
-/

namespace CampNode

variable {β : Type}

/-- The state in memory and what is persisted. -/
structure Actor where
  container : StateContainer
  store : StateSnapshot
deriving DecidableEq, Repr

/-- The calls of the store that fail. -/
structure Faults where
  advance : Bool := false
  truncate : Bool := false
  commit : Bool := false
deriving DecidableEq, Repr

inductive CallError where
  | store
  | actor (error : ActorError)
deriving DecidableEq, Repr

/-- The calls that the stream and its commit handles make. -/
inductive ActorCall (β : Type) where
  | execute (action : StreamAction β)
  | commit (id : Nat)

/-- Nothing to insert and nothing to prune. -/
def Commit.isEmpty (commit : Commit) : Bool := commit.insert.isEmpty && commit.prune.isNone

namespace Actor

/-- The state that is loaded at the start. -/
def load (snapshot : StateSnapshot) : Actor :=
  ⟨⟨snapshot.next, snapshot.buffer, []⟩, snapshot⟩

/-- The container after an id has been taken. -/
def taken (a : Actor) : StateContainer := { a.container with next := a.container.next + 1 }

/-- `StateActor::execute`. If the truncation fails the buffer is cut already, but the pending
commits are not. -/
def execute (retention : Nat) (faults : Faults) (a : Actor) (action : StreamAction β) :
    Actor × Except CallError Unit :=
  let id := a.container.next
  if faults.advance then (⟨a.taken, a.store⟩, .error .store)
  else
    let store := a.store.advance (id + 1)
    match a.taken.execute retention id action with
    | .error e => (⟨a.taken, store⟩, .error (.actor e))
    | .ok done =>
        if done.truncate.isSome && faults.truncate then
          (⟨{ a.taken with buffer := done.container.buffer }, store⟩, .error .store)
        else (⟨done.container, store.after done⟩, .ok ())

/-- The pending commits up to an id. -/
def pendingUpTo (a : Actor) (id : Nat) : List PendingCommit :=
  a.container.uncommitted.takeWhile fun p => decide (p.id ≤ id)

/-- `StateActor::commit`. The buffer is pruned before the store is called. -/
def commit (faults : Faults) (a : Actor) (id : Nat) : Actor × Except CallError Unit :=
  let compressed := Commit.new (a.pendingUpTo id)
  if faults.commit && !(a.pendingUpTo id).isEmpty && !compressed.isEmpty then
    (⟨{ a.container with buffer := pruned compressed.prune a.container.buffer }, a.store⟩,
      .error .store)
  else (⟨(a.container.commit a.store id).1, (a.container.commit a.store id).2⟩, .ok ())

def call (retention : Nat) (faults : Faults) (a : Actor) :
    ActorCall β → Actor × Except CallError Unit
  | .execute action => a.execute retention faults action
  | .commit id => a.commit faults id

/-! ## Systems -/

/-- A snapshot as a store loads it. -/
def Loaded : StatePred Actor := fun a =>
  ∃ snapshot : StateSnapshot, Ascending snapshot.buffer ∧
    (∀ e ∈ snapshot.buffer, e.1 < snapshot.next) ∧ a = load snapshot

/-- A call that returns. A panic ends the run. -/
def Next (β : Type) (retention : Nat) (admits : Actor → ActorCall β → Faults → Prop) :
    Action Actor := fun a a' =>
  ∃ (c : ActorCall β) (faults : Faults) (result : Except CallError Unit),
    admits a c faults ∧ a.call retention faults c = (a', result) ∧
    result ≠ .error (.actor .panicked)

/-- No call of the store fails. -/
def NoFaults (_ : Actor) (_ : ActorCall β) (faults : Faults) : Prop := faults = {}

/-- The buffer in memory without the pending commits. -/
def committed (a : Actor) : List BufferEntry :=
  a.container.buffer.filter fun e => decide (e.1 ∉ a.container.uncommitted.map (·.id))

/-- The buffer in memory is the persisted one followed by the pending commits. -/
structure Kept (a : Actor) : Prop where
  buffer : a.container.buffer = a.store.buffer ++ a.container.uncommitted.map PendingCommit.entry
  ascending : Ascending a.container.buffer
  fresh : ∀ e ∈ a.container.buffer, e.1 < a.container.next
  prunes : ∀ p ∈ a.container.uncommitted, ∀ n ∈ p.prune, n < p.id

theorem Kept.committed_eq {a : Actor} (h : Kept a) : a.committed = a.store.buffer := by
  have hasc := h.ascending
  rw [h.buffer] at hasc
  rcases List.pairwise_append.mp hasc with ⟨-, -, hcross⟩
  unfold committed
  rw [h.buffer, List.filter_append]
  have hstored : a.store.buffer.filter
      (fun e => decide (e.1 ∉ a.container.uncommitted.map (·.id))) = a.store.buffer := by
    refine List.filter_eq_self.mpr ?_
    intro e he
    refine decide_eq_true ?_
    intro hmem
    rcases List.mem_map.mp hmem with ⟨p, hp, hid⟩
    -- the ids of pending commits are greater than those of persisted watermarks
    have hlt : e.1 < p.id := hcross e he p.entry (List.mem_map_of_mem hp)
    omega
  have hpending : (a.container.uncommitted.map PendingCommit.entry).filter
      (fun e => decide (e.1 ∉ a.container.uncommitted.map (·.id))) = [] := by
    refine List.filter_eq_nil_iff.mpr ?_
    intro e he
    rcases List.mem_map.mp he with ⟨p, hp, rfl⟩
    simp only [decide_eq_true_eq, not_not]
    exact List.mem_map.mpr ⟨p, hp, rfl⟩
  rw [hstored, hpending, List.append_nil]

/-! ## Steps -/

section Steps

variable {a a' : Actor} {retention : Nat} {faults : Faults} {result : Except CallError Unit}

theorem load_kept {snapshot : StateSnapshot} (hasc : Ascending snapshot.buffer)
    (hfresh : ∀ e ∈ snapshot.buffer, e.1 < snapshot.next) : Kept (load snapshot) :=
  ⟨(List.append_nil _).symm, hasc, hfresh, nofun⟩

/-- Only the counter in memory was advanced. -/
theorem Kept.taken (h : Kept a) {store : StateSnapshot} (hstore : store.buffer = a.store.buffer) :
    Kept ⟨a.taken, store⟩ := by
  refine ⟨?_, h.ascending, ?_, h.prunes⟩
  · rw [hstore]
    exact h.buffer
  · intro e he
    exact Nat.lt_succ_of_lt (h.fresh e he)

/-- What a call to `execute` can do. -/
theorem execute_outcome {action : StreamAction β}
    (hcall : a.execute retention faults action = (a', result)) :
    (a' = ⟨a.taken, a.store⟩ ∧ faults.advance = true) ∨
    (a' = ⟨a.taken, a.store.advance (a.container.next + 1)⟩ ∧ faults.advance = false) ∨
    ∃ done, a.taken.execute retention a.container.next action = .ok done ∧
      ((a' = ⟨{ a.taken with buffer := done.container.buffer },
          a.store.advance (a.container.next + 1)⟩ ∧ done.truncate.isSome = true ∧
          faults.truncate = true) ∨
        (a' = ⟨done.container, (a.store.advance (a.container.next + 1)).after done⟩ ∧
          result = .ok ())) := by
  unfold execute at hcall
  simp only at hcall
  split at hcall
  · rename_i hadvance
    cases hcall
    exact .inl ⟨rfl, hadvance⟩
  rename_i hadvance
  have hadvance : faults.advance = false := Bool.eq_false_iff.mpr hadvance
  split at hcall
  · cases hcall
    exact .inr (.inl ⟨rfl, hadvance⟩)
  rename_i done hdone
  refine .inr (.inr ⟨done, hdone, ?_⟩)
  split at hcall
  · rename_i htruncate
    cases hcall
    exact .inl ⟨rfl, Bool.and_eq_true_iff.mp htruncate⟩
  · cases hcall
    exact .inr ⟨rfl, rfl⟩

/-- An executed action keeps the relation between memory and store. -/
theorem Kept.executed {action : StreamAction β} {done : Executed β} (h : Kept a)
    (hdone : a.taken.execute retention a.container.next action = .ok done) :
    Kept ⟨done.container, (a.store.advance (a.container.next + 1)).after done⟩ := by
  have htaken : Kept ⟨a.taken, a.store.advance (a.container.next + 1)⟩ := h.taken rfl
  rcases Client.execute_book hdone htaken.buffer htaken.ascending h.fresh htaken.prunes with
    ⟨-, -, hbuffer, hasc, hle, hprunes⟩
  refine ⟨hbuffer, hasc, ?_, hprunes⟩
  intro e he
  rw [(Client.execute_cases hdone).2.1]
  exact Nat.lt_succ_of_le (hle e he)

/-- A commit that succeeds keeps the relation. -/
theorem Kept.commit (h : Kept a) (id : Nat) :
    Kept ⟨(a.container.commit a.store id).1, (a.container.commit a.store id).2⟩ := by
  rcases @Client.commit_book a.container a.store id h.buffer h.ascending h.prunes with
    ⟨hnext, -, hbuffer, hsub, husub⟩
  refine ⟨hbuffer, h.ascending.sublist hsub, ?_, ?_⟩
  · intro e he
    rw [hnext]
    exact h.fresh e (hsub.subset he)
  · intro p hp
    exact h.prunes p (husub.subset hp)

/-- Without failures the counter is persisted in every call. -/
theorem Kept.call_next {c : ActorCall β} (h : Kept a) (hnext : a.store.next = a.container.next)
    (hcall : a.call retention {} c = (a', result)) : a'.store.next = a'.container.next := by
  cases c with
  | execute action =>
    have hexecute : a.execute retention {} action = (a', result) := hcall
    rcases execute_outcome hexecute with ⟨-, hfault⟩ | ⟨rfl, -⟩ |
      ⟨done, hdone, ⟨-, -, hfault⟩ | ⟨rfl, -⟩⟩
    · cases hfault
    · rfl
    · cases hfault
    rw [(Client.execute_cases hdone).2.1]
    unfold StateSnapshot.after
    cases done.truncate with
    | none => rfl
    | some n => rfl
  | commit id =>
    cases hcall
    rcases @Client.commit_book a.container a.store id h.buffer h.ascending h.prunes with
      ⟨hmemory, hstore, -⟩
    rw [hmemory, hstore, hnext]

end Steps

/-! ## Failures -/

/-- Failures of the store that come before anything was removed from the buffer: `advance` may
always fail, a commit if it prunes nothing and a truncation if it cuts nothing. -/
def Harmless (retention : Nat) (a : Actor) : ActorCall β → Faults → Prop
  | .execute action, faults => faults.truncate = true →
      ∀ done, a.taken.execute retention a.container.next action = .ok done →
        ∀ n ∈ done.truncate, ∀ e ∈ a.container.buffer, e.1 < n
  | .commit id, faults => faults.commit = true →
      ∀ n ∈ (Commit.new (a.pendingUpTo id)).prune, ∀ e ∈ a.container.buffer, n < e.1

variable {retention : Nat} {result : Except CallError Unit}

section Failures

variable {a a' : Actor} {faults : Faults}

/-- A truncation that may fail has nothing to cut. -/
theorem Harmless.uncut {action : StreamAction β} {done : Executed β}
    (hharmless : Harmless retention a (.execute action) faults) (hfault : faults.truncate = true)
    (hdone : a.taken.execute retention a.container.next action = .ok done)
    (htruncate : done.truncate.isSome = true) : done.container.buffer = a.container.buffer := by
  rcases Option.isSome_iff_exists.mp htruncate with ⟨n, hn⟩
  have hall := hharmless hfault done hdone n hn
  rcases (Client.execute_cases hdone).2.2 with ⟨hnone, -⟩ | ⟨m, hm, hcut⟩ | ⟨_, _, -, hnone, -⟩
  · rw [hnone] at hn
    cases hn
  · rw [hm] at hn
    cases hn
    rw [hcut]
    exact List.filter_eq_self.mpr fun e he => decide_eq_true (hall e he)
  · rw [hnone] at hn
    cases hn

/-- A commit that fails has nothing to prune. -/
theorem commit_failed {id : Nat} (hcall : a.commit faults id = (a', result))
    (hharmless : Harmless (β := β) retention a (.commit id) faults) :
    a' = a ∨ (a' = ⟨(a.container.commit a.store id).1, (a.container.commit a.store id).2⟩ ∧
      result = .ok ()) := by
  unfold Actor.commit at hcall
  simp only at hcall
  split at hcall
  · rename_i hfault
    cases hcall
    simp only [Bool.and_eq_true] at hfault
    have hsame : pruned (Commit.new (a.pendingUpTo id)).prune a.container.buffer =
        a.container.buffer := Client.pruned_eq (hharmless hfault.1.1)
    rw [hsame]
    exact .inl rfl
  · cases hcall
    exact .inr ⟨rfl, rfl⟩

/-- A call that returns an error of the store leaves the buffer and the pending commits as they
were. -/
theorem call_failed {c : ActorCall β} (hharmless : Harmless retention a c faults)
    (hcall : a.call retention faults c = (a', .error .store)) :
    a'.container.buffer = a.container.buffer ∧
      a'.container.uncommitted = a.container.uncommitted := by
  cases c with
  | execute action =>
    have hexecute : a.execute retention faults action = (a', .error .store) := hcall
    rcases execute_outcome hexecute with ⟨rfl, -⟩ | ⟨rfl, -⟩ |
      ⟨done, hdone, ⟨rfl, htruncate, hfault⟩ | ⟨-, hok⟩⟩
    · exact ⟨rfl, rfl⟩
    · exact ⟨rfl, rfl⟩
    · exact ⟨hharmless.uncut hfault hdone htruncate, rfl⟩
    · cases hok
  | commit id =>
    rcases commit_failed hcall hharmless with rfl | ⟨-, hok⟩
    · exact ⟨rfl, rfl⟩
    · cases hok

end Failures

theorem execute_kept {a a' : Actor} {faults : Faults} {action : StreamAction β}
    (hcall : a.execute retention faults action = (a', result))
    (hharmless : Harmless retention a (.execute action) faults) (h : Kept a) : Kept a' := by
  rcases execute_outcome hcall with ⟨rfl, -⟩ | ⟨rfl, -⟩ |
    ⟨done, hdone, ⟨rfl, htruncate, hfault⟩ | ⟨rfl, -⟩⟩
  · exact h.taken rfl
  · exact h.taken rfl
  · rw [hharmless.uncut hfault hdone htruncate]
    exact h.taken rfl
  · exact h.executed hdone

theorem commit_kept {a a' : Actor} {faults : Faults} {id : Nat}
    (hcall : a.commit faults id = (a', result))
    (hharmless : Harmless (β := β) retention a (.commit id) faults) (h : Kept a) : Kept a' := by
  rcases commit_failed hcall hharmless with rfl | ⟨rfl, -⟩
  · exact h
  · exact h.commit id

theorem init_kept : ∀ a : Actor, Loaded a → Kept a := by
  rintro a ⟨snapshot, hasc, hfresh, rfl⟩
  exact load_kept hasc hfresh

theorem step_kept :
    ∀ a a' : Actor, Next β retention (Harmless retention) a a' → Kept a → Kept a' := by
  rintro a a' ⟨c, faults, result, hharmless, hcall, -⟩ h
  cases c with
  | execute action => exact execute_kept hcall hharmless h
  | commit id => exact commit_kept hcall hharmless h

/-- If failures come before anything is removed, the buffer without the pending commits is the
persisted one after every call, and one that returns an error of the store leaves both buffers and
the pending commits as they were. -/
theorem kept_despite_failures (retention : Nat) (a : Actor)
    (h : Reachable Loaded (Next β retention (Harmless retention)) a) :
    a.committed = a.store.buffer ∧
      ∀ (c : ActorCall β) (faults : Faults) (a' : Actor), Harmless retention a c faults →
        a.call retention faults c = (a', .error .store) →
          a'.container.buffer = a.container.buffer ∧
          a'.container.uncommitted = a.container.uncommitted ∧
          a'.committed = a'.store.buffer := by
  have hkept := init_invariant Loaded _ Kept init_kept (@step_kept β retention)
  refine ⟨(hkept a h).committed_eq, ?_⟩
  intro c faults a' hharmless hcall
  obtain ⟨hbuffer, huncommitted⟩ := call_failed hharmless hcall
  have hnext := h.step ⟨c, faults, _, hharmless, hcall, nofun⟩
  exact ⟨hbuffer, huncommitted, (hkept a' hnext).committed_eq⟩

/-- The first two of three watermarks, the first of them committed. -/
def twoExecuted : Actor where
  container := ⟨2, [threeWatermarks[0], threeWatermarks[1]], [⟨1, threeWatermarks[1].2, some 0⟩]⟩
  store := ⟨[threeWatermarks[0]], 2⟩

theorem twoExecuted_reachable {admits : Actor → ActorCall Unit → Faults → Prop}
    (hadmits : ∀ a c, admits a c {}) : Reachable Loaded (Next Unit 0 admits) twoExecuted := by
  have h : Reachable Loaded (Next Unit 0 admits) (load ⟨[], 0⟩) :=
    .init ⟨⟨[], 0⟩, List.Pairwise.nil, nofun, rfl⟩
  have h := h.step ⟨.execute (.message (.watermark threeWatermarks[0].2)), {}, .ok (),
    hadmits _ _, rfl, nofun⟩
  have h := h.step ⟨.execute (.message (.watermark threeWatermarks[1].2)), {}, .ok (),
    hadmits _ _, rfl, nofun⟩
  exact h.step ⟨.commit 0, {}, .ok (), hadmits _ _, rfl, nofun⟩

/-- The first watermark, executed again after the counter could not be advanced. -/
def executedAgain : Actor where
  container := ⟨2, [(1, threeWatermarks[0].2)], [⟨1, threeWatermarks[0].2, none⟩]⟩
  store := ⟨[], 2⟩

/-- Its commit fails, with nothing to prune. -/
theorem kept_after_failed_commit :
    ∃ a', executedAgain.commit { commit := true } 1 = (a', .error .store) ∧
      a'.container.buffer = [(1, threeWatermarks[0].2)] ∧ a'.committed = a'.store.buffer := by
  have hloaded : Reachable Loaded (Next Unit 0 (Harmless 0)) (load ⟨[], 0⟩) :=
    .init ⟨⟨[], 0⟩, List.Pairwise.nil, nofun, rfl⟩
  have hadvance := hloaded.step ⟨.execute (.message (.watermark threeWatermarks[0].2)),
    { advance := true }, .error .store, nofun, rfl, nofun⟩
  have hagain : Reachable Loaded (Next Unit 0 (Harmless 0)) executedAgain :=
    hadvance.step ⟨.execute (.message (.watermark threeWatermarks[0].2)), {}, .ok (), nofun, rfl,
      nofun⟩
  obtain ⟨hbuffer, -, hcommitted⟩ := (kept_despite_failures 0 executedAgain hagain).2 (.commit 1)
    { commit := true } _ nofun rfl
  exact ⟨_, rfl, hbuffer, hcommitted⟩

/-- The second commit prunes the first watermark in memory and then fails: it is still persisted,
but no longer in the buffer. -/
theorem failed_commit_prunes : Reachable Loaded (Next Unit 0 NoFaults) twoExecuted ∧
    ∃ a, twoExecuted.commit { commit := true } 1 = (a, .error .store) ∧
      a.store.buffer = [threeWatermarks[0]] ∧ a.committed = [] :=
  ⟨twoExecuted_reachable fun _ _ => rfl, _, rfl, rfl, rfl⟩

end Actor

end CampNode

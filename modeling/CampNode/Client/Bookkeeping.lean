import CampNode.Client.Transactional
import Mathlib.Data.List.TakeWhile

/-!
# CampNode.Client.Bookkeeping — ids and watermarks of a client

Facts about every run of a client, whatever the server sends: transaction ids grow,
watermarks are kept in the order of their ids, and the buffer in memory is the
persisted one followed by the pending commits. A pruning point lies before the
watermark it belongs to, so that a commit never prunes what is still pending.
-/

namespace CampNode

open List PendingCommit StateContainer

variable {β : Type}

/-- The watermark of a pending commit. -/
def PendingCommit.entry (p : PendingCommit) : BufferEntry := (p.id, p.ranges)

/-- Watermarks in the order of their ids. -/
def Ascending (buffer : List BufferEntry) : Prop := buffer.Pairwise fun a b => a.1 < b.1

/-- The last watermark is the latest. -/
theorem Ascending.last {buffer : List BufferEntry} {e last : BufferEntry} (h : Ascending buffer)
    (hlast : buffer.getLast? = some last) (he : e ∈ buffer) : e = last ∨ e.1 < last.1 := by
  rcases getLast?_eq_some_iff.mp hlast with ⟨older, rfl⟩
  rcases mem_append.mp he with he | he
  · exact .inr ((pairwise_append.mp h).2.2 e he last (by simp))
  · exact .inl (mem_singleton.mp he)

namespace Client

/-- The events that reached the consumer or are on their way. -/
def emitted (c : Client β) : List (TransactionEvent β) :=
  (c.session.bind (·.outbox)).toList ++ c.delivered

/-- A watermark that is kept in the store or in memory. -/
def Holds (c : Client β) (e : BufferEntry) : Prop :=
  e ∈ c.store.buffer ∨ ∃ s ∈ c.session, e ∈ s.container.buffer

/-- The bookkeeping of a connection. -/
structure SessionBook (c : Client β) (s : Session β) : Prop where
  next : s.container.next = c.store.next
  buffer : s.container.buffer = c.store.buffer ++ s.container.uncommitted.map PendingCommit.entry
  ascending : Ascending s.container.buffer
  fresh : ∀ e ∈ s.container.buffer, e.1 < c.store.next
  prunes : ∀ p ∈ s.container.uncommitted, ∀ n ∈ p.prune, n < p.id
  allocated : ∀ id ∈ s.allocated, id + 1 = c.store.next ∧ s.outbox = none ∧
    (∀ e ∈ c.delivered, e.id < id) ∧ ∀ e ∈ s.container.buffer, e.1 < id
  handles : ∀ id ∈ s.handles, ∃ e ∈ c.delivered, e.id = id

structure Book (c : Client β) : Prop where
  ids : c.emitted.Pairwise fun later earlier => earlier.id < later.id
  fresh : ∀ e ∈ c.emitted, e.id < c.store.next
  ascending : Ascending c.store.buffer
  stored : ∀ e ∈ c.store.buffer, e.1 < c.store.next
  session : ∀ s ∈ c.session, SessionBook c s

/-! ## The functions of the actor -/

variable {retention n id : Nat} {buffer : List BufferEntry} {s : StateContainer}
  {store : StateSnapshot} {e : BufferEntry} {done : Executed β} {action : StreamAction β}

theorem lastOutside_mem {latest : List BlockRange} {last : Option Nat}
    (h : lastOutside latest retention last buffer = some (some n)) :
    last = some n ∨ ∃ e ∈ buffer, e.1 = n := by
  induction buffer generalizing last with
  | nil =>
    simp only [lastOutside, Option.some.injEq] at h
    exact .inl h
  | cons e rest ih =>
    simp only [lastOutside] at h
    split at h
    · cases h
    · rcases ih h with hlast | ⟨e', he', hn⟩
      · exact .inr ⟨e, by simp, Option.some.inj hlast⟩
      · exact .inr ⟨e', mem_cons_of_mem _ he', hn⟩
    · exact .inl (Option.some.inj h)

/-- A pruning point is the id of a watermark before the last one. -/
theorem findPruningPoint_mem {last : BufferEntry}
    (h : findPruningPoint (buffer ++ [last]) retention = some (some n)) :
    ∃ e ∈ buffer, e.1 = n := by
  unfold findPruningPoint at h
  rw [getLast?_concat] at h
  simp only at h
  split at h
  · simp at h
  · rw [dropLast_concat] at h
    rcases lastOutside_mem h with hnone | he
    · cases hnone
    · exact he

theorem pruned_append (prune : Option Nat) (l l' : List BufferEntry) :
    pruned prune (l ++ l') = pruned prune l ++ pruned prune l' := by
  unfold pruned
  split
  · rfl
  · rw [filter_append]

theorem pruned_sublist (prune : Option Nat) (l : List BufferEntry) : (pruned prune l).Sublist l := by
  unfold pruned
  split
  · exact List.Sublist.refl _
  · exact filter_sublist

/-- Nothing is pruned where the pruning point lies before all ids. -/
theorem pruned_eq {prune : Option Nat} {l : List BufferEntry}
    (h : ∀ n ∈ prune, ∀ e ∈ l, n < e.1) : pruned prune l = l := by
  unfold pruned
  split
  · rfl
  · rename_i n
    refine filter_eq_self.mpr ?_
    intro e he
    exact decide_eq_true (h n rfl e he)

theorem maxPrune_mem {pending : List PendingCommit} (h : maxPrune pending = some n) :
    ∃ p ∈ pending, p.prune = some n := by
  induction pending generalizing n with
  | nil => simp [maxPrune] at h
  | cons p rest ih =>
    have hrest : ∀ {k}, maxPrune rest = some k → ∃ p' ∈ p :: rest, p'.prune = some k := by
      intro k hk
      rcases ih hk with ⟨p', hp', hprune⟩
      exact ⟨p', mem_cons_of_mem _ hp', hprune⟩
    simp only [maxPrune] at h
    split at h
    · exact hrest h
    · rename_i a hp hnone
      cases h
      exact ⟨p, by simp, hp⟩
    rename_i a b hp hb
    simp only [Option.some.injEq] at h
    rcases Nat.le_total a b with hab | hab
    · rw [Nat.max_eq_right hab] at h
      subst h
      exact hrest hb
    · rw [Nat.max_eq_left hab] at h
      subst h
      exact ⟨p, by simp, hp⟩

/-- What a commit does to the buffers. -/
theorem commit_book {id : Nat}
    (hbuffer : s.buffer = store.buffer ++ s.uncommitted.map entry)
    (hasc : Ascending s.buffer) (hprunes : ∀ p ∈ s.uncommitted, ∀ n ∈ p.prune, n < p.id) :
    (s.commit store id).1.next = s.next ∧ (s.commit store id).2.next = store.next ∧
      (s.commit store id).1.buffer = (s.commit store id).2.buffer ++
        (s.commit store id).1.uncommitted.map entry ∧
      (s.commit store id).1.buffer.Sublist s.buffer ∧
      (s.commit store id).1.uncommitted.Sublist s.uncommitted := by
  unfold commit
  simp only
  split
  · exact ⟨rfl, rfl, hbuffer, List.Sublist.refl _, List.Sublist.refl _⟩
  refine ⟨rfl, rfl, ?_, pruned_sublist _ _, dropWhile_sublist _⟩
  let pending := s.uncommitted.takeWhile fun p => decide (p.id ≤ id)
  let rest := s.uncommitted.dropWhile fun p => decide (p.id ≤ id)
  have hsplit : s.uncommitted = pending ++ rest := (takeWhile_append_dropWhile).symm
  have hpair : (pending ++ rest).Pairwise fun a b => a.id < b.id := by
    rw [hbuffer] at hasc
    have := (pairwise_append.mp hasc).2.1
    rw [hsplit, pairwise_map] at this
    exact this
  -- what is still pending comes after all pruning points
  have hrest : pruned (maxPrune pending) (rest.map entry) = rest.map entry := by
    refine pruned_eq ?_
    intro n hn e he
    rcases maxPrune_mem hn with ⟨p, hp, hprune⟩
    rcases mem_map.mp he with ⟨p', hp', rfl⟩
    have hlt := hprunes p (by rw [hsplit]; exact mem_append_left _ hp) n hprune
    exact hlt.trans ((pairwise_append.mp hpair).2.2 p hp p' hp')
  show pruned (maxPrune pending) s.buffer = pruned (maxPrune pending) store.buffer ++
    pruned (maxPrune pending) (pending.map entry) ++ rest.map entry
  rw [hbuffer, hsplit, map_append, pruned_append, pruned_append, hrest, append_assoc]

/-- A commit persists watermarks up to the id. -/
theorem commit_stored (he : e ∈ (s.commit store id).2.buffer) : e ∈ store.buffer ∨ e.1 ≤ id := by
  unfold commit at he
  simp only at he
  split at he
  · exact .inl he
  rcases mem_append.mp he with he | he
  · exact .inl ((pruned_sublist _ _).subset he)
  · rcases mem_map.mp ((pruned_sublist _ _).subset he) with ⟨p, hp, rfl⟩
    have hle := mem_takeWhile_imp hp
    exact .inr (of_decide_eq_true hle)

/-- A commit never loses the latest persisted watermark without a later one. -/
theorem commit_grows (hbuffer : s.buffer = store.buffer ++ s.uncommitted.map entry)
    (hasc : Ascending s.buffer) (hprunes : ∀ p ∈ s.uncommitted, ∀ n ∈ p.prune, n < p.id)
    (he : e ∈ store.buffer) :
    ∃ e' ∈ (s.commit store id).2.buffer, e.1 ≤ e'.1 := by
  unfold commit
  simp only
  split
  · exact ⟨e, he, Nat.le_refl _⟩
  rename_i hempty
  let pending := s.uncommitted.takeWhile fun p => decide (p.id ≤ id)
  have hne : pending ≠ [] := fun hnil => hempty (isEmpty_iff.mpr hnil)
  let last := pending.getLast hne
  have hsub : pending.Sublist s.uncommitted := takeWhile_sublist _
  have hmem : last ∈ pending := getLast_mem hne
  rw [hbuffer] at hasc
  -- the last pending watermark is later than all persisted ones, and is not pruned
  refine ⟨last.entry, mem_append_right _ ?_, ?_⟩
  · show last.entry ∈ pruned (maxPrune pending) (pending.map entry)
    have hentry := mem_map_of_mem (f := entry) hmem
    unfold pruned
    split
    · exact hentry
    rename_i n hn
    rcases maxPrune_mem hn with ⟨p, hp, hprune⟩
    refine mem_filter.mpr ⟨hentry, decide_eq_true ?_⟩
    have hlt := hprunes p (hsub.subset hp) n hprune
    have hpending : Ascending (pending.map entry) :=
      (pairwise_append.mp hasc).2.1.sublist (hsub.map _)
    have hlast : (pending.map entry).getLast? = some last.entry := by
      rw [getLast?_map, getLast?_eq_some_getLast hne]
      rfl
    rcases hpending.last hlast (mem_map_of_mem hp) with heq | hlt'
    · rw [← heq]
      exact hlt
    · exact hlt.trans hlt'
  · have := (pairwise_append.mp hasc).2.2 e he last.entry
      (mem_map_of_mem (hsub.subset hmem))
    exact Nat.le_of_lt this

/-- An executed watermark is appended, in memory only, with its pruning point. -/
theorem executeWatermark_ok {ranges : List BlockRange}
    (h : s.execute retention id (.message (.watermark ranges)) = .ok done) :
    ∃ prune, findPruningPoint (s.buffer ++ [(id, ranges)]) retention = some prune ∧ done = ⟨{ s with
        buffer := s.buffer ++ [(id, ranges)]
        uncommitted := s.uncommitted ++ [⟨id, ranges, prune⟩] },
        none, .watermark id ranges prune⟩ := by
  simp only [execute, executeWatermark] at h
  split at h
  · cases h
  · rename_i prune hprune
    exact ⟨prune, hprune, (Except.ok.inj h).symm⟩

/-- What an executed action does to the buffers: it cuts all of them back to the same
id, or it adds a watermark, or it leaves them alone. -/
theorem execute_cases (h : s.execute retention id action = .ok done) :
    done.event.id = id ∧ done.container.next = s.next ∧
    ((done.truncate = none ∧ done.container = s) ∨
      (∃ n, done.truncate = some n ∧ done.container = s.cutBack n) ∨
      ∃ ranges prune, action = .message (.watermark ranges) ∧ done.truncate = none ∧
        findPruningPoint (s.buffer ++ [(id, ranges)]) retention = some prune ∧
        done.container.buffer = s.buffer ++ [(id, ranges)] ∧
        done.container.uncommitted = s.uncommitted ++ [⟨id, ranges, prune⟩]) := by
  cases action with
  | rewind =>
    cases h
    exact ⟨rfl, rfl, .inl ⟨rfl, rfl⟩⟩
  | message m =>
    cases m with
    | data batch ranges =>
      cases h
      exact ⟨rfl, rfl, .inl ⟨rfl, rfl⟩⟩
    | watermark ranges =>
      rcases executeWatermark_ok h with ⟨prune, hprune, rfl⟩
      exact ⟨rfl, rfl, .inr (.inr ⟨ranges, prune, rfl, rfl, hprune, rfl, rfl⟩)⟩
    | reorg old incoming invalidation =>
      simp only [execute, executeReorg] at h
      split at h
      · split at h
        · cases h
          exact ⟨rfl, rfl, .inr (.inl ⟨1, rfl, rfl⟩)⟩
        · cases h
      · rename_i tx ranges hrecovery
        split at h
        · cases h
        · cases h
          exact ⟨rfl, rfl, .inr (.inl ⟨tx + 1, rfl, rfl⟩)⟩

theorem execute_book (h : s.execute retention id action = .ok done)
    (hbuffer : s.buffer = store.buffer ++ s.uncommitted.map entry)
    (hasc : Ascending s.buffer) (hfresh : ∀ e ∈ s.buffer, e.1 < id)
    (hprunes : ∀ p ∈ s.uncommitted, ∀ n ∈ p.prune, n < p.id) :
    (store.after done).next = store.next ∧ (store.after done).buffer.Sublist store.buffer ∧
      done.container.buffer = (store.after done).buffer ++ done.container.uncommitted.map entry ∧
      Ascending done.container.buffer ∧ (∀ e ∈ done.container.buffer, e.1 ≤ id) ∧
      ∀ p ∈ done.container.uncommitted, ∀ n ∈ p.prune, n < p.id := by
  rcases (execute_cases h).2.2 with ⟨htrunc, hc⟩ | ⟨n, htrunc, hc⟩ |
    ⟨ranges, prune, -, htrunc, hprune, hb, hu⟩
  · unfold StateSnapshot.after
    rw [htrunc, hc]
    exact ⟨rfl, List.Sublist.refl _, hbuffer, hasc, fun e he => Nat.le_of_lt (hfresh e he), hprunes⟩
  · unfold StateSnapshot.after
    rw [htrunc, hc]
    refine ⟨rfl, filter_sublist, ?_, hasc.filter _, ?_, ?_⟩
    · show s.buffer.filter _ = store.buffer.filter _ ++ (s.uncommitted.filter _).map _
      rw [hbuffer, filter_append, filter_map]
      rfl
    · intro e he
      exact Nat.le_of_lt (hfresh e (mem_of_mem_filter he))
    · intro p hp
      exact hprunes p (mem_of_mem_filter hp)
  · unfold StateSnapshot.after
    rw [htrunc, hb, hu]
    refine ⟨rfl, List.Sublist.refl _, ?_, ?_, ?_, ?_⟩
    · rw [hbuffer, map_append, append_assoc]
      rfl
    · refine pairwise_append.mpr ⟨hasc, pairwise_singleton _ _, ?_⟩
      intro a ha b hb
      rw [mem_singleton.mp hb]
      exact hfresh a ha
    · intro e he
      rcases mem_append.mp he with he | he
      · exact Nat.le_of_lt (hfresh e he)
      · rw [mem_singleton.mp he]
    · intro p hp n hn
      rcases mem_append.mp hp with hp | hp
      · exact hprunes p hp n hn
      cases mem_singleton.mp hp
      have hsome : prune = some n := hn
      rw [hsome] at hprune
      rcases findPruningPoint_mem hprune with ⟨e, he, rfl⟩
      exact hfresh e he

/-- An executed message brings the ranges of its response. -/
theorem execute_message {response : ResponseBatch β}
    (h : s.execute retention id (.message response.message) = .ok done) :
    done.truncate = none ∧ ((∃ batch, done.event = .data id batch response.ranges) ∨
      ∃ prune, done.event = .watermark id response.ranges prune) := by
  unfold ResponseBatch.message at h
  split at h
  · rcases executeWatermark_ok h with ⟨prune, -, rfl⟩
    exact ⟨rfl, .inr ⟨prune, rfl⟩⟩
  · cases h
    exact ⟨rfl, .inl ⟨_, rfl⟩⟩

variable {invalidation : List InvalidationRange}

theorem findRecoveryPoint_some (h : findRecoveryPoint buffer invalidation = some e) :
    e ∈ buffer ∧ affected invalidation e.2 = false := by
  refine ⟨mem_reverse.mp (mem_of_find?_eq_some h), ?_⟩
  simpa using find?_some h

/-- A reorg that is executed recovers to a watermark, or there is none. -/
theorem executeReorg_ok (h : s.executeReorg id invalidation = .ok done) :
    (∃ e, findRecoveryPoint s.buffer invalidation = some e ∧
        partialReorg invalidation e.2 = false ∧ done.truncate = some (e.1 + 1) ∧
        done.event = .undo id (.reorg invalidation) ⟨e.1 + 1, id - 1⟩) ∨
      (s.buffer = [] ∧ done.event = .undo id (.reorg invalidation) ⟨0, id - 1⟩) := by
  unfold executeReorg at h
  split at h
  · split at h
    · rename_i hempty
      cases h
      exact .inr ⟨isEmpty_iff.mp hempty, rfl⟩
    · cases h
  · rename_i tx ranges hrecovery
    split at h
    · cases h
    · rename_i hpartial
      cases h
      exact .inl ⟨(tx, ranges), hrecovery, by simpa using hpartial, rfl, rfl⟩

/-- An undo takes back everything after the watermarks that remain. -/
theorem execute_undo {retention id id' : Nat} {cause : Cause} {range : RangeInclusive}
    (h : s.execute retention id action = .ok done) (hevent : done.event = .undo id' cause range)
    (hasc : Ascending s.buffer) :
    range.stop = id - 1 ∧ (∀ e ∈ s.buffer, (∀ n ∈ done.truncate, e.1 < n) → e.1 < range.start) ∧
      (action = .rewind → ∀ i, (∀ e ∈ s.buffer, e.1 < i) → range.start ≤ i) := by
  cases action with
  | rewind =>
    cases h
    cases hevent
    unfold rewindRange
    cases hlast : s.buffer.getLast? with
    | none =>
      have hnil : s.buffer = [] := getLast?_eq_none_iff.mp hlast
      exact ⟨rfl, by simp [hnil], fun _ _ _ => Nat.zero_le _⟩
    | some last =>
      refine ⟨rfl, ?_, ?_⟩
      · intro e he _
        rcases hasc.last hlast he with rfl | hlt
        · exact Nat.lt_succ_self _
        · exact Nat.lt_succ_of_lt hlt
      · intro _ i hi
        exact hi last (mem_of_mem_getLast? hlast)
  | message m =>
    cases m with
    | data batch ranges =>
      cases h
      cases hevent
    | watermark ranges =>
      rcases executeWatermark_ok h with ⟨prune, -, rfl⟩
      cases hevent
    | reorg old incoming invalidation =>
      rcases executeReorg_ok h with ⟨e₀, -, -, htruncate, hundo⟩ | ⟨hnil, hundo⟩
      · rw [hundo] at hevent
        cases hevent
        exact ⟨rfl, fun e _ hcut => hcut _ htruncate, nofun⟩
      · rw [hundo] at hevent
        cases hevent
        exact ⟨rfl, by simp [hnil], nofun⟩

/-- What is kept after an executed action was in memory before and survives the
truncation, or is the watermark just executed. -/
theorem executed_mem (h : s.execute retention id action = .ok done)
    (hbuffer : s.buffer = store.buffer ++ s.uncommitted.map entry)
    (he : e ∈ (store.after done).buffer ∨ e ∈ done.container.buffer) :
    (e ∈ s.buffer ∧ ∀ n ∈ done.truncate, e.1 < n) ∨
      ∃ ranges, action = .message (.watermark ranges) ∧ e = (id, ranges) := by
  have hstore : ∀ {e}, e ∈ store.buffer → e ∈ s.buffer := by
    intro e he
    rw [hbuffer]
    exact mem_append_left _ he
  unfold StateSnapshot.after at he
  rcases (execute_cases h).2.2 with ⟨htrunc, hc⟩ | ⟨n, htrunc, hc⟩ |
    ⟨ranges, prune, haction, htrunc, -, hb, -⟩
  · rw [htrunc, hc] at he
    rw [htrunc]
    rcases he with he | he
    · exact .inl ⟨hstore he, nofun⟩
    · exact .inl ⟨he, nofun⟩
  · rw [htrunc, hc] at he
    rw [htrunc]
    refine .inl ?_
    rcases he with he | he
    · rcases mem_filter.mp he with ⟨he, hlt⟩
      refine ⟨hstore he, ?_⟩
      rintro m ⟨⟩
      exact of_decide_eq_true hlt
    · rcases mem_filter.mp he with ⟨he, hlt⟩
      refine ⟨he, ?_⟩
      rintro m ⟨⟩
      exact of_decide_eq_true hlt
  · rw [htrunc, hb] at he
    rw [htrunc]
    rcases he with he | he
    · exact .inl ⟨hstore he, nofun⟩
    · rcases mem_append.mp he with he | he
      · exact .inl ⟨he, nofun⟩
      · exact .inr ⟨ranges, haction, mem_singleton.mp he⟩

/-- The watermarks that remain lie before the range of an undo. -/
theorem kept_before_undo {retention id id' : Nat} {cause : Cause} {range : RangeInclusive}
    (h : s.execute retention id action = .ok done) (hevent : done.event = .undo id' cause range)
    (hbuffer : s.buffer = store.buffer ++ s.uncommitted.map entry)
    (hasc : Ascending s.buffer) (he : e ∈ (store.after done).buffer ∨ e ∈ done.container.buffer) :
    e.1 < range.start := by
  rcases executed_mem h hbuffer he with ⟨hmem, hkept⟩ | ⟨ranges, rfl, -⟩
  · exact (execute_undo h hevent hasc).2.1 e hmem hkept
  · rcases executeWatermark_ok h with ⟨prune, -, rfl⟩
    cases hevent

/-! ## Steps -/

section Steps

variable {c c' : Client β}

/-- The client after an executed action. -/
def executed (c : Client β) (s : Session β) (rest : List (StreamAction β)) (done : Executed β) :
    Client β :=
  { c with
    store := c.store.after done
    session := some { s with
      container := done.container
      queue := rest
      allocated := none
      outbox := some done.event } }

/-- The client after an action that failed. -/
def failed (c : Client β) (s : Session β) : Client β :=
  { c with session := some { s with allocated := none, failed := true } }

variable {retention : Nat}

/-- What is known when an action is executed. -/
theorem execute_inversion (hstep : Execute retention c c') :
    ∃ s id action rest, c.session = some s ∧ s.failed = false ∧ s.allocated = some id ∧
      s.queue = action :: rest ∧
      (c' = c.failed s ∨ ∃ done, s.container.execute retention id action = .ok done ∧
        c' = c.executed s rest done) := by
  rcases hstep with ⟨s, id, action, rest, hs, hfailed, halloc, hqueue, hc'⟩
  refine ⟨s, id, action, rest, hs, hfailed, halloc, hqueue, ?_⟩
  split at hc'
  · exact .inl hc'
  · rename_i done hdone
    exact .inr ⟨done, hdone, hc'⟩

theorem executed_holds {retention id : Nat} {s : Session β} {action : StreamAction β}
    {rest : List (StreamAction β)} {done : Executed β} {e : BufferEntry} (hbook : SessionBook c s)
    (hdone : s.container.execute retention id action = .ok done)
    (he : (c.executed s rest done).Holds e) :
    (e ∈ s.container.buffer ∧ ∀ n ∈ done.truncate, e.1 < n) ∨
      ∃ ranges, action = .message (.watermark ranges) ∧ e = (id, ranges) := by
  refine executed_mem hdone hbook.buffer ?_
  rcases he with he | ⟨s', hs', he⟩
  · exact .inl he
  · cases hs'
    exact .inr he

/-- A step that sends no event and does not touch the watermarks. -/
theorem Book.frame (h : Book c) (hemitted : c'.emitted = c.emitted)
    (hstore : c'.store.buffer = c.store.buffer) (hnext : c.store.next ≤ c'.store.next)
    (hsession : ∀ s ∈ c'.session, SessionBook c' s) : Book c' := by
  refine ⟨?_, ?_, ?_, ?_, hsession⟩
  · rw [hemitted]
    exact h.ids
  · intro e he
    rw [hemitted] at he
    exact (h.fresh e he).trans_le hnext
  · rw [hstore]
    exact h.ascending
  · intro e he
    rw [hstore] at he
    exact (h.stored e he).trans_le hnext

theorem connect_book (hstep : Connect c c') (h : Book c) : Book c' := by
  rcases hstep with ⟨hnone, rfl⟩
  refine h.frame (by simp [emitted, hnone, openSession]) rfl (Nat.le_refl _) ?_
  intro s hs
  cases hs
  exact ⟨rfl, (append_nil _).symm, h.ascending, h.stored, by simp [openSession],
    by simp [openSession], by simp [openSession]⟩

theorem respond_book {response : ResponseBatch β} (hstep : Respond response c c') (h : Book c) :
    Book c' := by
  rcases hstep with ⟨s, hs, -, -, -, hout, hc'⟩
  have hbook := h.session s hs
  split at hc'
  · subst hc'
    refine h.frame (by simp [emitted, hs]) rfl (Nat.le_refl _) ?_
    intro s' hs'
    cases hs'
    exact { hbook with }
  · subst hc'
    refine h.frame (by simp [emitted, hs]) rfl (Nat.le_refl _) ?_
    intro s' hs'
    cases hs'
    exact { hbook with }

theorem allocate_book (hstep : Allocate c c') (h : Book c) : Book c' := by
  rcases hstep with ⟨s, hs, -, -, -, hout, rfl⟩
  have hbook := h.session s hs
  have hnext := hbook.next
  refine h.frame (by simp [emitted, hs, hout]) rfl ?_ ?_
  · show c.store.next ≤ s.container.next + 1
    omega
  intro s' hs'
  cases hs'
  refine { hbook with next := rfl, fresh := ?_, allocated := ?_ }
  · intro e he
    have := hbook.fresh e he
    show e.1 < s.container.next + 1
    omega
  intro id hid
  cases hid
  refine ⟨rfl, hout, ?_, ?_⟩
  · intro e he
    rw [hnext]
    exact h.fresh e (mem_append_right _ he)
  · intro e he
    rw [hnext]
    exact hbook.fresh e he

theorem execute_inv_book (hstep : Execute retention c c') (h : Book c) : Book c' := by
  rcases execute_inversion hstep with
    ⟨s, id, action, rest, hs, -, halloc, hqueue, rfl | ⟨done, hdone, rfl⟩⟩
  · have hbook := h.session s hs
    refine h.frame (by simp [failed, emitted, hs]) rfl (Nat.le_refl _) ?_
    intro s' hs'
    cases hs'
    exact { hbook with allocated := by simp }
  have hbook := h.session s hs
  rcases hbook.allocated id halloc with ⟨hnext, hout, hids, hentries⟩
  have hemitted : c.emitted = c.delivered := by simp [emitted, hs, hout]
  rcases execute_book hdone hbook.buffer hbook.ascending hentries hbook.prunes with
    ⟨hsnext, hsub, hbuffer, hasc, hle, hprunes⟩
  rcases execute_cases hdone with ⟨hid, hcnext, -⟩
  refine ⟨?_, ?_, h.ascending.sublist hsub, ?_, ?_⟩
  · show (done.event :: c.delivered).Pairwise _
    refine pairwise_cons.mpr ⟨?_, ?_⟩
    · intro e he
      rw [hid]
      exact hids e he
    · rw [← hemitted]
      exact h.ids
  · intro e he
    show e.id < (c.store.after done).next
    rw [hsnext]
    rcases mem_cons.mp (show e ∈ done.event :: c.delivered from he) with rfl | he
    · omega
    · exact h.fresh e (mem_append_right _ he)
  · intro e he
    show e.1 < (c.store.after done).next
    rw [hsnext]
    exact h.stored e (hsub.subset he)
  · intro s' hs'
    cases hs'
    refine ⟨?_, hbuffer, hasc, ?_, hprunes, by simp, hbook.handles⟩
    · show done.container.next = (c.store.after done).next
      rw [hcnext, hsnext]
      exact hbook.next
    · intro e he
      have := hle e he
      show e.1 < (c.store.after done).next
      omega

theorem deliver_book (hstep : Deliver c c') (h : Book c) : Book c' := by
  rcases hstep with ⟨s, event, hs, hout, rfl⟩
  have hbook := h.session s hs
  refine h.frame (by simp [emitted, hs, hout]) rfl (Nat.le_refl _) ?_
  intro s' hs'
  cases hs'
  refine { hbook with allocated := ?_, handles := ?_ }
  · -- while the lock is held no event is on its way
    intro id hid
    have := (hbook.allocated id hid).2.1
    rw [hout] at this
    cases this
  · intro id hid
    rcases mem_cons.mp hid with rfl | hid
    · exact ⟨event, mem_cons_self, rfl⟩
    · rcases hbook.handles id hid with ⟨e, he, hide⟩
      exact ⟨e, mem_cons_of_mem _ he, hide⟩

theorem commitHandle_book (hstep : CommitHandle c c') (h : Book c) : Book c' := by
  rcases hstep with ⟨s, id, hs, halloc, -, rfl⟩
  have hbook := h.session s hs
  rcases @commit_book s.container c.store id hbook.buffer hbook.ascending hbook.prunes with
    ⟨hcnext, hsnext, hbuffer, hsub, husub⟩
  have hasc : Ascending (s.container.commit c.store id).1.buffer := hbook.ascending.sublist hsub
  have hstored : ∀ e ∈ (s.container.commit c.store id).2.buffer, e ∈ s.container.buffer := by
    intro e he
    refine hsub.subset ?_
    rw [hbuffer]
    exact mem_append_left _ he
  have hemitted : ({ c with
      store := (s.container.commit c.store id).2
      session := some { s with container := (s.container.commit c.store id).1 } } :
        Client β).emitted = c.emitted := by simp [emitted, hs]
  refine ⟨?_, ?_, ?_, ?_, ?_⟩
  · rw [hemitted]
    exact h.ids
  · intro e he
    rw [hemitted] at he
    rw [hsnext]
    exact h.fresh e he
  · rw [hbuffer] at hasc
    exact (pairwise_append.mp hasc).1
  · intro e he
    rw [hsnext]
    exact hbook.fresh e (hstored e he)
  · intro s' hs'
    cases hs'
    refine ⟨?_, hbuffer, hasc, ?_, ?_, by simp [halloc], hbook.handles⟩
    · rw [hcnext, hsnext]
      exact hbook.next
    · intro e he
      rw [hsnext]
      exact hbook.fresh e (hsub.subset he)
    · intro p hp
      exact hbook.prunes p (husub.subset hp)

theorem crash_book (hstep : Crash c c') (h : Book c) : Book c' := by
  cases hstep
  refine ⟨(pairwise_append.mp h.ids).2.1, ?_, h.ascending, h.stored, by simp⟩
  intro e he
  exact h.fresh e (mem_append_right _ he)

/-- No event is sent and no watermark is added. -/
structure Quiet (c c' : Client β) : Prop where
  emitted : c'.emitted = c.emitted
  holds : ∀ e, c'.Holds e → c.Holds e

theorem connect_quiet (hstep : Connect c c') : Quiet c c' := by
  rcases hstep with ⟨hnone, rfl⟩
  refine ⟨by simp [emitted, hnone, openSession], ?_⟩
  rintro e (he | ⟨s, hs, he⟩)
  · exact .inl he
  · cases hs
    exact .inl he

/-- A change of the session that keeps its buffer and its event. -/
theorem Quiet.session {s s' : Session β} (hs : c.session = some s) (hs' : c'.session = some s')
    (hbuffer : s'.container.buffer = s.container.buffer) (hout : s'.outbox = s.outbox)
    (hstore : c'.store.buffer = c.store.buffer)
    (hdelivered : c'.delivered = c.delivered) : Quiet c c' := by
  refine ⟨by simp [Client.emitted, hs, hs', hout, hdelivered], ?_⟩
  rintro e (he | ⟨s₁, hs₁, he⟩)
  · rw [hstore] at he
    exact .inl he
  · rw [hs'] at hs₁
    cases hs₁
    rw [hbuffer] at he
    exact .inr ⟨s, hs, he⟩

theorem respond_quiet {response : ResponseBatch β} (hstep : Respond response c c') : Quiet c c' := by
  rcases hstep with ⟨s, hs, -, -, -, -, hc'⟩
  split at hc'
  · subst hc'
    exact .session hs rfl rfl rfl rfl rfl
  · subst hc'
    exact .session hs rfl rfl rfl rfl rfl

theorem allocate_quiet (hstep : Allocate c c') : Quiet c c' := by
  rcases hstep with ⟨s, hs, -, -, -, -, rfl⟩
  exact .session hs rfl rfl rfl rfl rfl

theorem deliver_quiet (hstep : Deliver c c') : Quiet c c' := by
  rcases hstep with ⟨s, event, hs, hout, rfl⟩
  refine ⟨by simp [emitted, hs, hout], ?_⟩
  rintro e (he | ⟨s', hs', he⟩)
  · exact .inl he
  · cases hs'
    exact .inr ⟨s, hs, he⟩

theorem commitHandle_quiet (hstep : CommitHandle c c') (h : Book c) : Quiet c c' := by
  rcases hstep with ⟨s, id, hs, -, -, rfl⟩
  have hbook := h.session s hs
  rcases @commit_book s.container c.store id hbook.buffer hbook.ascending hbook.prunes with
    ⟨-, -, hbuffer, hsub, -⟩
  refine ⟨by simp [emitted, hs], ?_⟩
  -- what is persisted now was in memory before
  rintro e (he | ⟨s', hs', he⟩)
  · refine .inr ⟨s, hs, hsub.subset ?_⟩
    rw [hbuffer]
    exact mem_append_left _ he
  · cases hs'
    exact .inr ⟨s, hs, hsub.subset he⟩

theorem init_book : ∀ c : Client β, Init c → Book c := by
  rintro c rfl
  exact ⟨List.Pairwise.nil, by simp [emitted], List.Pairwise.nil, by simp, by simp⟩

theorem step_book {admits : ResponseBatch β → Prop} :
    ∀ c c' : Client β, Next retention admits c c' → Book c → Book c' := by
  rintro c c' (hs | ⟨response, -, hs⟩ | hs | hs | hs | hs | hs) h
  · exact connect_book hs h
  · exact respond_book hs h
  · exact allocate_book hs h
  · exact execute_inv_book hs h
  · exact deliver_book hs h
  · exact commitHandle_book hs h
  · exact crash_book hs h

end Steps

end Client

end CampNode

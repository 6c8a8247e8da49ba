import CampNode.Core.Transition
import Mathlib.Logic.Function.Basic

/-!
# CampNode.Streaming.Wakeups — what wakes a streaming query

A writer commits a change of a table and then sends a notification for its location. The
notification multiplexer listens on one connection and passes each notification on to the
watch channel of the location. A streaming query that waits in `TableUpdates::changed` goes
on when one of its channels has a new value, and takes a snapshot of its tables.

These are steps of different processes. Model layer: `perform` makes one step, and a run is
any interleaving. Safety: as long as a table is behind, something is on its way to wake the
query (`Alerted`).

Two things are not alerts. Notifications sent while nobody listens are gone, and so are those
that wait on a connection when it is lost. Nothing marks the channels after a reconnect, so
that the query can wait although it is behind (`lost_wakeup`). The history variable `lost`
says for which locations the last notification went that way; all other tables are current
whenever the query is blocked and nothing is in flight.
-/

namespace CampNode.Wakeups

open Function

/-! ## The notification multiplexer -/

/-- The watch channel of a location, by the version of its last value. -/
abbrev Watchers := Nat → Option Nat

variable (watchers : Watchers)

/-- `NotificationMultiplexerHandle::subscribe`: the channel, new if there is none, and the
version that the receiver has seen. -/
def subscribe (location : Nat) : Watchers × Nat :=
  match watchers location with
  | some version => (watchers, version)
  | none => (Function.update watchers location (some 0), 0)

/-- What `execute` does with a notification. -/
def forward (location : Nat) : Watchers :=
  match watchers location with
  | some version => Function.update watchers location (some (version + 1))
  -- no watcher registered
  | none => watchers

/-! ## The query -/

structure TableUpdates where
  /-- The version that each receiver has seen. -/
  subscriptions : Nat → Option Nat
  ready : Bool

variable (tables : List Nat) (s : System) (updates : TableUpdates) (l location : Nat)
  (version : Option Nat)

/-- The receiver of a location has a value that it has not seen. -/
def TableUpdates.marked (location : Nat) : Bool :=
  match updates.subscriptions location with
  | some seen => watchers location != some seen
  | none => false

/-- The receiver of a location has seen a version. -/
def TableUpdates.see : TableUpdates :=
  { updates with subscriptions := Function.update updates.subscriptions location version }

inductive Phase where
  /-- In `TableUpdates::new`, with the locations still to subscribe to. -/
  | subscribing (rest : List Nat)
  /-- In `TableUpdates::changed`. -/
  | waiting
  /-- Taking the snapshots of the tables, and running a microbatch after the last one. -/
  | reading (rest : List Nat)
  | ended
deriving DecidableEq

structure System where
  /-- The number of committed changes. -/
  committed : Nat → Nat
  /-- Changes that are committed but not yet notified of. -/
  sending : List Nat
  /-- The notifications on the connection that listens, if there is one. -/
  listener : Option (List Nat)
  /-- The last notification of a location was lost. -/
  lost : Nat → Bool
  watchers : Watchers
  updates : TableUpdates
  phase : Phase
  /-- The changes that the last snapshot of a table reflects. -/
  snapshot : Nat → Nat

inductive Event where
  | commit (location : Nat)
  | notify (location : Nat)
  | connect
  | fail
  | deliver
  /-- Another query subscribes. -/
  | other (location : Nat)
  | subscribe
  | wakeReady
  | wake (location : Nat)
  | read
  /-- The iteration ends; `set_ready` is called if the microbatch was limited. -/
  | finish (setReady : Bool)
  /-- The end block is reached, or an error ends the query. -/
  | stop

/-- One step of the system, for a query over the tables. -/
def perform : Event → Option System
  | .commit l => some { s with
      committed := Function.update s.committed l (s.committed l + 1)
      sending := l :: s.sending }
  | .notify l =>
      if l ∈ s.sending then
        match s.listener with
        | some queue => some { s with
            sending := s.sending.erase l
            listener := some (queue ++ [l])
            lost := Function.update s.lost l false }
        | none => some { s with
            sending := s.sending.erase l
            lost := Function.update s.lost l true }
      else none
  | .connect =>
      match s.listener with
      | some _ => none
      | none => some { s with listener := some [] }
  | .fail =>
      match s.listener with
      | some queue => some { s with
          listener := none
          lost := fun l => s.lost l || queue.contains l }
      | none => none
  | .deliver =>
      match s.listener with
      | some (l :: queue) => some { s with
          listener := some queue
          watchers := forward s.watchers l }
      | _ => none
  | .other l => some { s with watchers := (Wakeups.subscribe s.watchers l).1 }
  | .subscribe =>
      match s.phase with
      | .subscribing [] => some { s with updates.ready := true, phase := .waiting }
      | .subscribing (l :: rest) => some { s with
          watchers := (Wakeups.subscribe s.watchers l).1
          updates := s.updates.see l (some (Wakeups.subscribe s.watchers l).2)
          phase := .subscribing rest }
      | _ => none
  | .wakeReady =>
      if s.phase = .waiting ∧ s.updates.ready = true then
        some { s with updates.ready := false, phase := .reading tables }
      else none
  -- `select_all` over the receivers: one of them is marked, and has seen its value then
  | .wake l =>
      if s.phase = .waiting ∧ s.updates.ready = false ∧ s.updates.marked s.watchers l = true then
        some { s with updates := s.updates.see l (s.watchers l), phase := .reading tables }
      else none
  | .read =>
      match s.phase with
      | .reading (l :: rest) => some { s with
          snapshot := Function.update s.snapshot l (s.committed l)
          phase := .reading rest }
      | _ => none
  | .finish setReady =>
      match s.phase with
      | .reading [] => some { s with
          updates.ready := s.updates.ready || setReady
          phase := .waiting }
      | _ => none
  | .stop =>
      match s.phase with
      | .reading _ => some { s with phase := .ended }
      | _ => none

/-- The query has not subscribed yet. Everything else may have a history. -/
def Init : StatePred System := fun s =>
  s.phase = .subscribing tables ∧ ∀ l, s.updates.subscriptions l = none

def Next : Action System := fun s s' =>
  ∃ event, perform tables s event = some s'

/-- The query waits and no receiver is marked. -/
def Blocked (s : System) : Prop :=
  s.phase = .waiting ∧ s.updates.ready = false ∧ ∀ l ∈ tables, s.updates.marked s.watchers l = false

/-- No notification is in flight. -/
def Quiet (s : System) : Prop := s.sending = [] ∧ ∀ queue, s.listener = some queue → queue = []

/-! ## The invariant -/

/-- The query takes a snapshot of the table before it waits again, if it does. -/
def Phase.Reads : Phase → Prop
  | .subscribing _ => True
  | .waiting => False
  | .reading rest => l ∈ rest
  | .ended => True

/-- A notification of the location is still to come, or the last one was lost. -/
inductive Pending (sending : List Nat) (lost : Nat → Bool) (listener : Option (List Nat))
    (l : Nat) : Prop where
  | sending (h : l ∈ sending)
  | lost (h : lost l = true)
  | queued (queue : List Nat) (hlistener : listener = some queue) (h : l ∈ queue)

/-- The query will look at the table again on its own. -/
inductive Awake (watchers : Watchers) (phase : Phase) (l : Nat) :
    Prop where
  | ready (h : updates.ready = true)
  | reads (h : phase.Reads l)
  | marked (h : updates.marked watchers l = true)

def Alerted : Prop :=
  Pending s.sending s.lost s.listener l ∨ Awake s.updates s.watchers s.phase l

structure Inv : Prop where
  seen : ∀ l seen, s.updates.subscriptions l = some seen →
    ∃ version, s.watchers l = some version ∧ seen ≤ version
  subscribed : ∀ l ∈ tables, (s.updates.subscriptions l).isSome = true ∨
    ∃ rest, s.phase = .subscribing rest ∧ l ∈ rest
  current : ∀ l ∈ tables, s.snapshot l = s.committed l ∨ Alerted s l

/-! ## Channels -/

theorem see_self : (updates.see l version).subscriptions l = version := update_self ..

theorem see_of_ne {l l' : Nat} (hne : l' ≠ l) (version : Option Nat) :
    (updates.see l version).subscriptions l' = updates.subscriptions l' :=
  update_of_ne hne ..

variable {watchers : Watchers}

theorem marked_iff {updates : TableUpdates} {l : Nat} : updates.marked watchers l = true ↔
      ∃ seen, updates.subscriptions l = some seen ∧ watchers l ≠ some seen := by
  unfold TableUpdates.marked
  cases updates.subscriptions l <;> simp

theorem subscribe_self (watchers : Watchers) (l : Nat) :
    (subscribe watchers l).1 l = some (subscribe watchers l).2 := by
  unfold subscribe
  split
  · assumption
  · exact update_self ..

/-- Channels that exist stay as they are. -/
theorem subscribe_some {l version : Nat} (h : watchers l = some version) (l' : Nat) :
    (subscribe watchers l').1 l = some version := by
  unfold subscribe
  split
  · exact h
  rename_i hnone
  have hne : l ≠ l' := by
    rintro rfl
    rw [hnone] at h
    cases h
  exact (update_of_ne hne ..).trans h

theorem forward_self {l version : Nat} (h : watchers l = some version) :
    forward watchers l l = some (version + 1) := by
  unfold forward
  simp only [h]
  exact update_self ..

theorem forward_of_ne (watchers : Watchers) {l l' : Nat} (hne : l ≠ l') :
    forward watchers l' l = watchers l := by
  unfold forward
  cases watchers l' with
  | none => rfl
  | some version => exact update_of_ne hne ..

/-- A receiver is marked by a notification of its location, and stays marked otherwise. -/
theorem forward_ne {l l' seen version : Nat}
    (hversion : watchers l' = some version) (hle : seen ≤ version)
    (h : l' = l ∨ watchers l' ≠ some seen) : forward watchers l l' ≠ some seen := by
  by_cases heq : l' = l
  · subst heq
    rw [forward_self hversion]
    intro hseen
    have := Option.some.inj hseen
    omega
  · rw [forward_of_ne _ heq]
    exact h.resolve_left heq

/-! ## Steps of the writers and of the multiplexer -/

section Steps

variable {tables : List Nat} {s : System} (h : Inv tables s)

include h

theorem commit_inv (l : Nat) : Inv tables { s with
    committed := update s.committed l (s.committed l + 1)
    sending := l :: s.sending } := by
  refine ⟨h.seen, h.subscribed, ?_⟩
  intro l' hl'
  by_cases heq : l' = l
  -- the table falls behind, and its notification is still to be sent
  · exact .inr (.inl (.sending (heq ▸ List.mem_cons_self)))
  rcases h.current l' hl' with hcurrent | (hsending | hlost | ⟨queue, hq, hmem⟩) | hawake
  · exact .inl (hcurrent.trans (update_of_ne heq ..).symm)
  · exact .inr (.inl (.sending (List.mem_cons_of_mem l hsending)))
  · exact .inr (.inl (.lost hlost))
  · exact .inr (.inl (.queued queue hq hmem))
  · exact .inr (.inr hawake)

variable {l : Nat} {listener : Option (List Nat)}

/-- A notification is sent. It waits on the connection or is lost. -/
theorem notify_inv {lost : Nat → Bool} (hsent : Pending [] lost listener l)
    (hlost : ∀ l', l' ≠ l → lost l' = s.lost l')
    (hqueue : ∀ queue, s.listener = some queue → ∃ queue', listener = some queue' ∧ queue ⊆ queue') :
    Inv tables { s with sending := s.sending.erase l, listener := listener, lost := lost } := by
  refine ⟨h.seen, h.subscribed, ?_⟩
  intro l' hl'
  by_cases heq : l' = l
  · subst heq
    rcases hsent with hsending | hl | ⟨queue, hq, hmem⟩
    · cases hsending
    · exact .inr (.inl (.lost hl))
    · exact .inr (.inl (.queued queue hq hmem))
  · rcases h.current l' hl' with hcurrent | (hsending | hl | ⟨queue, hq, hmem⟩) | hawake
    · exact .inl hcurrent
    · exact .inr (.inl (.sending ((List.mem_erase_of_ne heq).mpr hsending)))
    · exact .inr (.inl (.lost ((hlost l' heq).trans hl)))
    · obtain ⟨queue', hq', hsub⟩ := hqueue queue hq
      exact .inr (.inl (.queued queue' hq' (hsub hmem)))
    · exact .inr (.inr hawake)

/-- The connection is made or lost. What waited on it is lost with it. -/
theorem listener_inv {lost : Nat → Bool} (hlost : ∀ l, s.lost l = true → lost l = true)
    (hqueue : ∀ queue, s.listener = some queue → ∀ l ∈ queue, lost l = true) :
    Inv tables { s with listener := listener, lost := lost } := by
  refine ⟨h.seen, h.subscribed, ?_⟩
  intro l hl
  rcases h.current l hl with hcurrent | (hsending | hwas | ⟨queue, hq, hmem⟩) | hawake
  · exact .inl hcurrent
  · exact .inr (.inl (.sending hsending))
  · exact .inr (.inl (.lost (hlost l hwas)))
  · exact .inr (.inl (.lost (hqueue queue hq l hmem)))
  · exact .inr (.inr hawake)

/-- A delivered notification marks the receiver of its location, if the query has one. -/
theorem deliver_inv {queue : List Nat} (hlistener : s.listener = some (l :: queue)) :
    Inv tables { s with listener := some queue, watchers := forward s.watchers l } := by
  refine ⟨?_, h.subscribed, ?_⟩
  · intro l' seen hseen
    obtain ⟨version, hversion, hle⟩ := h.seen l' seen hseen
    by_cases heq : l' = l
    · subst heq
      exact ⟨version + 1, forward_self hversion, by omega⟩
    · exact ⟨version, (forward_of_ne _ heq).trans hversion, hle⟩
  intro l' hl'
  rcases h.current l' hl' with hcurrent | (hsending | hlost | ⟨queue', hq, hmem⟩) | hready |
    hreads | hmark
  · exact .inl hcurrent
  · exact .inr (.inl (.sending hsending))
  · exact .inr (.inl (.lost hlost))
  · rw [hlistener] at hq
    cases hq
    rcases List.mem_cons.mp hmem with rfl | hmem
    · -- the notification of this table: it has a receiver, or is not subscribed to yet
      rcases h.subscribed l' hl' with hsome | ⟨rest, hphase, -⟩
      · obtain ⟨seen, hseen⟩ := Option.isSome_iff_exists.mp hsome
        obtain ⟨version, hversion, hle⟩ := h.seen l' seen hseen
        have hne := forward_ne hversion hle (.inl rfl)
        exact .inr (.inr (.marked (marked_iff.mpr ⟨seen, hseen, hne⟩)))
      · refine .inr (.inr (.reads ?_))
        rw [hphase]
        exact trivial
    · exact .inr (.inl (.queued queue rfl hmem))
  · exact .inr (.inr (.ready hready))
  · exact .inr (.inr (.reads hreads))
  · obtain ⟨seen, hseen, hne⟩ := marked_iff.mp hmark
    obtain ⟨version, hversion, hle⟩ := h.seen l' seen hseen
    have hne := @forward_ne _ l _ _ _ hversion hle (.inr hne)
    exact .inr (.inr (.marked (marked_iff.mpr ⟨seen, hseen, hne⟩)))

theorem other_inv (l : Nat) : Inv tables { s with watchers := (subscribe s.watchers l).1 } := by
  refine ⟨?_, h.subscribed, ?_⟩
  · intro l' seen hseen
    obtain ⟨version, hversion, hle⟩ := h.seen l' seen hseen
    exact ⟨version, subscribe_some hversion l, hle⟩
  intro l' hl'
  rcases h.current l' hl' with hcurrent | hpending | hready | hreads | hmark
  · exact .inl hcurrent
  · exact .inr (.inl hpending)
  · exact .inr (.inr (.ready hready))
  · exact .inr (.inr (.reads hreads))
  · obtain ⟨seen, hseen, hne⟩ := marked_iff.mp hmark
    obtain ⟨version, hversion, -⟩ := h.seen l' seen hseen
    refine .inr (.inr (.marked (marked_iff.mpr ⟨seen, hseen, fun hsome => hne ?_⟩)))
    exact hversion.trans ((subscribe_some hversion l).symm.trans hsome)

/-! ## Steps of the query -/

theorem subscribe_inv {rest : List Nat} (hphase : s.phase = .subscribing (l :: rest)) :
    Inv tables { s with
      watchers := (subscribe s.watchers l).1
      updates := s.updates.see l (some (subscribe s.watchers l).2)
      phase := .subscribing rest } := by
  -- all tables are read after the last subscription, so what was missed before does not matter
  refine ⟨?_, ?_, fun l' _ => .inr (.inr (.reads trivial))⟩
  · intro l' seen hseen
    by_cases heq : l' = l
    · subst heq
      obtain rfl := Option.some.inj ((see_self ..).symm.trans hseen)
      exact ⟨_, subscribe_self s.watchers l', Nat.le_refl _⟩
    · have hseen := (see_of_ne _ heq _).symm.trans hseen
      obtain ⟨version, hversion, hle⟩ := h.seen l' seen hseen
      exact ⟨version, subscribe_some hversion l, hle⟩
  · intro l' hl'
    by_cases heq : l' = l
    · subst heq
      exact .inl (congrArg Option.isSome (see_self ..))
    rcases h.subscribed l' hl' with hsome | ⟨rest', hphase', hmem⟩
    · exact .inl ((congrArg Option.isSome (see_of_ne _ heq _)).trans hsome)
    · rw [hphase] at hphase'
      cases hphase'
      exact .inr ⟨rest, rfl, (List.mem_cons.mp hmem).resolve_left heq⟩

/-- Behind the subscriptions every table has a receiver. -/
theorem receivers (hphase : ∀ l rest, s.phase = .subscribing rest → l ∉ rest) :
    ∀ l ∈ tables, (s.updates.subscriptions l).isSome = true := by
  intro l hl
  rcases h.subscribed l hl with hsome | ⟨rest, hrest, hmem⟩
  · exact hsome
  · exact absurd hmem (hphase l rest hrest)

/-- The query goes on to read all tables. -/
theorem wake_inv {updates : TableUpdates} (hphase : s.phase = .waiting)
    (hseen : ∀ l, updates.subscriptions l = s.updates.subscriptions l ∨
      updates.subscriptions l = s.watchers l) :
    Inv tables { s with updates := updates, phase := .reading tables } := by
  have hreceivers := receivers h (by rw [hphase]; exact nofun)
  refine ⟨?_, ?_, fun l hl => .inr (.inr (.reads hl))⟩
  · intro l seen hl
    rcases hseen l with hsame | hnow
    · exact h.seen l seen (hsame.symm.trans hl)
    · exact ⟨seen, hnow.symm.trans hl, Nat.le_refl _⟩
  intro l hl
  refine .inl ?_
  show (updates.subscriptions l).isSome = true
  rcases hseen l with hsame | hnow
  · rw [hsame]
    exact hreceivers l hl
  -- a receiver has a channel, so the version it sees now is one
  obtain ⟨seen, hseen⟩ := Option.isSome_iff_exists.mp (hreceivers l hl)
  obtain ⟨version, hversion, -⟩ := h.seen l seen hseen
  rw [hnow, hversion]
  rfl

theorem read_inv {rest : List Nat} (hphase : s.phase = .reading (l :: rest)) : Inv tables { s with
      snapshot := update s.snapshot l (s.committed l)
      phase := .reading rest } := by
  have hreceivers := receivers h (by rw [hphase]; exact nofun)
  refine ⟨h.seen, fun l hl => .inl (hreceivers l hl), ?_⟩
  intro l' hl'
  by_cases heq : l' = l
  · subst heq
    exact .inl (update_self ..)
  rcases h.current l' hl' with hcurrent | hpending | hready | hreads | hmark
  · exact .inl ((update_of_ne heq ..).trans hcurrent)
  · exact .inr (.inl hpending)
  · exact .inr (.inr (.ready hready))
  · rw [hphase] at hreads
    exact .inr (.inr (.reads ((List.mem_cons.mp hreads).resolve_left heq)))
  · exact .inr (.inr (.marked hmark))

/-- All tables are read: the query waits again, or ends. -/
theorem phase_inv {ready : Bool} {phase : Phase}
    (hphase : ∀ l rest, s.phase = .subscribing rest → l ∉ rest)
    (hready : s.updates.ready = true → ready = true)
    (hreads : ready = true ∨ ∀ l, s.phase.Reads l → phase.Reads l) :
    Inv tables { s with updates.ready := ready, phase := phase } := by
  have hreceivers := receivers h hphase
  refine ⟨h.seen, fun l hl => .inl (hreceivers l hl), ?_⟩
  intro l hl
  rcases h.current l hl with hcurrent | hpending | hwas | hread | hmark
  · exact .inl hcurrent
  · exact .inr (.inl hpending)
  · exact .inr (.inr (.ready (hready hwas)))
  · rcases hreads with hnow | hall
    · exact .inr (.inr (.ready hnow))
    · exact .inr (.inr (.reads (hall l hread)))
  · exact .inr (.inr (.marked hmark))

end Steps

/-! ## Runs -/

theorem init_inv {tables : List Nat} (s : System) (h : Init tables s) : Inv tables s := by
  obtain ⟨hphase, hnone⟩ := h
  refine ⟨?_, fun l hl => .inr ⟨tables, hphase, hl⟩, ?_⟩
  · intro l seen hseen
    rw [hnone] at hseen
    cases hseen
  · intro l _
    refine .inr (.inr (.reads ?_))
    rw [hphase]
    exact trivial

theorem step_inv {tables : List Nat} (s s' : System) (hstep : Next tables s s') (h : Inv tables s) :
    Inv tables s' := by
  obtain ⟨event, hstep⟩ := hstep
  cases event <;> simp only [perform] at hstep
  case commit l =>
    cases hstep
    exact commit_inv h l
  case other l =>
    cases hstep
    exact other_inv h l
  all_goals split at hstep
  -- without a listener for it or in another phase there is no step
  any_goals cases hstep
  next =>
    split at hstep
    · rename_i queue hlistener
      cases hstep
      refine notify_inv h (.queued _ rfl (by simp)) (fun l' hne => update_of_ne hne ..) ?_
      intro queue' hq
      rw [hlistener] at hq
      cases hq
      exact ⟨_, rfl, List.subset_append_left _ _⟩
    · cases hstep
      refine notify_inv h (.lost (update_self ..)) (fun l' hne => update_of_ne hne ..) ?_
      intro queue hq
      exact ⟨queue, hq, List.Subset.refl _⟩
  next hlistener =>
    apply listener_inv h (fun l hl => hl)
    rw [hlistener]
    exact nofun
  next queue hlistener =>
    apply listener_inv h
    · intro l hl
      rw [hl, Bool.true_or]
    · intro queue' hq l hl
      rw [hlistener] at hq
      cases hq
      rw [List.contains_iff_mem.mpr hl, Bool.or_true]
  next hlistener => exact deliver_inv h hlistener
  next hphase =>
    refine phase_inv h ?_ (fun _ => rfl) (.inl rfl)
    intro l rest hrest
    rw [hphase] at hrest
    cases hrest
    exact List.not_mem_nil
  next hphase => exact subscribe_inv h hphase
  next hguard => exact wake_inv h hguard.1 fun l => .inl rfl
  next l hguard =>
    apply wake_inv h hguard.1
    intro l'
    by_cases heq : l' = l
    · subst heq
      exact .inr (see_self ..)
    · exact .inl (see_of_ne _ heq _)
  next hphase => exact read_inv h hphase
  next hphase =>
    refine phase_inv h ?_ ?_ (.inr ?_)
    · rw [hphase]
      exact nofun
    · intro hready
      rw [hready, Bool.true_or]
    · intro l hreads
      rw [hphase] at hreads
      cases hreads
  next hphase =>
    refine phase_inv h ?_ id (.inr fun l _ => trivial)
    rw [hphase]
    exact nofun

/-- In every run: a query that is blocked while no notification is in flight has seen all
committed changes of each of its tables, unless the last notification of the table was
lost. -/
theorem blocked_query_current {tables : List Nat} {s : System}
    (hs : Reachable (Init tables) (Next tables) s) (hblocked : Blocked tables s) (hquiet : Quiet s) :
    ∀ l ∈ tables, s.lost l = false → s.snapshot l = s.committed l := by
  intro l hl hlost
  obtain ⟨hphase, hready, hmarked⟩ := hblocked
  obtain ⟨hsending, hqueue⟩ := hquiet
  have hinv := init_invariant _ _ _ init_inv step_inv s hs
  rcases hinv.current l hl with hcurrent | (h | h | ⟨queue, hq, h⟩) | h | h | h
  · exact hcurrent
  -- each alert is excluded by one of the hypotheses
  · rw [hsending] at h
    cases h
  · rw [hlost] at h
    cases h
  · rw [hqueue queue hq] at h
    cases h
  · rw [hready] at h
    cases h
  · rw [hphase] at h
    exact h.elim
  · rw [hmarked l hl] at h
    cases h

/-- Nothing has happened yet, and the multiplexer does not listen. -/
def initial : System where
  committed _ := 0
  sending := []
  listener := none
  lost _ := false
  watchers _ := none
  updates := ⟨fun _ => none, true⟩
  phase := .subscribing tables
  snapshot _ := 0

theorem reachable_of_run {tables : List Nat} {events : List Event} {s : System}
    (h : run (perform tables) (fun _ _ => true) (initial tables) events = some s) :
    Reachable (Init tables) (Next tables) s := by
  refine Reachable.run ?_ (.init ⟨rfl, fun _ => rfl⟩) h
  intro s s' event _ _ hstep
  exact ⟨event, hstep⟩

/-- The query subscribes to its table and reads it once. -/
def firstRead : List Event :=
  [.connect, .subscribe, .subscribe, .wakeReady, .read, .finish false]

/-- A change whose notification arrives. -/
theorem blocked_query_current_notified :
    ∃ s, Reachable (Init [7]) (Next [7]) s ∧ Blocked [7] s ∧ Quiet s ∧ s.committed 7 = 1 ∧
      s.lost 7 = false ∧ s.snapshot 7 = s.committed 7 := by
  obtain ⟨s, hs, hblocked, hquiet, hcommitted, hlost⟩ : ∃ s,
      run (perform [7]) (fun _ _ => true) (initial [7]) (firstRead ++
        [.commit 7, .notify 7, .deliver, .wake 7, .read, .finish false]) = some s ∧
      Blocked [7] s ∧ Quiet s ∧ s.committed 7 = 1 ∧ s.lost 7 = false :=
    ⟨_, rfl, ⟨rfl, rfl, by decide⟩, ⟨rfl, fun _ hq => (Option.some.inj hq).symm⟩, rfl, rfl⟩
  have hs := reachable_of_run hs
  exact ⟨s, hs, hblocked, hquiet, hcommitted, hlost,
    blocked_query_current hs hblocked hquiet 7 (List.mem_singleton_self 7) hlost⟩

/-- The connection is lost, a change is committed and its notification sent, and the
multiplexer listens again. The query waits, and does not know of the change. -/
theorem lost_wakeup :
    ∃ s, Reachable (Init [7]) (Next [7]) s ∧ Blocked [7] s ∧ Quiet s ∧ s.listener = some [] ∧
      s.committed 7 = 1 ∧ s.snapshot 7 = 0 :=
  ⟨_, @reachable_of_run [7] (firstRead ++ [.fail, .commit 7, .notify 7, .connect]) _ rfl,
    ⟨rfl, rfl, by decide⟩, ⟨rfl, fun _ hq => (Option.some.inj hq).symm⟩, rfl, rfl, rfl⟩

end CampNode.Wakeups

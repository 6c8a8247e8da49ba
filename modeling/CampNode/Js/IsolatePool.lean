import CampNode.Core.Transition
import Mathlib.Logic.Function.Basic

/-!
# CampNode.Js.IsolatePool — calls on a pool of isolates

`invoke_batch` takes an isolate from the pool, sends its request to the thread of the isolate
through a channel with room for one request, and waits for the response. The isolate goes back to
the pool when the future of the call is done or dropped.

`calls_safe` says that no send fails and that every call gets the results of its own request, if
calls are not cancelled between the request and the response. If they are, the isolate is in the
pool while its channel is full (`send_fails_after_cancel`).
-/

namespace CampNode.Js

open Function

/-! ## Calls and threads -/

inductive Outcome (R : Type) where
  | ok (results : List R)
  | error
  | panic
deriving DecidableEq

inductive Phase (R : Type) where
  | absent
  /-- In `pool.get`. -/
  | waiting
  /-- The request is sent, and the response awaited. -/
  | sent (isolate : Nat)
  /-- The `unwrap` of `try_send` panics. -/
  | sendFailed
  | completed (outcome : Outcome R)
  | cancelled
deriving DecidableEq

structure IsolateThread where
  /-- It is in the pool. -/
  pooled : Bool
  /-- The channel, with room for one request. Requests are named by their calls. -/
  queue : Option Nat
  running : Option Nat

structure Pool (Q R : Type) where
  maxSize : Nat
  size : Nat
  spawned : Nat
  isolates : Nat → IsolateThread
  calls : Nat → Phase R
  requests : Nat → Option Q
  /-- What was sent through the channel of the response. -/
  responses : Nat → Option (Outcome R)

inductive Input (Q R : Type) where
  /-- A call that sees room in the pool tries to add an isolate. -/
  | call (c : Nat) (request : Q) (room : Bool)
  | acquire (c isolate : Nat)
  /-- A thread takes the request from its channel. -/
  | receive (isolate : Nat)
  | finish (isolate : Nat) (outcome : Outcome R)
  | complete (c : Nat)
  /-- The future is dropped at an await point. -/
  | cancel (c : Nat)

variable {Q R : Type}

namespace Pool

def new (maxSize : Nat) : Pool Q R :=
  ⟨maxSize, 0, 0, fun _ => ⟨false, none, none⟩, fun _ => .absent, fun _ => none, fun _ => none⟩

/-- `try_add` of a new isolate. -/
def tryAdd (s : Pool Q R) : Pool Q R :=
  if s.size < s.maxSize then
    { s with
      size := s.size + 1
      spawned := s.spawned + 1
      isolates := update s.isolates s.spawned ⟨true, none, none⟩ }
  else s

def setIsolate (s : Pool Q R) (i : Nat) (isolate : IsolateThread) : Pool Q R :=
  { s with isolates := update s.isolates i isolate }

def setCall (s : Pool Q R) (c : Nat) (phase : Phase R) : Pool Q R :=
  { s with calls := update s.calls c phase }

/-- The isolate is dropped, and goes back to the pool. -/
def giveBack (s : Pool Q R) (i : Nat) : Pool Q R :=
  s.setIsolate i { s.isolates i with pooled := true }

/-- `exec` says which outcomes a request can have. -/
def perform (exec : Q → Outcome R → Bool) (s : Pool Q R) : Input Q R → Option (Pool Q R)
  | .call c request room =>
      match s.calls c with
      | .absent =>
          let s := if room then s.tryAdd else s
          some ({ s with requests := update s.requests c (some request) }.setCall c .waiting)
      | _ => none
  | .acquire c i =>
      match s.calls c, (s.isolates i).pooled with
      | .waiting, true =>
          match (s.isolates i).queue with
          | none => some ((s.setIsolate i { s.isolates i with
              pooled := false, queue := some c }).setCall c (.sent i))
          | some _ => some (s.setCall c .sendFailed)
      | _, _ => none
  | .receive i =>
      match (s.isolates i).queue, (s.isolates i).running with
      | some c, none => some (s.setIsolate i { s.isolates i with queue := none, running := some c })
      | _, _ => none
  | .finish i outcome =>
      match (s.isolates i).running with
      | none => none
      | some c =>
          if (s.requests c).any (exec · outcome) then
            some { s.setIsolate i { s.isolates i with running := none } with
              responses := update s.responses c (some outcome) }
          else none
  | .complete c =>
      match s.calls c, s.responses c with
      -- the isolate of a panic is taken out of the pool
      | .sent _, some .panic => some ({ s with size := s.size - 1 }.setCall c (.completed .panic))
      | .sent i, some outcome => some ((s.giveBack i).setCall c (.completed outcome))
      | _, _ => none
  | .cancel c =>
      match s.calls c with
      | .waiting => some (s.setCall c .cancelled)
      | .sent i => some ((s.giveBack i).setCall c .cancelled)
      | _ => none

/-- A call is not cancelled between the request and the response. -/
def mayCancel (s : Pool Q R) : Input Q R → Bool
  | .cancel c =>
      match s.calls c with
      | .sent _ => (s.responses c).isSome
      | _ => true
  | _ => true

end Pool

/-! ## Safety -/

/-- No send has failed, and what a call got is an outcome of its own request. -/
def CallsSafe (exec : Q → Outcome R → Bool) (s : Pool Q R) : Prop :=
  ∀ c, s.calls c ≠ .sendFailed ∧
    ∀ outcome, s.calls c = .completed outcome → (s.requests c).any (exec · outcome)

/-- A request in the channel or in the thread is that of the call that holds the isolate. -/
structure PoolInv (exec : Q → Outcome R → Bool) (s : Pool Q R) : Prop where
  held : ∀ {i c}, (s.isolates i).queue = some c ∨ (s.isolates i).running = some c →
    s.calls c = .sent i ∧ s.responses c = none
  single : ∀ {i c}, (s.isolates i).running = some c → (s.isolates i).queue = none
  added : ∀ {i}, (s.isolates i).pooled → i < s.spawned
  taken : ∀ {c i}, s.calls c = .sent i → i < s.spawned ∧ (s.isolates i).pooled = false
  owner : ∀ {c c' i}, s.calls c = .sent i → s.calls c' = .sent i → c = c'
  unsent : ∀ {c}, s.calls c = .absent ∨ s.calls c = .waiting → s.responses c = none
  own : ∀ {c outcome}, s.responses c = some outcome → (s.requests c).any (exec · outcome)
  safe : CallsSafe exec s

variable {exec : Q → Outcome R → Bool} {s s' : Pool Q R}

theorem PoolInv.new (maxSize : Nat) : PoolInv exec (Pool.new maxSize) := by
  constructor <;> simp [Pool.new, CallsSafe]

theorem PoolInv.tryAdd (h : PoolInv exec s) : PoolInv exec s.tryAdd := by
  unfold Pool.tryAdd
  split
  · obtain ⟨held, single, added, taken, owner, unsent, own, safe⟩ := h
    constructor
    case safe => exact safe
    all_goals
      simp only [update_apply]
      grind
  · exact h

/-- A call waits for an isolate. -/
theorem PoolInv.wait {c : Nat} {request : Q} (h : PoolInv exec s) (habsent : s.calls c = .absent) :
    PoolInv exec
      ({ s with requests := update s.requests c (some request) }.setCall c .waiting) := by
  obtain ⟨held, single, added, taken, owner, unsent, own, safe⟩ := h
  constructor
  all_goals
    simp only [Pool.setCall, CallsSafe, update_apply] at safe ⊢
    grind -linarith

theorem PoolInv.step {input : Input Q R} (h : PoolInv exec s) (hcancel : s.mayCancel input)
    (hstep : s.perform exec input = some s') : PoolInv exec s' := by
  have ⟨held, single, added, taken, owner, unsent, own, safe⟩ := h
  cases input <;> simp only [Pool.perform] at hstep
  case call c request room =>
    split at hstep <;> cases hstep
    rename_i habsent
    split
    · refine h.tryAdd.wait ?_
      unfold Pool.tryAdd
      split <;> exact habsent
    · exact h.wait habsent
  case acquire =>
    split at hstep
    · split at hstep <;> cases hstep
      · constructor
        all_goals
          simp only [Pool.setCall, Pool.setIsolate, CallsSafe, update_apply] at safe ⊢
          grind -linarith
      · -- the request in the channel is that of a call that holds the isolate
        grind
    · cases hstep
  case finish =>
    split at hstep
    · cases hstep
    · split at hstep <;> cases hstep
      constructor
      case safe => exact safe
      all_goals
        simp only [Pool.setIsolate, update_apply]
        grind -linarith
  -- a thread takes a request, or a call ends
  all_goals
    simp only [Pool.mayCancel] at hcancel
    split at hstep <;> cases hstep
    all_goals
      constructor
      all_goals
        simp only [Pool.setCall, Pool.giveBack, Pool.setIsolate, CallsSafe,
          update_apply] at safe ⊢
        grind -linarith

def Pool.Next (exec : Q → Outcome R → Bool) : Action (Pool Q R) := fun s s' =>
  ∃ input, s.mayCancel input ∧ s.perform exec input = some s'

/-- In every run without a cancellation between a request and its response, no send fails, and
calls get the results of their own requests. -/
theorem calls_safe {maxSize : Nat}
    (h : Reachable (· = Pool.new maxSize) (Pool.Next exec) s) : CallsSafe exec s := by
  refine (init_invariant _ _ (PoolInv exec) ?_ ?_ s h).safe
  · rintro _ rfl
    exact PoolInv.new maxSize
  · rintro s s' ⟨input, hcancel, hstep⟩ hinv
    exact hinv.step hcancel hstep

/-- A function that returns 7 or throws. -/
def sevenOrThrows (request : Bool) (outcome : Outcome Nat) : Bool :=
  outcome = if request then .ok [7] else .error

/-- Two calls with one isolate, the first of which fails. -/
def twoCalls : List (Input Bool Nat) :=
  [.call 0 false true, .call 1 true true, .acquire 0 0, .receive 0, .finish 0 .error, .complete 0,
    .acquire 1 0, .receive 0, .finish 0 (.ok [7]), .complete 1]

theorem calls_safe_seven :
    ∃ s, run (Pool.perform sevenOrThrows) Pool.mayCancel (Pool.new 1) twoCalls = some s ∧
      s.spawned = 1 ∧ s.calls 0 = .completed .error ∧ s.calls 1 = .completed (.ok [7]) ∧
      CallsSafe sevenOrThrows s := by
  obtain ⟨s, hs, hspawned, hfails, hcall⟩ : ∃ s, run (Pool.perform sevenOrThrows) Pool.mayCancel
      (Pool.new 1) twoCalls = some s ∧ s.spawned = 1 ∧ s.calls 0 = .completed .error ∧
      s.calls 1 = .completed (.ok [7]) := ⟨_, rfl, rfl, rfl, rfl⟩
  exact ⟨s, hs, hspawned, hfails, hcall,
    calls_safe (Reachable.run (fun _ _ i _ hc h => ⟨i, hc, h⟩) (.init rfl) hs)⟩

/-- The request of a call that was cancelled is still in the channel of the isolate that the next
call gets. -/
theorem send_fails_after_cancel :
    ∃ s : Pool Bool Nat, run (Pool.perform sevenOrThrows) (fun _ _ => true) (Pool.new 1)
        [.call 0 true true, .call 1 true true, .acquire 0 0, .cancel 0, .acquire 1 0] = some s ∧
      s.calls 1 = .sendFailed := ⟨_, rfl, rfl⟩

end CampNode.Js

import CampNode.Core.Transition
import Mathlib.Data.List.Infix
import Mathlib.Data.Multiset.Basic

/-!
# CampNode.Server.Auth — the users of the identity API and their cache

Calls of `maybe_fetch_auth_user` look a user up in the cache, fetch it without a lock and store the
answer. They interleave in any way, and an entry may be evicted at any time. The log has the
answers of the API and the entries, which later steps may replace.

An error with `404` in its text is taken for a missing user, also if the status is another one.
-/

namespace CampNode.AuthService

/-- What the API answers, with the texts of the errors. -/
inductive Answer (User : Type) where
  | found (user : User)
  | notFound (message : String)
  | failure (message : String)

/-- The user or the missing user that an answer is about. -/
def Answer.about {User : Type} : Answer User → Option (Option User)
  | .found user => some (some user)
  | .notFound _ => some none
  | .failure _ => none

structure CachedUser (User : Type) where
  user : Option User
  expiresAt : Nat

inductive Event (Id User : Type) where
  | answered (id : Id) (answer : Answer User)
  | cached (id : Id) (user : Option User) (now : Nat)

structure State (Id User : Type) where
  cache : Id → Option (CachedUser User)
  /-- The calls that wait for the API. -/
  fetching : Multiset Id
  /-- The calls that have an answer and store it. -/
  storing : Multiset (Id × Option User)
  log : List (Event Id User)

variable {Id User : Type} [DecidableEq Id]

def userResult : Answer User → Except String (Option User)
  | .found user => .ok (some user)
  | .notFound message | .failure message =>
      if "404".toList <:+: message.toList then .ok none else .error message

section

variable (cacheDuration now : Nat)

/-- The steps of the calls, with what a call returns, when the clock shows `now`. -/
inductive Step : State Id User → Option (Id × Except String (Option User)) → State Id User → Prop
  | hit {s id entry} (hentry : s.cache id = some entry) (hnow : now < entry.expiresAt) :
      Step s (some (id, .ok entry.user)) s
  | miss {s id} (hexpired : ∀ entry ∈ s.cache id, entry.expiresAt ≤ now) :
      Step s none { s with fetching := id ::ₘ s.fetching }
  | found {cache id fetching storing log answer user} (hresult : userResult answer = .ok user) :
      Step ⟨cache, id ::ₘ fetching, storing, log⟩ none
        ⟨cache, fetching, (id, user) ::ₘ storing, .answered id answer :: log⟩
  | failed {cache id fetching storing log answer message}
      (hresult : userResult answer = .error message) :
      Step ⟨cache, id ::ₘ fetching, storing, log⟩ (some (id, .error message))
        ⟨cache, fetching, storing, .answered id answer :: log⟩
  | store {cache id user fetching storing log} :
      Step ⟨cache, fetching, (id, user) ::ₘ storing, log⟩ (some (id, .ok user))
        ⟨Function.update cache id (some ⟨user, now + cacheDuration⟩), fetching, storing,
          .cached id user now :: log⟩
  -- the least recently used entry or one that has expired
  | evict {s} (id : Id) : Step s none { s with cache := Function.update s.cache id none }

end

def Init : StatePred (State Id User) := fun s => s = ⟨fun _ => none, 0, 0, []⟩

def Next (cacheDuration : Nat) : Action (State Id User) := fun s s' =>
  ∃ now returned, Step cacheDuration now s returned s'

def Answered (log : List (Event Id User)) (id : Id) (user : Option User) : Prop :=
  ∃ answer, .answered id answer ∈ log ∧ answer.about = some user

/-- No failure but a missing user has `404` in its text. -/
def Clear (log : List (Event Id User)) : Prop :=
  ∀ id message, .answered id (.failure message) ∈ log → ¬ "404".toList <:+: message.toList

structure Inv (cacheDuration : Nat) (s : State Id User) : Prop where
  storing : ∀ id user, (id, user) ∈ s.storing → Answered s.log id user
  cache : ∀ id entry, s.cache id = some entry → Answered s.log id entry.user ∧
    ∃ now, .cached id entry.user now ∈ s.log ∧ entry.expiresAt = now + cacheDuration

variable {cacheDuration : Nat} {s s' : State Id User}

omit [DecidableEq Id] in
theorem Inv.log_cons {event : Event Id User} (h : Clear s.log → Inv cacheDuration s)
    (hclear : Clear (event :: s.log)) : Inv cacheDuration { s with log := event :: s.log } := by
  have h := h fun id message hmem => hclear id message (.tail _ hmem)
  constructor
  · intro id user hmem
    obtain ⟨answer, hanswer, habout⟩ := h.storing id user hmem
    exact ⟨answer, .tail _ hanswer, habout⟩
  · intro id entry hentry
    obtain ⟨⟨answer, hanswer, habout⟩, now, hcached, hexpires⟩ := h.cache id entry hentry
    exact ⟨⟨answer, .tail _ hanswer, habout⟩, now, .tail _ hcached, hexpires⟩

/-- An answer that is not a failure is what the call takes it for. -/
theorem about_of_userResult {answer : Answer User} {user : Option User}
    (hclear : ∀ message, answer = .failure message → ¬ "404".toList <:+: message.toList)
    (h : userResult answer = .ok user) : answer.about = some user := by
  cases answer with
  | found user =>
    cases h
    rfl
  | notFound message =>
    simp only [userResult] at h
    split at h <;> cases h
    rfl
  | failure message =>
    rw [userResult, if_neg (hclear message rfl)] at h
    cases h

theorem Inv.step {now : Nat} {returned : Option (Id × Except String (Option User))}
    (hstep : Step cacheDuration now s returned s') (h : Clear s.log → Inv cacheDuration s)
    (hclear : Clear s'.log) : Inv cacheDuration s' := by
  cases hstep with
  | hit => exact h hclear
  | miss => exact ⟨(h hclear).storing, (h hclear).cache⟩
  | @found cache id fetching storing log answer user hresult =>
    have h := Inv.log_cons h hclear
    refine ⟨fun i u hmem => ?_, h.cache⟩
    rcases Multiset.mem_cons.mp hmem with heq | hmem
    · cases heq
      refine ⟨answer, .head _, about_of_userResult ?_ hresult⟩
      rintro message rfl
      exact hclear id message (.head _)
    · exact h.storing i u hmem
  | failed =>
    have h := Inv.log_cons h hclear
    exact ⟨h.storing, h.cache⟩
  | @store cache id user fetching storing log =>
    have h := Inv.log_cons h hclear
    refine ⟨fun i u hmem => h.storing i u (Multiset.mem_cons_of_mem hmem), fun i entry hentry => ?_⟩
    rcases update_eq_some.mp hentry with ⟨rfl, heq⟩ | ⟨-, hentry⟩
    · cases heq
      exact ⟨h.storing i user (Multiset.mem_cons_self _ _), now, .head _, rfl⟩
    · exact h.cache i entry hentry
  | evict id =>
    refine ⟨(h hclear).storing, fun i entry hentry => ?_⟩
    rcases update_eq_some.mp hentry with ⟨-, heq⟩ | ⟨-, hentry⟩
    · cases heq
    · exact (h hclear).cache i entry hentry

/-- In every run in which no other failure has `404` in its text, a call returns a user or none only
if the API answered that, and the call has received the answer or it was cached less than
`cacheDuration` ago. So is what the cache holds. A failure is returned, and changes neither the
cache nor what is stored in it. -/
theorem returns_answers (h : Reachable Init (Next cacheDuration) s) (hclear : Clear s.log) :
    (∀ now id user s', Step cacheDuration now s (some (id, .ok user)) s' →
      Answered s.log id user ∧ ((id, user) ∈ s.storing ∨
        ∃ cachedAt, .cached id user cachedAt ∈ s.log ∧ now < cachedAt + cacheDuration)) ∧
    (∀ id entry, s.cache id = some entry → Answered s.log id entry.user) ∧
    ∀ now returned id message s', Step cacheDuration now s returned s' →
      s'.log = .answered id (.failure message) :: s.log → ¬ "404".toList <:+: message.toList →
      returned = some (id, .error message) ∧ s'.cache = s.cache ∧ s'.storing = s.storing := by
  have hinv : Inv cacheDuration s := by
    refine init_invariant _ _ (fun s => Clear s.log → Inv cacheDuration s) ?_ ?_ s h hclear
    · rintro _ rfl -
      exact ⟨fun _ _ hmem => absurd hmem (Multiset.notMem_zero _), nofun⟩
    · rintro s s' ⟨now, returned, hstep⟩ h
      exact .step hstep h
  refine ⟨fun now id user s' hstep => ?_, fun id entry hentry => (hinv.cache id entry hentry).1, ?_⟩
  · cases hstep with
    | @hit _ _ entry hentry hnow =>
      obtain ⟨hanswered, cachedAt, hcached, hexpires⟩ := hinv.cache id entry hentry
      exact ⟨hanswered, .inr ⟨cachedAt, hcached, hexpires ▸ hnow⟩⟩
    | @store _ _ _ _ storing =>
      have hmem := Multiset.mem_cons_self (id, user) storing
      exact ⟨hinv.storing id user hmem, .inl hmem⟩
  · intro now returned id message s' hstep hlog hother
    cases hstep with
    | hit | miss | evict => exact absurd hlog.symm (List.cons_ne_self _ _)
    | found hresult =>
      cases hlog
      rw [userResult, if_neg hother] at hresult
      cases hresult
    | failed hresult =>
      cases hlog
      rw [userResult, if_neg hother] at hresult
      cases hresult
      exact ⟨rfl, rfl, rfl⟩
    | store => cases hlog

/-- User 7, cached at 3. -/
def stored : State Nat Nat :=
  ⟨Function.update (fun _ => none) 7 (some ⟨some 1, 13⟩), 0, 0,
    [.cached 7 (some 1) 3, .answered 7 (.found 1)]⟩

theorem reachable_fetching :
    Reachable Init (Next 10) (⟨fun _ => none, 7 ::ₘ 0, 0, []⟩ : State Nat Nat) :=
  .step (.init rfl) ⟨0, none, .miss nofun⟩

theorem returns_answers_cached :
    Step 10 4 stored (some (7, .ok (some 1))) stored ∧ Answered stored.log 7 (some 1) := by
  have hfound := reachable_fetching.step ⟨0, none, .found (rfl : userResult (.found 1) = .ok _)⟩
  have hstored : Reachable Init (Next 10) stored := hfound.step ⟨3, _, .store⟩
  have hhit : Step 10 4 stored (some (7, .ok (some 1))) stored :=
    .hit (rfl : stored.cache 7 = some ⟨some 1, 13⟩) (by decide)
  exact ⟨hhit, ((returns_answers hstored (by simp [Clear, stored])).1 4 7 _ _ hhit).1⟩

/-- An error with the port 4040 in its text is returned as a missing user. -/
theorem failure_returned_as_missing : ∃ s s' : State Nat Nat,
    Reachable Init (Next 10) s ∧ Step 10 0 s (some (7, .ok none)) s' ∧
      s.log = [.answered 7 (.failure "no route to 10.0.0.1:4040")] := by
  have hresult : userResult (.failure "no route to 10.0.0.1:4040") = .ok (none : Option Nat) := by
    decide
  exact ⟨_, _, reachable_fetching.step ⟨0, none, .found hresult⟩, .store, rfl⟩

end CampNode.AuthService

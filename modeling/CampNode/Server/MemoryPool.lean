import CampNode.Core.Transition
import Mathlib.Algebra.BigOperators.Fin
import Mathlib.Algebra.Order.BigOperators.Group.Finset

/-!
# CampNode.Server.MemoryPool — tiered memory pools

Tiered pools with children of their own and one parent for all. A call on a pool is a sequence of
operations on the parent and the child, which are atomic, and calls interleave in any way. The peak
is left out. A pool refuses a `try_grow` beyond its limit, and may refuse any other.

Calls in progress account for the difference between the parent and the children (`Inv`).
-/

namespace CampNode.TieredMemoryPool

/-- A call before one of its operations, with its reservation and its amount. -/
inductive Call (R : Type) where
  | grow (r : R) (n : Nat)
  | growChild (r : R) (n : Nat)
  | tryGrow (r : R) (n : Nat)
  | tryGrowChild (r : R) (n : Nat)
  /-- The child has refused, and the parent is shrunk. -/
  | rollback (r : R) (n : Nat)
  | shrink (r : R) (n : Nat)
  | shrinkParent (r : R) (n : Nat)

/-- What the parent has reserved for a call and the child has not. -/
def Call.pending {R : Type} : Call R → Nat
  | .growChild _ n | .tryGrowChild _ n | .rollback _ n | .shrinkParent _ n => n
  | .grow _ _ | .tryGrow _ _ | .shrink _ _ => 0

structure Pools (R : Type) where
  parent : Nat
  /-- What the children have reserved, for each reservation. -/
  child : R → Nat
  /-- The calls in progress. -/
  calls : Multiset (Call R)

/-- An operation that grants memory in a `try_grow`. -/
inductive Grant (R : Type) where
  | parent
  | child (r : R)

/-- The pools of the reservations, and the limits. -/
structure Config (P R : Type) where
  pool : R → P
  parentLimit : Option Nat
  childLimit : P → Option Nat

variable {P R : Type} [Fintype R] [DecidableEq P] [DecidableEq R] (config : Config P R)

def childReserved (child : R → Nat) (p : P) : Nat := ∑ r with config.pool r = p, child r

def reserved (s : Pools R) (p : P) : Nat := min s.parent (childReserved config s.child p)

/-- The operations of the calls. -/
inductive Step : Pools R → Option (Grant R) → Pools R → Prop
  | call {s : Pools R} (c : Call R) (hbegin : c.pending = 0) :
      Step s none { s with calls := c ::ₘ s.calls }
  | grow {a f r n cs} : Step ⟨a, f, .grow r n ::ₘ cs⟩ none ⟨a + n, f, .growChild r n ::ₘ cs⟩
  | growChild {a f r n cs} :
      Step ⟨a, f, .growChild r n ::ₘ cs⟩ none ⟨a, Function.update f r (f r + n), cs⟩
  | tryGrow {a f r n cs} (hlimit : ∀ limit ∈ config.parentLimit, a + n ≤ limit) :
      Step ⟨a, f, .tryGrow r n ::ₘ cs⟩ (some .parent) ⟨a + n, f, .tryGrowChild r n ::ₘ cs⟩
  | refuse {a f r n cs} : Step ⟨a, f, .tryGrow r n ::ₘ cs⟩ none ⟨a, f, cs⟩
  | tryGrowChild {a f r n cs} (hlimit : ∀ limit ∈ config.childLimit (config.pool r),
        childReserved config f (config.pool r) + n ≤ limit) :
      Step ⟨a, f, .tryGrowChild r n ::ₘ cs⟩ (some (.child r))
        ⟨a, Function.update f r (f r + n), cs⟩
  | refuseChild {a f r n cs} :
      Step ⟨a, f, .tryGrowChild r n ::ₘ cs⟩ none ⟨a, f, .rollback r n ::ₘ cs⟩
  | rollback {a f r n cs} : Step ⟨a, f, .rollback r n ::ₘ cs⟩ none ⟨a - n, f, cs⟩
  -- not by more than the reservation holds
  | shrink {a f r n cs} (hheld : n ≤ f r) : Step ⟨a, f, .shrink r n ::ₘ cs⟩ none
      ⟨a, Function.update f r (f r - n), .shrinkParent r n ::ₘ cs⟩
  | shrinkParent {a f r n cs} : Step ⟨a, f, .shrinkParent r n ::ₘ cs⟩ none ⟨a - n, f, cs⟩

def Init : StatePred (Pools R) := fun s => s = ⟨0, fun _ => 0, 0⟩

def Next : Action (Pools R) := fun s s' => ∃ grant, Step config s grant s'

def Inv (s : Pools R) : Prop := s.parent = ∑ r, s.child r + (s.calls.map Call.pending).sum

omit [Fintype R] in
theorem sum_update (f : R → Nat) {rs : Finset R} {r : R} (hr : r ∈ rs) (x : Nat) :
    ∑ i ∈ rs, Function.update f r x i + f r = ∑ i ∈ rs, f i + x := by
  rw [Finset.sum_update_of_mem hr, Finset.sum_eq_add_sum_sdiff_singleton_of_mem hr f]
  omega

variable {config} {s s' : Pools R}

theorem Inv.step {grant : Option (Grant R)} (h : Inv s) (hstep : Step config s grant s') :
    Inv s' := by
  unfold Inv at h ⊢
  cases hstep with
  | call c hbegin => simpa [hbegin] using h
  | @growChild a f r n | @tryGrowChild a f r n =>
    have hsum := sum_update f (Finset.mem_univ r) (f r + n)
    simp only [Multiset.map_cons, Multiset.sum_cons, Call.pending] at h ⊢
    omega
  | @shrink a f r n =>
    have hsum := sum_update f (Finset.mem_univ r) (f r - n)
    simp only [Multiset.map_cons, Multiset.sum_cons, Call.pending] at h ⊢
    omega
  | _ =>
    simp only [Multiset.map_cons, Multiset.sum_cons, Call.pending] at h ⊢
    omega

/-- In every interleaving the parent has reserved at least what the children have, and the same if
no call is in progress. What a tiered pool reports is the amount of its child. A pool that grants a
`try_grow` is within its limit after that. -/
theorem tiered_conserved [Fintype P] (h : Reachable Init (Next config) s) :
    ∑ p, childReserved config s.child p ≤ s.parent ∧
      (s.calls = 0 → s.parent = ∑ p, childReserved config s.child p) ∧
      (∀ p, reserved config s p = childReserved config s.child p) ∧
      ∀ grant s', Step config s grant s' →
        (grant = some .parent → ∀ limit ∈ config.parentLimit, s'.parent ≤ limit) ∧
        ∀ r, grant = some (.child r) → ∀ limit ∈ config.childLimit (config.pool r),
          childReserved config s'.child (config.pool r) ≤ limit := by
  have hinv : Inv s := by
    refine init_invariant _ _ Inv ?_ ?_ s h
    · rintro _ rfl
      simp [Inv]
    · rintro s s' ⟨grant, hstep⟩ h
      exact h.step hstep
  have hsum : ∑ p, childReserved config s.child p = ∑ r, s.child r :=
    Finset.sum_fiberwise _ config.pool s.child
  have hle : ∑ p, childReserved config s.child p ≤ s.parent := by
    unfold Inv at hinv
    omega
  refine ⟨hle, fun hcalls => ?_, fun p => ?_, fun grant s' hstep => ⟨?_, ?_⟩⟩
  · unfold Inv at hinv
    rw [hinv, hsum, hcalls]
    rfl
  · refine min_eq_right ((Finset.single_le_sum ?_ (Finset.mem_univ p)).trans hle)
    exact fun _ _ => Nat.zero_le _
  · rintro rfl
    cases hstep with
    | tryGrow hlimit => exact hlimit
  · rintro r rfl
    cases hstep with
    | @tryGrowChild a f r n cs hlimit =>
      intro limit hl
      have hle := hlimit limit hl
      have hsum := @sum_update R _ f {i | config.pool i = config.pool r} r (by simp) (f r + n)
      simp only [childReserved] at hle ⊢
      omega

/-- Two pools with the limit 5. The second one refuses a `try_grow` by 6 after the parent has
granted it, and the calls overlap. -/
theorem tiered_conserved_three : ∃ s : Pools Bool, s.parent = 3 ∧ s.child true = 3 ∧
    s.child false = 0 ∧ s.calls = 0 ∧
    s.parent = ∑ p, childReserved ⟨id, some 10, fun _ => some 5⟩ s.child p := by
  let config : Config Bool Bool := ⟨id, some 10, fun _ => some 5⟩
  have hinit : Reachable Init (Next config) ⟨0, fun _ => 0, 0⟩ := .init rfl
  have hcalls := (hinit.step ⟨_, .call (.tryGrow false 6) rfl⟩).step
    ⟨_, .call (.tryGrow true 3) rfl⟩
  have hfirst := hcalls.step ⟨_, .tryGrow (by decide)⟩
  rw [Multiset.cons_swap] at hfirst
  have hsecond := (hfirst.step ⟨_, .tryGrow (by decide)⟩).step ⟨_, .refuseChild⟩
  rw [Multiset.cons_swap] at hsecond
  have hdone := (hsecond.step ⟨_, .tryGrowChild (by decide)⟩).step ⟨_, .rollback⟩
  exact ⟨_, rfl, rfl, rfl, rfl, (tiered_conserved hdone).2.1 rfl⟩

end CampNode.TieredMemoryPool

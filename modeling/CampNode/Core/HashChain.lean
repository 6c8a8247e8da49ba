import Mathlib.Data.List.Chain
import Mathlib.Tactic.Common

/-!
# CampNode.Core.HashChain — sequences linked by number and hash

Elements carry a number, a hash and the hash of their predecessor. A list is a
hash chain if every element has the number after, and the hash of, the one before
it. Where a number and a hash identify an element, two hash chains that share an
element agree below it as far as both go down (`mem_of_shared`).
-/

namespace CampNode

open List

variable {α H : Type} (num : α → Nat) (hash : α → H) (prev : α → Option H)

/-- `b` comes right after `a`. -/
def Link (a b : α) : Prop := num b = num a + 1 ∧ prev b = some (hash a)

/-- A gap-free, hash-linked sequence. -/
def HashChain (l : List α) : Prop := l.IsChain (Link num hash prev)

/-- The elements with a number from `lo` to `hi`. -/
def between (l : List α) (lo hi : Nat) : List α :=
  l.filter fun a => decide (lo ≤ num a) && decide (num a ≤ hi)

variable {num hash prev} {l l' : List α}

theorem mem_between {lo hi : Nat} {a : α} :
    a ∈ between num l lo hi ↔ a ∈ l ∧ lo ≤ num a ∧ num a ≤ hi := by
  simp [between]

namespace HashChain

section

variable (h : HashChain num hash prev l)
include h

/-- Numbers increase along a chain. -/
theorem pairwise_lt : l.Pairwise (fun a b => num a < num b) := by
  have hlt : l.IsChain (fun a b => num a < num b) :=
    List.IsChain.imp (fun a b hab => by rw [hab.1]; exact Nat.lt_succ_self _) h
  exact isChain_iff_pairwise.mp hlt

theorem eq_of_num {a b : α} (ha : a ∈ l) (hb : b ∈ l) (hnum : num a = num b) : a = b := by
  by_contra hne
  have hpair : l.Pairwise (fun a b => num a ≠ num b) :=
    h.pairwise_lt.imp fun {a b} hlt => Nat.ne_of_lt hlt
  have : Std.Symm (fun a b : α => num a ≠ num b) := ⟨fun _ _ hab => hab.symm⟩
  exact hpair.forall ha hb hne hnum

/-- The first element has the least number. -/
theorem num_le_of_head {b c : α} (hb : b ∈ l.head?) (hc : c ∈ l) : num b ≤ num c := by
  cases l with
  | nil => simp at hc
  | cons d l =>
    cases hb
    rcases mem_cons.mp hc with rfl | hc
    · exact Nat.le_refl _
    · exact Nat.le_of_lt ((pairwise_cons.mp h.pairwise_lt).1 c hc)

/-- The last element has the greatest number. -/
theorem num_le_of_getLast {b c : α} (hb : b ∈ l.getLast?) (hc : c ∈ l) : num c ≤ num b := by
  rcases mem_getLast?_eq_getLast hb with ⟨hne, rfl⟩
  rw [← dropLast_append_getLast hne] at hc
  rcases mem_append.mp hc with hc | hc
  · have hpair := h.pairwise_lt
    rw [← dropLast_append_getLast hne] at hpair
    exact Nat.le_of_lt ((pairwise_append.mp hpair).2.2 c hc _ (by simp))
  · rw [mem_singleton.mp hc]

/-- Every element but the first follows another. -/
theorem exists_link {f b : α} (hf : f ∈ l) (hb : b ∈ l)
    (hlt : num f < num b) : ∃ a ∈ l, Link num hash prev a b := by
  induction l generalizing f with
  | nil => simp at hf
  | cons c l ih =>
    have htail : HashChain num hash prev l := List.IsChain.tail h
    have hpair := pairwise_cons.mp h.pairwise_lt
    have hbl : b ∈ l := by
      rcases mem_cons.mp hb with rfl | hb
      · -- nothing lies below the first element
        rcases mem_cons.mp hf with rfl | hf
        · omega
        · have := hpair.1 f hf
          omega
      · exact hb
    cases l with
    | nil => simp at hbl
    | cons d l =>
      have hcd : Link num hash prev c d := (isChain_cons_cons.mp h).1
      by_cases hdb : d = b
      · subst hdb
        exact ⟨c, by simp, hcd⟩
      have hdlt : num d < num b := by
        rcases mem_cons.mp hbl with rfl | hbl'
        · exact absurd rfl hdb
        · exact (pairwise_cons.mp htail.pairwise_lt).1 b hbl'
      rcases ih (f := d) htail (by simp) hbl hdlt with ⟨a, ha, hab⟩
      exact ⟨a, mem_cons_of_mem _ ha, hab⟩

/-- Chains have no gaps. -/
theorem exists_num {f b : α} (hf : f ∈ l) (hb : b ∈ l) {n : Nat}
    (hfn : num f ≤ n) (hnb : n ≤ num b) : ∃ a ∈ l, num a = n := by
  obtain ⟨k, hk⟩ : ∃ k, num b = n + k := ⟨num b - n, by omega⟩
  induction k generalizing b with
  | zero => exact ⟨b, hb, by omega⟩
  | succ k ih =>
    rcases h.exists_link hf hb (by omega) with ⟨a, ha, hab⟩
    have := hab.1
    exact ih ha (by omega) (by omega)

/-- Elements of consecutive numbers are linked. -/
theorem link_of_succ {a b : α} (ha : a ∈ l) (hb : b ∈ l)
    (hnum : num b = num a + 1) : Link num hash prev a b := by
  rcases h.exists_link ha hb (by omega) with ⟨c, hc, hcb⟩
  have := hcb.1
  rw [h.eq_of_num ha hc (by omega)]
  exact hcb

/-- An interval of a chain is a chain. -/
theorem between (lo hi : Nat) : HashChain num hash prev (between num l lo hi) := by
  induction l with
  | nil => exact List.IsChain.nil
  | cons a l ih =>
    have htail : HashChain num hash prev l := List.IsChain.tail h
    have hpair := pairwise_cons.mp h.pairwise_lt
    unfold CampNode.between
    rw [filter_cons]
    split
    · rename_i ha
      simp only [Bool.and_eq_true, decide_eq_true_eq] at ha
      refine isChain_cons.mpr ⟨?_, ih htail⟩
      intro b hb
      -- the next element of the interval is the next of the chain
      have hbl : b ∈ CampNode.between num l lo hi := mem_of_mem_head? hb
      rcases mem_between.mp hbl with ⟨hbl, hlo, hhi⟩
      have hab := hpair.1 b hbl
      rcases h.exists_num (mem_cons_self ..) (mem_cons_of_mem _ hbl)
        (n := num a + 1) (by omega) (by omega) with ⟨c, hc, hcn⟩
      have hcl : c ∈ l := by
        rcases mem_cons.mp hc with rfl | hc
        · omega
        · exact hc
      have hcmem : c ∈ CampNode.between num l lo hi := mem_between.mpr ⟨hcl, by omega, by omega⟩
      have hbc : num b ≤ num c := (ih htail).num_le_of_head hb hcmem
      have heq : b = c := htail.eq_of_num hbl hcl (by omega)
      subst heq
      exact h.link_of_succ (mem_cons_self ..) (mem_cons_of_mem _ hbl) hcn
    · exact ih htail

/-- An interval begins at the element with its lower bound. -/
theorem head_between {lo hi : Nat} {a : α} (ha : a ∈ l)
    (hnum : num a = lo) (hle : lo ≤ hi) : a ∈ (CampNode.between num l lo hi).head? := by
  have hmem : a ∈ CampNode.between num l lo hi := mem_between.mpr ⟨ha, by omega, by omega⟩
  cases hhead : (CampNode.between num l lo hi).head? with
  | none =>
    rw [head?_eq_none_iff.mp hhead] at hmem
    simp at hmem
  | some b =>
    have hb := mem_between.mp (mem_of_mem_head? hhead)
    have hba := (h.between lo hi).num_le_of_head hhead hmem
    rw [h.eq_of_num ha hb.1 (by omega)]
    exact Option.mem_def.mpr rfl

/-- An interval ends at the element with its upper bound. -/
theorem getLast_between {lo hi : Nat} {a : α} (ha : a ∈ l)
    (hnum : num a = hi) (hle : lo ≤ hi) : a ∈ (CampNode.between num l lo hi).getLast? := by
  have hmem : a ∈ CampNode.between num l lo hi := mem_between.mpr ⟨ha, by omega, by omega⟩
  cases hlast : (CampNode.between num l lo hi).getLast? with
  | none =>
    rw [getLast?_eq_none_iff.mp hlast] at hmem
    simp at hmem
  | some b =>
    have hb := mem_between.mp (mem_of_mem_getLast? hlast)
    have hba := (h.between lo hi).num_le_of_getLast hlast hmem
    rw [h.eq_of_num ha hb.1 (by omega)]
    exact Option.mem_def.mpr rfl

/-- The elements below a number form a chain. -/
theorem filter_lt (n : Nat) : HashChain num hash prev (l.filter fun a => decide (num a < n)) := by
  cases n with
  | zero =>
    have hnil : l.filter (fun a => decide (num a < 0)) = [] := by simp
    rw [hnil]
    exact List.IsChain.nil
  | succ n =>
    have heq : l.filter (fun a => decide (num a < n + 1)) = CampNode.between num l 0 n := by
      refine filter_congr ?_
      intro a _
      have hlt : num a < n + 1 ↔ num a ≤ n := Nat.lt_succ_iff
      simp only [hlt, Nat.zero_le, decide_true, Bool.true_and]
    rw [heq]
    exact h.between 0 n

/-- Two pieces of one chain join if their numbers do. -/
theorem append_of_mem {l₁ l₂ : List α}
    (h₁ : HashChain num hash prev l₁) (h₂ : HashChain num hash prev l₂)
    (hl₁ : ∀ a ∈ l₁, a ∈ l) (hl₂ : ∀ a ∈ l₂, a ∈ l)
    (hnum : ∀ a ∈ l₁.getLast?, ∀ b ∈ l₂.head?, num b = num a + 1) :
    HashChain num hash prev (l₁ ++ l₂) := by
  refine isChain_append.mpr ⟨h₁, h₂, ?_⟩
  intro a ha b hb
  exact h.link_of_succ (hl₁ a (mem_of_mem_getLast? ha)) (hl₂ b (mem_of_mem_head? hb))
    (hnum a ha b hb)

/-- Two chains that share an element agree below it as far as both go down. -/
theorem mem_of_shared (h' : HashChain num hash prev l')
    (hid : ∀ a ∈ l, ∀ b ∈ l', num a = num b → hash a = hash b → a = b) {x a f : α}
    (hx : x ∈ l) (hx' : x ∈ l') (ha : a ∈ l) (hle : num a ≤ num x) (hf : f ∈ l')
    (hfa : num f ≤ num a) : a ∈ l' := by
  obtain ⟨k, hk⟩ : ∃ k, num x = num a + k := ⟨num x - num a, by omega⟩
  induction k generalizing a with
  | zero =>
    rw [h.eq_of_num ha hx (by omega)]
    exact hx'
  | succ k ih =>
    -- the element after `a` is in both chains, and so is its predecessor
    rcases h.exists_num ha hx (n := num a + 1) (by omega) (by omega) with ⟨b, hb, hbn⟩
    have hb' : b ∈ l' := ih hb (by omega) (by omega) (by omega)
    have hab := h.link_of_succ ha hb hbn
    rcases h'.exists_link hf hb' (by omega) with ⟨c, hc, hcb⟩
    have hhash : hash a = hash c := by
      have := hab.2.symm.trans hcb.2
      exact Option.some.inj this
    have hnum : num a = num c := by
      have := hcb.1
      omega
    rw [hid a ha c hc hnum hhash]
    exact hc

end

end HashChain

end CampNode

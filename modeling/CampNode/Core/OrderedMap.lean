import Mathlib.Order.Lattice
import Mathlib.Order.Monotone.Basic
import Mathlib.Tactic.Common

/-!
# CampNode.Core.OrderedMap — maps that are iterated in the order of their keys

A search tree and a sorted key-value database are both a list of entries with ascending keys.
`map` changes the representation of keys and values. If it keeps the order of the keys, it
commutes with every operation.
-/

namespace CampNode

open List

/-- A finite map, as its entries in the order of the keys. -/
@[ext]
structure OrderedMap (K V : Type) [LinearOrder K] where
  entries : List (K × V)
  sorted : entries.Pairwise fun a b => a.1 < b.1

namespace OrderedMap

variable {K V : Type} [LinearOrder K]

def empty : OrderedMap K V := ⟨[], .nil⟩

variable (m : OrderedMap K V) (k : K)

def get : Option V := (m.entries.find? (·.1 == k)).map (·.2)

/-- The entries whose keys satisfy a test. -/
def keep (p : K → Bool) : OrderedMap K V :=
  ⟨m.entries.filter (p ·.1), m.sorted.filter _⟩

def erase : OrderedMap K V := m.keep (· != k)

/-- The key with a value, in place of an older value. -/
def insert (v : V) : OrderedMap K V where
  entries := (m.keep fun a => decide (a < k)).entries ++
    (k, v) :: (m.keep fun a => decide (k < a)).entries
  sorted := by
    refine List.pairwise_append.mpr ⟨sorted _, List.pairwise_cons.mpr ⟨?_, sorted _⟩, ?_⟩
    · intro b hb
      exact of_decide_eq_true (List.mem_filter.mp hb).2
    · intro a ha b hb
      have hlt : a.1 < k := of_decide_eq_true (List.mem_filter.mp ha).2
      rcases List.mem_cons.mp hb with rfl | hb
      · exact hlt
      · exact hlt.trans (of_decide_eq_true (List.mem_filter.mp hb).2)

@[simp]
theorem entries_keep (p : K → Bool) : (m.keep p).entries = m.entries.filter fun e => p e.1 := rfl

@[simp]
theorem entries_insert (v : V) :
    (m.insert k v).entries = (m.keep fun a => decide (a < k)).entries ++
      (k, v) :: (m.keep fun a => decide (k < a)).entries := rfl

theorem get_insert_self (v : V) : (m.insert k v).get k = some v := by
  have hbelow : (m.keep fun a => decide (a < k)).entries.find? (·.1 == k) = none := by
    refine find?_eq_none.mpr ?_
    intro e he heq
    have hlt : e.1 < k := of_decide_eq_true (mem_filter.mp he).2
    exact absurd (beq_iff_eq.mp heq) hlt.ne
  have hself : ((k, v).1 == k) = true := beq_self_eq_true k
  unfold get
  rw [entries_insert, find?_append, hbelow, Option.none_or, find?_cons, hself]
  rfl

/-! ## Iteration -/

/-- If the test holds of a start of the list only, the scan that stops where it fails finds all
members that pass. -/
theorem takeWhile_eq_filter {α : Type} {p : α → Bool} {l : List α}
    (hmono : l.Pairwise fun a b => p b = true → p a = true) : l.takeWhile p = l.filter p := by
  induction l with
  | nil => rfl
  | cons a l ih =>
    rcases pairwise_cons.mp hmono with ⟨hhead, htail⟩
    cases ha : p a with
    | true =>
      have hpos : p a = true := ha
      rw [takeWhile_cons_of_pos hpos, filter_cons_of_pos hpos, ih htail]
    | false =>
      have hneg : ¬ p a = true := Bool.eq_false_iff.mp ha
      have hnone : l.filter p = [] := filter_eq_nil_iff.mpr fun b hb hpb => hneg (hhead b hb hpb)
      rw [takeWhile_cons_of_neg hneg, filter_cons_of_neg hneg, hnone]

/-- Iteration up to the first key after a bound sees all keys up to the bound. -/
theorem takeWhile_le (bound : K) : m.entries.takeWhile (fun e => decide (e.1 ≤ bound)) =
      m.entries.filter fun e => decide (e.1 ≤ bound) := by
  refine takeWhile_eq_filter (m.sorted.imp ?_)
  intro a b hlt hb
  exact decide_eq_true (hlt.le.trans (of_decide_eq_true hb))

/-- Erasing some keys one after the other keeps the others. -/
theorem foldl_erase (keys : List K) : keys.foldl erase m = m.keep fun k => decide (k ∉ keys) := by
  induction keys generalizing m with
  | nil =>
    refine OrderedMap.ext ?_
    exact (filter_eq_self.mpr fun e _ => decide_eq_true not_mem_nil).symm
  | cons k keys ih =>
    rw [foldl_cons, ih]
    refine OrderedMap.ext ?_
    show ((m.keep _).keep _).entries = (m.keep _).entries
    simp only [entries_keep, filter_filter]
    refine filter_congr ?_
    intro e _
    rw [Bool.eq_iff_iff]
    simp only [Bool.and_eq_true, decide_eq_true_eq, bne_iff_ne, mem_cons, not_or]
    exact And.comm

/-- Erasing the keys that the scan up to a bound finds leaves those after the bound. -/
theorem foldl_erase_takeWhile_le (bound : K) :
    ((m.entries.takeWhile fun e => decide (e.1 ≤ bound)).map (·.1)).foldl erase m =
      m.keep fun k => decide (bound < k) := by
  rw [takeWhile_le, foldl_erase]
  refine OrderedMap.ext (filter_congr ?_)
  intro e he
  refine decide_eq_decide.mpr ⟨?_, ?_⟩
  · intro hnot
    refine not_le.mp fun hle => hnot ?_
    exact mem_map_of_mem (mem_filter.mpr ⟨he, decide_eq_true hle⟩)
  · intro hlt hmem
    rcases mem_map.mp hmem with ⟨e', he', heq⟩
    have hle : e'.1 ≤ bound := of_decide_eq_true (mem_filter.mp he').2
    rw [heq] at hle
    exact absurd hlt (not_lt.mpr hle)

/-! ## Other representations -/

section Map

variable {K' V' : Type} [LinearOrder K'] {f : K → K'} (hf : StrictMono f) (g : V → V')

/-- The map with its keys and values in another representation. -/
def map (m : OrderedMap K V) : OrderedMap K' V' where
  entries := m.entries.map fun e => (f e.1, g e.2)
  sorted := List.pairwise_map.mpr (m.sorted.imp fun h => hf h)

@[simp]
theorem entries_map (m : OrderedMap K V) :
    (m.map hf g).entries = m.entries.map fun e => (f e.1, g e.2) := rfl

theorem map_empty : (empty : OrderedMap K V).map hf g = empty := rfl

theorem get_map (m : OrderedMap K V) (k : K) : (m.map hf g).get (f k) = (m.get k).map g := by
  have htest : ((fun e : K' × V' => e.1 == f k) ∘ fun e : K × V => (f e.1, g e.2)) =
      fun e => e.1 == k := by
    funext e
    rw [Bool.eq_iff_iff]
    simp only [Function.comp_apply, beq_iff_eq]
    exact hf.injective.eq_iff
  unfold get map
  rw [find?_map, htest, Option.map_map, Option.map_map]
  rfl

theorem keep_map (m : OrderedMap K V) {p : K → Bool} {p' : K' → Bool} (hp : ∀ k, p' (f k) = p k) :
    (m.map hf g).keep p' = (m.keep p).map hf g := by
  refine OrderedMap.ext ?_
  rw [entries_keep, entries_map, entries_map, entries_keep, filter_map]
  congr 2
  funext e
  exact hp e.1

theorem insert_map (m : OrderedMap K V) (k : K) (v : V) :
    (m.map hf g).insert (f k) (g v) = (m.insert k v).map hf g := by
  have hbelow : (m.map hf g).keep (fun a => decide (a < f k)) =
      (m.keep fun a => decide (a < k)).map hf g :=
    keep_map hf g m fun _ => decide_eq_decide.mpr hf.lt_iff_lt
  have habove : (m.map hf g).keep (fun a => decide (f k < a)) =
      (m.keep fun a => decide (k < a)).map hf g :=
    keep_map hf g m fun _ => decide_eq_decide.mpr hf.lt_iff_lt
  refine OrderedMap.ext ?_
  rw [entries_insert, hbelow, habove, entries_map, entries_map, entries_map, entries_insert,
    map_append, map_cons]

end Map

end OrderedMap

end CampNode

import Mathlib
import MonotoneQueue.Proofs.Radix.Keyed
import MonotoneQueue.Proofs.Radix.Peek

/- What a monotone queue holds, read off the queue as it is stored: the elements in its storage with their
   priorities, and the keys that are met along the list of a bucket. In a sound queue these are those of the
   bucket lists that it stands for, and so an element lies in the bucket whose number is the length of the
   difference between its priority and the floor (`Stands.mem_keysIn_iff`). -/
namespace MonotoneQueue.Radix

variable {w : Nat} {α : Type} {S : Type → Type} [Storage S]

/-- The pairs that an operation brings. -/
def Op.brings : Op w α → List (BitVec w × α)
  | .queue op => op.pushed
  | .pushHandle p v => [(p, v)]
  | .tryPush p v => [(p, v)]
  | _ => []

/-- The priorities of the elements in the queue, in no order. -/
def priorities (q : Radix w α S) : Multiset (BitVec w) :=
  ((Storage.entries q.nodes).map fun e => e.2.priority : List _)

/-- The pairs in the queue, in no order. -/
def contents (q : Radix w α S) : Multiset (BitVec w × α) :=
  ((Storage.entries q.nodes).map fun e => (e.2.priority, e.2.value) : List _)

/-- The keys along the list of a bucket. -/
def keysIn (q : Radix w α S) (i : Fin (w + 1)) : List Key :=
  match chain q.nodes (Storage.size q.nodes) (q.heads.get i) with
  | .ok c => c.map Prod.fst
  | .error _ => []

variable {q : Radix w α S} {B : Buckets w α}

theorem Represents.entries_eq (h : Represents q B []) :
    (((Storage.entries q.nodes).map fun e => Item.of e.1 e.2 : List (Item w α)) : Multiset (Item w α)) =
      B.items := by
  have hentries : ((Storage.entries q.nodes).map fun e => Item.of e.1 e.2).Nodup := by
    apply List.Nodup.of_map Item.key
    rw [List.map_map]
    exact Storage.nodup_keys_entries q.nodes
  have hitems := h.nodup
  rw [Multiset.coe_nil, add_zero] at hitems
  apply (Multiset.Nodup.ext (Multiset.coe_nodup.mpr hentries) hitems.of_map).mpr
  intro x
  rw [h.mem_items_iff, Multiset.mem_coe, List.mem_map]
  constructor
  · rintro ⟨⟨k, n⟩, he, rfl⟩
    exact ⟨n.prev, n.next, Storage.mem_entries.mp he⟩
  · rintro ⟨prev, next, hk⟩
    exact ⟨_, Storage.mem_entries.mpr hk, Item.of_node x prev next⟩

theorem Represents.priorities_eq (h : Represents q B []) : q.priorities = B.items.map Item.priority := by
  rw [← h.entries_eq, Multiset.map_coe, List.map_map]
  rfl

theorem Represents.contents_eq (h : Represents q B []) : q.contents = B.pairs := by
  rw [Buckets.pairs, ← h.entries_eq, Multiset.map_coe, List.map_map]
  rfl

theorem Represents.head_eq_none_iff (h : Represents q B []) (i : Fin (w + 1)) :
    q.heads.get i = none ↔ B.list i = [] := by
  rw [h.head_eq]
  cases B.list i <;> simp [firstKey]

theorem Represents.keysIn_eq (h : Represents q B []) (i : Fin (w + 1)) :
    q.keysIn i = (B.list i).map Item.key := by
  obtain ⟨c, hc, hitems⟩ := chain_linked (h.linked i) (h.length_le i)
  rw [keysIn, h.head_eq, hc, ← hitems, List.map_map]
  rfl

namespace Stands

theorem size_eq_card (h : Stands q B) : q.size = q.priorities.card := by
  rw [h.represents.priorities_eq, Multiset.card_map, h.size_eq, Buckets.pairs, Multiset.card_map]

theorem pop_of_size (hw : w ≤ 128) (h : Stands q B) :
    (q.size = 0 ∧ q.pop = .ok none) ∨ q.size ≠ 0 ∧ ∃ top, q.pop = .ok (some top) := by
  rw [h.size_eq, Ne, Multiset.card_eq_zero]
  obtain ⟨hzero, hq⟩ | ⟨top, B', hq, -, -, hitems, -⟩ := h.exists_pop hw
  · exact Or.inl ⟨hzero, hq⟩
  · refine Or.inr ⟨?_, top, hq⟩
    rw [show B.pairs = _ from hitems]
    exact Multiset.cons_ne_zero

theorem peek_of_size (hw : w ≤ 128) (h : Stands q B) :
    (q.size = 0 ∧ q.peek = .ok none) ∨ q.size ≠ 0 ∧ ∃ x, q.peek = .ok (some x) := by
  obtain ⟨hzero, hq⟩ | ⟨hne, top, hq⟩ := h.pop_of_size hw
  · exact Or.inl ⟨hzero, peek_of_pop hq⟩
  · exact Or.inr ⟨hne, top.item, peek_of_pop hq⟩

/-- An element lies in the bucket whose number is the length of its difference to the floor. -/
theorem mem_keysIn_iff (h : Stands q B) {k : Key} {i : Fin (w + 1)} :
    k ∈ q.keysIn i ↔ ∃ x, q.get? k = some x ∧ Buckets.indexOf q.floor x.1 = i := by
  rw [h.represents.keysIn_eq, List.mem_map, h.represents.floor_eq]
  constructor
  · rintro ⟨x, hx, rfl⟩
    refine ⟨x.pair, h.represents.get?_eq_some_iff.mpr (Buckets.mem_items.mpr ⟨i, hx⟩), ?_⟩
    exact h.placed.index i x hx
  · rintro ⟨x, hk, hi⟩
    obtain ⟨j, hj⟩ := Buckets.mem_items.mp (h.represents.get?_eq_some_iff.mp hk)
    rw [← hi, h.placed.index j _ hj]
    exact ⟨_, hj, rfl⟩

end Stands
end MonotoneQueue.Radix

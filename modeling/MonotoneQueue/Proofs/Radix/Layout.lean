import Mathlib
import MonotoneQueue.Proofs.Radix.Bag

/- The layout of a monotone queue in every state that a user can bring about
   (`Session.after_wellFormed`). `WellFormed` says it of the stored queue alone, with the lists of
   the buckets as the only thing that the queue does not name itself. -/
namespace MonotoneQueue.Radix

variable {w : Nat} {α : Type} {S : Type → Type} [Storage S]

/-- The queue is laid out as it should be, with these lists in its buckets. -/
structure WellFormed (q : Radix w α S) (list : Fin (w + 1) → List (Item w α)) : Prop where
  /-- A bucket names the first element of its list, if there is one. -/
  head_eq : ∀ i, q.heads.get i = firstKey none (list i)
  /-- Neighbours in a list name each other; the first names none before it, the last none after. -/
  linked : ∀ i, Linked q.nodes none none (list i)
  /-- An element lies in one list, once, and the length of its difference to the floor is the
      number of the bucket. -/
  count_eq : ∀ k n, Storage.get? q.nodes k = some n →
    ∃ i : Fin (w + 1), i.val = bitLength (difference n.priority q.floor) ∧
      ∀ j, ((list j).map Item.key).count k = if j = i then 1 else 0
  floor_le : ∀ k n, Storage.get? q.nodes k = some n → q.floor ≤ n.priority
  /-- A bucket above 0 has its bit in the mask set exactly if it holds elements. -/
  mask_iff : ∀ i : Fin (w + 1), i ≠ 0 → (q.mask.getLsbD (w - i) = true ↔ list i ≠ [])
  /-- The mask has no bits but those of buckets above 0. -/
  mask_only : ∀ j, q.mask.getLsbD j = true → ∃ i : Fin (w + 1), i ≠ 0 ∧ j = w - i
  size_eq : ∑ i, (list i).length = q.size

theorem Stands.wellFormed {q : Radix w α S} {B : Buckets w α} (h : Stands q B) :
    q.WellFormed B.list := by
  -- an element lies where its item lies
  have place : ∀ k n, Storage.get? q.nodes k = some n →
      ∃ i, Item.of k n ∈ B.list i ∧ i.val = bitLength (difference n.priority q.floor) := by
    intro k n hk
    obtain ⟨i, hi⟩ := h.represents.exists_item hk
    refine ⟨i, hi, ?_⟩
    rw [h.represents.floor_eq, ← h.placed.index i _ hi]
    rfl
  constructor
  case head_eq => exact h.represents.head_eq
  case linked => exact h.represents.linked
  case count_eq =>
    intro k n hk
    obtain ⟨i, hi, hindex⟩ := place k n hk
    have hmem : k ∈ (B.list i).map Item.key := List.mem_map_of_mem hi
    refine ⟨i, hindex, fun j => ?_⟩
    split
    · next e =>
      rw [e]
      exact List.count_eq_one_of_mem (h.represents.list_nodup i) hmem
    · next e =>
      exact List.count_eq_zero_of_not_mem (h.represents.list_disjoint (Ne.symm e) hmem)
  case floor_le =>
    intro k n hk
    obtain ⟨i, hi, -⟩ := place k n hk
    rw [h.represents.floor_eq]
    exact h.placed.floor_le i _ hi
  case mask_iff => exact h.represents.mask_iff
  case mask_only =>
    intro j hj
    have hlt := h.represents.lt_of_mask j hj
    refine ⟨⟨w - j, by omega⟩, fun e => ?_, by simp; omega⟩
    have := Fin.ext_iff.mp e
    simp at this
    omega
  case size_eq =>
    rw [← B.card_items]
    have := h.represents.size_eq
    rw [Multiset.coe_nil, add_zero] at this
    exact this.symm

/-- Whatever is done with a new queue, it stays laid out as it should be. -/
theorem Session.after_wellFormed (hw : w ≤ 128) (n : Nat) (g : Gauge) (ops : List (Op w α)) :
    ∃ list, ((ofHeap (emptyWithCapacity n g) : Session w α S).after ops).heap.WellFormed list := by
  have hstart : Stands (ofHeap (emptyWithCapacity n g) : Session w α S).heap Buckets.empty :=
    .emptyWithCapacity n g
  obtain ⟨B, h⟩ := exists_stands hw hstart ops
  exact ⟨B.list, h.wellFormed⟩

/-- A bucket is emptied and its other element linked below it, then a push below the floor is
    refused. -/
theorem Session.after_wellFormed_bytes : 8 ≤ 128 ∧ ∃ list,
    ((ofHeap (emptyWithCapacity 0 .leadingZeros) : Session 8 Nat).after
      [.tryPush 100 0, .tryPush 64 1, .tryPop, .tryPush 3 2]).heap.WellFormed list :=
  ⟨by decide, after_wellFormed (by decide) 0 .leadingZeros _⟩

end MonotoneQueue.Radix

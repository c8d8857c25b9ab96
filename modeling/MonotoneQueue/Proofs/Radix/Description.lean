import Mathlib
import MonotoneQueue.Proofs.Radix.Relinked

/- What a monotone queue tells about itself is a matter of its floor and of the priorities that it holds, in
   whatever way these came about. Its description lists the lengths of the differences between priorities and
   floor, since a bucket names a first element exactly if some priority belongs there (`Stands.occupied_eq`). A
   pop tells of an emptied bucket exactly if the least priority is above the floor, and then of as many elements
   linked again as belong to the same bucket (`Session.after_tells`). -/
namespace MonotoneQueue.Radix

open Text

variable {w : Nat} {α : Type} {S : Type → Type} [Storage S]

/-- The numbers of the buckets to which priorities belong over a floor, in ascending order. -/
def bucketNumbers (m : BitVec w) (M : Multiset (BitVec w)) : List Nat :=
  (M.map fun p => bitLength (difference p m)).toFinset.sort

/-- How priorities over a floor are described. -/
def layoutOf (m : BitVec w) (M : Multiset (BitVec w)) : Layout :=
  .record "RadixHeap"
    [.field "len" (.number M.card),
     .field "minimum" (.atom (shown m)),
     .field "occupied_buckets" (.list ((bucketNumbers m M).map .number))]

/-! The description. -/

namespace Stands

variable {q : Radix w α S} {B : Buckets w α}

theorem mem_occupied_iff (h : Stands q B) {n : Nat} :
    n ∈ q.occupied ↔ ∃ p ∈ q.priorities, bitLength (difference p q.floor) = n := by
  have hhead : ∀ i, (q.heads.get i).isSome = true ↔ B.list i ≠ [] := by
    intro i
    rw [Option.isSome_iff_ne_none, Ne, h.represents.head_eq_none_iff]
  simp only [occupied, List.mem_filterMap, h.represents.priorities_eq, Multiset.mem_map]
  constructor
  · rintro ⟨i, -, hi⟩
    split at hi
    · next hsome =>
      obtain ⟨x, hx⟩ := List.exists_mem_of_ne_nil _ ((hhead i).mp hsome)
      refine ⟨x.priority, ⟨x, Buckets.mem_items.mpr ⟨i, hx⟩, rfl⟩, ?_⟩
      rw [h.represents.floor_eq, ← Option.some.inj hi]
      exact Fin.ext_iff.mp (h.placed.index i x hx)
    · cases hi
  · rintro ⟨_, ⟨x, hx, rfl⟩, hn⟩
    obtain ⟨i, hi⟩ := Buckets.mem_items.mp hx
    refine ⟨i, List.mem_finRange i, ?_⟩
    rw [if_pos ((hhead i).mpr (List.ne_nil_of_mem hi)), ← hn, h.represents.floor_eq]
    exact congrArg some (Fin.ext_iff.mp (h.placed.index i x hi)).symm

theorem occupied_eq (h : Stands q B) : q.occupied = bucketNumbers q.floor q.priorities := by
  have hsorted : q.occupied.SortedLT := by
    apply List.Pairwise.sortedLT
    rw [occupied, List.pairwise_filterMap]
    apply (List.sortedLT_finRange (w + 1)).pairwise.imp
    intro i j hij a ha b hb
    split at ha <;> cases ha
    split at hb <;> cases hb
    exact hij
  apply hsorted.eq_of_mem_iff (Finset.sortedLT_sort _)
  intro n
  rw [h.mem_occupied_iff, Finset.mem_sort, Multiset.mem_toFinset, Multiset.mem_map]

theorem layout_eq (h : Stands q B) : q.layout = layoutOf q.floor q.priorities := by
  rw [layout, layoutOf, h.size_eq_card, h.occupied_eq]

end Stands

/-! Notices. -/

namespace Buckets.Parts

variable {B B' : Buckets w α} {x : Item w α} {moved : List (Item w α)} {kept : Multiset (Item w α)}
  {told : Option (Notice (BitVec w))}

/-- What moves is everything else that belongs to the same bucket. -/
theorem length_moved (h : B.Parts x moved kept told B') (hlt : B.floor < x.priority) :
    moved.length = ((B.items.map Item.priority).erase x.priority).countP
      fun r => bitLength (difference r B.floor) = bitLength (difference x.priority B.floor) := by
  have hmoved : (moved : Multiset (Item w α)).countP (fun y =>
      bitLength (difference y.priority B.floor) = bitLength (difference x.priority B.floor)) =
        moved.length := by
    rw [← Multiset.coe_card, Multiset.countP_eq_card]
    exact fun y hy => Fin.ext_iff.mp (h.moved_index y hy)
  have hkept : kept.countP (fun y =>
      bitLength (difference y.priority B.floor) = bitLength (difference x.priority B.floor)) = 0 := by
    rw [Multiset.countP_eq_zero]
    exact fun y hy e => h.kept_ne hlt y hy (Fin.ext e)
  rw [h.items_eq, Multiset.map_cons, Multiset.erase_cons_head, Multiset.countP_map,
    ← Multiset.countP_eq_card_filter, Multiset.countP_add, hmoved, hkept, add_zero]

end Buckets.Parts

namespace Session

/-- What a session tells about priorities over a floor. -/
structure Tells (s : Session w α S) (m : BitVec w) (M : Multiset (BitVec w)) : Prop where
  floor_reply : (s.run .floor).reply = .priority m
  describe_reply : ∀ style,
    (s.run (.queue (.describe style))).reply = .text (some ((layoutOf m M).render style))
  /-- A pop tells something exactly if the least priority is above the floor. -/
  notices_ne_nil : ∀ op, op = .queue .pop ∨ op = .tryPop →
    ((s.run op).notices ≠ [] ↔ ∃ p ∈ M, (∀ r ∈ M, p ≤ r) ∧ m < p)
  /-- It tells the bucket of the least priority, that priority, and how many others belong to the bucket. -/
  notices_eq : ∀ op, op = .queue .pop ∨ op = .tryPop → ∀ p ∈ M, (∀ r ∈ M, p ≤ r) → m < p →
    (s.run op).notices = [⟨bitLength (difference p m), p,
      (M.erase p).countP fun r => bitLength (difference r m) = bitLength (difference p m)⟩]

theorem notices_of_pop {s : Session w α S} {op : Op w α} (hop : op = .queue .pop ∨ op = .tryPop)
    {found : Option (Popped (Radix w α S) (BitVec w) α)} (hq : s.heap.pop = .ok found) :
    (s.run op).notices = (found.bind Popped.notice).toList := by
  obtain ⟨reply, hpops⟩ := Op.exists_pops hop
  cases found with
  | none => rw [(Acts.nothing hpops hq).run_eq, Option.bind_none, Option.toList_none]
  | some top => rw [(Acts.pop hpops hq).run_eq, Option.bind_some]

/-- A pop tells of the bucket to which the least priority belongs, if that is above the floor. -/
theorem notices_cases (hw : w ≤ 128) {s : Session w α S} {B : Buckets w α} (h : Stands s.heap B) {op : Op w α}
    (hop : op = .queue .pop ∨ op = .tryPop) :
    (s.heap.priorities = 0 ∧ (s.run op).notices = []) ∨
      ∃ p ∈ s.heap.priorities, (∀ r ∈ s.heap.priorities, p ≤ r) ∧
        (s.run op).notices = if s.heap.floor < p then [⟨bitLength (difference p s.heap.floor), p,
          (s.heap.priorities.erase p).countP fun r =>
            bitLength (difference r s.heap.floor) = bitLength (difference p s.heap.floor)⟩] else [] := by
  rw [h.represents.priorities_eq, h.represents.floor_eq]
  obtain ⟨hzero, hq, -⟩ | ⟨x, moved, kept, B', top, hq, -, -, -, hparts⟩ := h.pop_parts hw
  · exact Or.inl ⟨by rw [hzero, Multiset.map_zero], notices_of_pop hop hq⟩
  · refine Or.inr ⟨x.priority, ?_, ?_, ?_⟩
    · rw [hparts.items_eq, Multiset.map_cons]
      exact Multiset.mem_cons_self _ _
    · intro r hr
      obtain ⟨y, hy, rfl⟩ := Multiset.mem_map.mp hr
      exact hparts.least y hy
    · rw [notices_of_pop hop hq, Option.bind_some, hparts.told_eq]
      split
      · next hlt =>
        rw [← hparts.length_moved hlt]
        rfl
      · rfl

theorem tells (hw : w ≤ 128) {s : Session w α S} {B : Buckets w α} (h : Stands s.heap B) :
    s.Tells s.heap.floor s.heap.priorities := by
  have hunique : ∀ p ∈ s.heap.priorities, (∀ r ∈ s.heap.priorities, p ≤ r) → ∀ p' ∈ s.heap.priorities,
      (∀ r ∈ s.heap.priorities, p' ≤ r) → p' = p :=
    fun p hp hleast p' hp' hleast' => BitVec.le_antisymm (hleast' p hp) (hleast p' hp')
  constructor
  case floor_reply => rfl
  case describe_reply =>
    intro style
    show Reply.text (some (s.heap.layout.render style)) = _
    rw [h.layout_eq]
  case notices_ne_nil =>
    intro op hop
    obtain ⟨hzero, hnil⟩ | ⟨p, hp, hleast, hnotices⟩ := notices_cases hw h hop
    · rw [hnil, hzero]
      simp
    · rw [hnotices]
      split
      · next hlt => exact iff_of_true (List.cons_ne_nil _ _) ⟨p, hp, hleast, hlt⟩
      · next hlt =>
        refine iff_of_false (fun hne => hne rfl) ?_
        rintro ⟨p', hp', hleast', hlt'⟩
        rw [hunique p hp hleast p' hp' hleast'] at hlt'
        exact hlt hlt'
  case notices_eq =>
    intro op hop p hp hleast hlt
    obtain ⟨hzero, -⟩ | ⟨p', hp', hleast', hnotices⟩ := notices_cases hw h hop
    · rw [hzero] at hp
      exact absurd hp (Multiset.notMem_zero p)
    · rw [hunique p hp hleast p' hp' hleast', if_pos hlt] at hnotices
      exact hnotices

/-- Whatever was done with a queue from the beginning on, what it tells about itself is a matter of its floor
    and of the priorities that it holds. -/
theorem after_tells (hw : w ≤ 128) (n : Nat) (g : Gauge) (ops : List (Op w α)) :
    let s : Session w α S := (ofHeap (emptyWithCapacity n g)).after ops
    s.Tells s.heap.floor s.heap.priorities := by
  have hstart : Stands (ofHeap (emptyWithCapacity n g) : Session w α S).heap Buckets.empty :=
    .emptyWithCapacity n g
  obtain ⟨B, h⟩ := exists_stands hw hstart ops
  exact tells hw h

/-- Of four priorities above the floor three belong to one bucket, two of them tied. -/
theorem after_tells_ties : 8 ≤ 128 ∧
    let s : Session 8 Nat := (ofHeap (emptyWithCapacity 0 .leadingZeros)).after
      [.tryPush 5 0, .tryPush 9 1, .tryPush 12 2, .tryPush 40 3, .tryPush 9 4, .tryPop]
    s.Tells s.heap.floor s.heap.priorities ∧
      (s.run (.queue (.describe .compact))).reply =
        .text (some "RadixHeap \x7b len: 4, minimum: 5, occupied_buckets: [4, 6] \x7d") ∧
      (s.run .tryPop).notices.map Notice.text =
        ["TRACE radix heap: emptied bucket 4, new minimum 9, relinked 2 nodes"] :=
  ⟨by decide, after_tells (by decide) 0 .leadingZeros _, by decide +kernel, by decide +kernel⟩

end Session
end MonotoneQueue.Radix

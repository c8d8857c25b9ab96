import Mathlib
import MonotoneQueue.Proofs.PriorityQueue.Lawful
import MonotoneQueue.Proofs.Radix.Bag

/- A monotone queue over words that its mask has room for is a lawful queue. It takes in every
   priority at or above its floor. -/
namespace MonotoneQueue.Radix

variable {w : Nat} {α : Type} {S : Type → Type} [Storage S]

/-- A sound queue holds the pairs of the bucket lists that it stands for. -/
@[reducible] def lawful (hw : w ≤ 128) : PriorityQueue.Lawful (Radix w α S) where
  Holds q M := ∃ B, Stands q B ∧ B.pairs = M
  Accepts q p := q.floor ≤ p
  holds_empty := by
    refine ⟨Buckets.empty, .emptyWithCapacity 0 .leadingZeros, ?_⟩
    rw [Buckets.pairs, Buckets.items_empty, Multiset.map_zero]
  accepts_empty p := by
    show 0#w ≤ p
    rw [BitVec.le_def, BitVec.toNat_zero]
    exact Nat.zero_le _
  push_cases := by
    rintro q M ⟨B, h, rfl⟩ p v
    have hpush : PriorityQueue.push q p v = (·.2) <$> q.insert p v := rfl
    have hfloor := h.represents.floor_eq
    rcases h.insert_cases hw p v with ⟨hp, k, q', B', hq, h', hb⟩ | ⟨hp, hq⟩
    · rw [hq, Result.map_ok] at hpush
      refine Or.inl ⟨by rwa [hfloor], q', hpush, ⟨B', h', congrArg Bag.items hb⟩, ?_⟩
      intro p' hp'
      rw [h'.represents.floor_eq, show B'.floor = B.floor from congrArg Bag.floor hb, ← hfloor]
      exact hp'
    · rw [hq, Result.map_error] at hpush
      exact Or.inr ⟨by rwa [hfloor], hpush⟩
  pop_eq_none := by
    rintro q ⟨B, h, hB⟩
    rcases h.exists_pop hw with ⟨-, hq⟩ | ⟨top, B', -, -, hpop⟩
    · exact hq
    · have hcard : B.pairs = top.item ::ₘ B'.pairs := hpop.2.1
      rw [hB] at hcard
      exact absurd hcard.symm Multiset.cons_ne_zero
  exists_pop := by
    rintro q M ⟨B, h, rfl⟩ hne
    rcases h.exists_pop hw with ⟨hz, -⟩ | ⟨top, B', hq, h', hle, hitems, hfloor⟩
    · exact absurd hz hne
    · refine ⟨top, B'.pairs, hq, hitems, ⟨B', h', rfl⟩, hle, ?_⟩
      intro p hp
      rw [h'.represents.floor_eq, show B'.floor = top.priority from hfloor]
      exact hp

end MonotoneQueue.Radix

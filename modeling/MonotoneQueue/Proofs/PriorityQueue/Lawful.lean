import Mathlib
import MonotoneQueue.PriorityQueue

/- What a search may rely on, whichever queue it runs on. A sound queue holds a multiset of pairs:
   a push that is accepted adds one, and a pop takes out one of least priority, after which nothing
   at or above that priority is refused. -/
namespace MonotoneQueue.PriorityQueue

/-- A queue type with its sound states. -/
class Lawful (Q : Type) {κ α : outParam Type} [LE κ] [PriorityQueue Q κ α] where
  /-- The queue is sound and holds these pairs. -/
  Holds : Q → Multiset (κ × α) → Prop
  /-- The queue takes in this priority. -/
  Accepts : Q → κ → Prop
  holds_empty : Holds empty 0
  accepts_empty : ∀ p, Accepts empty p
  push_cases : ∀ {q M}, Holds q M → ∀ p v,
    (Accepts q p ∧ ∃ q', push q p v = .ok q' ∧ Holds q' ((p, v) ::ₘ M) ∧
      ∀ p', Accepts q p' → Accepts q' p') ∨
    (¬ Accepts q p ∧ push q p v = .error .belowFloor)
  pop_eq_none : ∀ {q}, Holds q 0 → pop q = .ok none
  exists_pop : ∀ {q M}, Holds q M → M ≠ 0 → ∃ top M', pop q = .ok (some top) ∧
    M = top.item ::ₘ M' ∧ Holds top.rest M' ∧ (∀ x ∈ M, top.priority ≤ x.1) ∧
    ∀ p, top.priority ≤ p → Accepts top.rest p

end MonotoneQueue.PriorityQueue

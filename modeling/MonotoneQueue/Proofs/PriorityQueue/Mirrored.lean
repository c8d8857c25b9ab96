import Mathlib
import MonotoneQueue.PriorityQueue.Op
import MonotoneQueue.Proofs.Result

/- Queues that take in and give out the same. A relation of queues is a mirror if related queues have the same
   size, take in and refuse the same pushes, and give out the same elements, and if they are related still when
   something has gone in or come out. Then the same holds of several pushes, and of pops until nothing is
   left. -/
namespace MonotoneQueue

variable {Q Q' κ α : Type}

/-- What the user is told: the reply and the buckets emptied on the way. -/
def Answer.told {S : Type} (a : Answer S κ α) : Reply κ α × List (Notice κ) := (a.reply, a.notices)

/-- The same comes out, and what is left is related. -/
structure Popped.Mirrors (R : Q → Q' → Prop) (top : Popped Q κ α) (top' : Popped Q' κ α) : Prop where
  item_eq : top.item = top'.item
  notice_eq : top.notice = top'.notice
  rest : R top.rest top'.rest

namespace PriorityQueue

/-- The same comes out, and what is left is related. -/
structure Drained.Mirrors (R : Q → Q' → Prop) (d : Drained Q κ α) (d' : Drained Q' κ α) : Prop where
  items_eq : d.items = d'.items
  notices_eq : d.notices = d'.notices
  rest : R d.rest d'.rest

variable [PriorityQueue Q κ α] [PriorityQueue Q' κ α]

/-- Related queues take in and give out the same, now and later. -/
structure Mirror (R : Q → Q' → Prop) : Prop where
  size_eq : ∀ {q q'}, R q q' → size q = size q'
  push : ∀ {q q'}, R q q' → ∀ p v, Result.Rel R (push q p v) (push q' p v)
  pop : ∀ {q q'}, R q q' → Result.Rel (Option.Rel (Popped.Mirrors R)) (pop q) (pop q')

namespace Mirror

variable {R : Q → Q' → Prop} {q : Q} {q' : Q'}

theorem pushAll (h : Mirror R) (hq : R q q') (items : List (κ × α)) :
    R (pushAll q items).1 (pushAll q' items).1 ∧ (pushAll q items).2 = (pushAll q' items).2 := by
  induction items generalizing q q' with
  | nil => exact ⟨hq, rfl⟩
  | cons x rest ih =>
    obtain ⟨p, v⟩ := x
    have hpush := h.push hq p v
    simp only [PriorityQueue.pushAll]
    generalize PriorityQueue.push q p v = r, PriorityQueue.push q' p v = r' at hpush
    cases hpush with
    | error f => exact ⟨hq, rfl⟩
    | ok hrest => exact ih hrest

theorem popMany (h : Mirror R) (n : Nat) (hq : R q q') :
    Result.Rel (Drained.Mirrors R) (popMany n q) (popMany n q') := by
  induction n generalizing q q' with
  | zero => exact .ok ⟨rfl, rfl, hq⟩
  | succ n ih =>
    refine (h.pop hq).bind ?_
    intro found found' hfound
    cases hfound with
    | none => exact .ok ⟨rfl, rfl, hq⟩
    | @some top top' htop =>
      refine (ih htop.rest).bind ?_
      intro d d' hd
      refine .ok ⟨?_, ?_, hd.rest⟩
      · exact congrArg₂ List.cons htop.item_eq hd.items_eq
      · exact congrArg₂ List.append (congrArg Option.toList htop.notice_eq) hd.notices_eq

theorem drain (h : Mirror R) (hq : R q q') : Result.Rel (Drained.Mirrors R) (drain q) (drain q') := by
  rw [PriorityQueue.drain, PriorityQueue.drain, h.size_eq hq]
  exact h.popMany _ hq

end Mirror
end PriorityQueue
end MonotoneQueue

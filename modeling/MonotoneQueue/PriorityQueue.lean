import MonotoneQueue.Failure
import MonotoneQueue.Text.Shown

/- What a priority queue offers to its users, least priority first. Two kinds are built:
   `Stable`, over any order, and `Radix`, over words and with a floor below which nothing may be
   pushed. The searches and the operations of `PriorityQueue/Op` are written against this
   interface.

   Correspondence:
     `Heap` with `new`, `len`, `push`, `peek`, `pop`   ↔ `PriorityQueue`
     `is_empty`                                        ↔ `isEmpty`
     what `pop_redistribute` traces                    ↔ `Notice`, `Notice.text` -/
namespace MonotoneQueue

open Text (Shown shown)

/-- What a pop tells about a bucket that it emptied: its number, the new floor, and how many of
    its other elements moved to lower buckets. -/
structure Notice (κ : Type) where
  bucket : Nat
  floor : κ
  relinked : Nat
  deriving DecidableEq, Repr

/-- The progress message of a notice. -/
def Notice.text {κ : Type} [Shown κ] (n : Notice κ) : String :=
  "TRACE radix heap: emptied bucket " ++ toString n.bucket ++ ", new minimum " ++ shown n.floor ++
    ", relinked " ++ toString n.relinked ++ " nodes"

/-- An element taken out of a queue, with the queue that is left. -/
structure Popped (Q κ α : Type) where
  priority : κ
  value : α
  rest : Q
  notice : Option (Notice κ)

/-- The element itself. -/
def Popped.item {Q κ α : Type} (p : Popped Q κ α) : κ × α := (p.priority, p.value)

/-- A queue of type `Q` holding values of type `α` under priorities of type `κ`. -/
class PriorityQueue (Q : Type) (κ α : outParam Type) where
  empty : Q
  /-- The number of elements. -/
  size : Q → Nat
  push : Q → κ → α → Result Q
  /-- An element of least priority. -/
  peek : Q → Result (Option (κ × α))
  /-- Takes out the element that `peek` shows. -/
  pop : Q → Result (Option (Popped Q κ α))

namespace PriorityQueue

variable {Q κ α : Type} [PriorityQueue Q κ α]

def isEmpty (q : Q) : Bool := size q == 0

/-- Pushes elements in order up to the first that is refused; the ones before it stay. -/
def pushAll (q : Q) : List (κ × α) → Q × Option Failure
  | [] => (q, none)
  | (p, v) :: rest =>
    match push q p v with
    | .ok q => pushAll q rest
    | .error f => (q, some f)

/-- The elements that pops have taken out, in order, with the queue that is left. -/
structure Drained (Q κ α : Type) where
  items : List (κ × α)
  notices : List (Notice κ)
  rest : Q

/-- At most `n` pops. -/
def popMany : Nat → Q → Result (Drained Q κ α)
  | 0, q => .ok ⟨[], [], q⟩
  | n + 1, q => do
    match ← pop q with
    | none => .ok ⟨[], [], q⟩
    | some top =>
      let d ← popMany n top.rest
      .ok ⟨top.item :: d.items, top.notice.toList ++ d.notices, d.rest⟩

/-- Pops until nothing is left: as many times as there are elements. -/
def drain (q : Q) : Result (Drained Q κ α) := popMany (size q) q

end PriorityQueue
end MonotoneQueue

import MonotoneQueue.PriorityQueue
import MonotoneQueue.Text.Layout

/- What a user may ask of any priority queue, as data: an operation has a reply, leaves a queue,
   and may tell of buckets that it emptied. -/
namespace MonotoneQueue

variable {Q κ α : Type}

/-- Queues that can be described, perhaps not in every state. -/
class Described (Q : Type) where
  describe? : Text.Style → Q → Option String

/-- An operation on a queue. -/
inductive PriorityQueue.Op (κ α : Type) where
  | push (p : κ) (v : α)
  /-- Pushes elements in order up to the first that is refused. -/
  | pushAll (items : List (κ × α))
  | pop
  | peek
  /-- Pops until nothing is left. -/
  | drain
  | size
  | isEmpty
  | describe (style : Text.Style)
  deriving DecidableEq, Repr

/-- What an operation answers. -/
inductive Reply (κ α : Type) where
  | done
  | item (found : Option (κ × α))
  | items (found : List (κ × α))
  | count (n : Nat)
  | flag (b : Bool)
  | priority (p : κ)
  | text (description : Option String)
  /-- The number under which a handle was issued. -/
  | handle (n : Nat)
  /-- The operation refuses and says why. -/
  | rejected (f : Failure)
  /-- The operation breaks off. -/
  | aborted (f : Failure)
  /-- No handle has been issued under the number. -/
  | unknownHandle (n : Nat)
  deriving DecidableEq, Repr

/-- The reply to an operation, the state that it leaves, and the buckets emptied on the way. -/
structure Answer (S κ α : Type) where
  reply : Reply κ α
  state : S
  notices : List (Notice κ)

/-- The answers to operations carried out one after the other. -/
def replay {S Op : Type} (run : S → Op → Answer S κ α) : S → List Op → List (Answer S κ α)
  | _, [] => []
  | s, op :: rest =>
    let a := run s op
    a :: replay run a.state rest

namespace PriorityQueue

variable [PriorityQueue Q κ α] [Described Q]

/-- Carries out an operation. One that breaks off leaves the queue as it was, except that
    `pushAll` keeps what it pushed before. -/
def Op.run (q : Q) : Op κ α → Answer Q κ α
  | .push p v =>
    match PriorityQueue.push q p v with
    | .ok q => ⟨.done, q, []⟩
    | .error f => ⟨.aborted f, q, []⟩
  | .pushAll items =>
    match PriorityQueue.pushAll q items with
    | (q, none) => ⟨.done, q, []⟩
    | (q, some f) => ⟨.aborted f, q, []⟩
  | .pop =>
    match PriorityQueue.pop q with
    | .ok none => ⟨.item none, q, []⟩
    | .ok (some top) => ⟨.item (some top.item), top.rest, top.notice.toList⟩
    | .error f => ⟨.aborted f, q, []⟩
  | .peek =>
    match PriorityQueue.peek q with
    | .ok found => ⟨.item found, q, []⟩
    | .error f => ⟨.aborted f, q, []⟩
  | .drain =>
    match PriorityQueue.drain q with
    | .ok d => ⟨.items d.items, d.rest, d.notices⟩
    | .error f => ⟨.aborted f, q, []⟩
  | .size => ⟨.count (PriorityQueue.size q), q, []⟩
  | .isEmpty => ⟨.flag (PriorityQueue.isEmpty q), q, []⟩
  | .describe style => ⟨.text (Described.describe? style q), q, []⟩

end PriorityQueue
end MonotoneQueue

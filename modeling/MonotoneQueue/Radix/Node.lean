import MonotoneQueue.Failure
import MonotoneQueue.Storage

/- The elements of a monotone queue as they are stored: every element names the ones before and
   after it in the list of its bucket. Walking such a list, or changing a neighbour, relies on the
   names being good; a name that is not is reported as a defect.

   Correspondence:
     `Node`          ↔ `Node`
     `min_in_list`   ↔ `leastFrom`, by way of `chain` and `firstLeast` -/
namespace MonotoneQueue.Radix

/-- An element with its neighbours in the list of its bucket. -/
structure Node (w : Nat) (α : Type) where
  value : α
  priority : BitVec w
  prev : Option Key
  next : Option Key
  deriving Repr

variable {w : Nat} {α : Type} {S : Type → Type} [Storage S]

/-! Single elements. -/

def fetch (nodes : S (Node w α)) (k : Key) : Result (Node w α) :=
  match Storage.get? nodes k with
  | some n => .ok n
  | none => .error (.defect .staleKey)

def take (nodes : S (Node w α)) (k : Key) : Result (Node w α × S (Node w α)) :=
  match Storage.remove? nodes k with
  | some r => .ok r
  | none => .error (.defect .staleKey)

def update (nodes : S (Node w α)) (k : Key) (f : Node w α → Node w α) : Result (S (Node w α)) :=
  match Storage.modify? nodes k f with
  | some nodes => .ok nodes
  | none => .error (.defect .staleKey)

/-- Updates a neighbour, if there is one. -/
def updateLink (nodes : S (Node w α)) (k : Option Key) (f : Node w α → Node w α) :
    Result (S (Node w α)) :=
  match k with
  | some k => update nodes k f
  | none => .ok nodes

/-! Lists of elements. -/

/-- The elements from a key on along the successors, at most `n` of them. -/
def chain (nodes : S (Node w α)) : Nat → Option Key → Result (List (Key × Node w α))
  | _, none => .ok []
  | 0, some _ => .error (.defect .endlessList)
  | n + 1, some k => do
    let node ← fetch nodes k
    let rest ← chain nodes n node.next
    .ok ((k, node) :: rest)

/-- The first among the elements of least priority. -/
def firstLeast (best : Key × Node w α) : List (Key × Node w α) → Key × Node w α
  | [] => best
  | m :: rest => firstLeast (if m.2.priority < best.2.priority then m else best) rest

/-- The first element of least priority in the list that starts at `head`. -/
def leastFrom (nodes : S (Node w α)) (head : Key) : Result Key := do
  let first ← fetch nodes head
  let rest ← chain nodes (Storage.size nodes) first.next
  .ok (firstLeast (head, first) rest).1

end MonotoneQueue.Radix

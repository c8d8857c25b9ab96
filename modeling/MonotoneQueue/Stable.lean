import MonotoneQueue.PriorityQueue

/- A priority queue over any order, first in, first out among equal priorities. Every element
   carries the number of pushes before its own, which decides between equal priorities, so no two
   elements are ever equal in rank. The elements form a leftist heap: the root of every subtree
   precedes what is below it, and the left subtree is the heavier one, so merging walks two
   short right spines.

   Correspondence:
     `SimpleBinaryHeap`, its `next_seq`   ↔ `Stable`, `nextSeq`, which is not bounded
     `Entry`, its `cmp`                   ↔ `Entry`, `Entry.precedes`
     `BinaryHeap`                         ↔ `Tree`, of which only the order of what comes out is the same -/
namespace MonotoneQueue.Stable

variable {κ α : Type}

/-- An element with its rank among equals. -/
structure Entry (κ α : Type) where
  priority : κ
  seq : Nat
  value : α
  deriving Repr

/-- The entry comes out no later than the other: by priority, then by age. -/
def Entry.precedes [LE κ] [DecidableLE κ] (a b : Entry κ α) : Bool :=
  a.priority ≤ b.priority ∧ (b.priority ≤ a.priority → a.seq ≤ b.seq)

/-- A heap of entries; a node stores its number of entries. -/
inductive Tree (κ α : Type) where
  | leaf
  | node (weight : Nat) (left : Tree κ α) (root : Entry κ α) (right : Tree κ α)
  deriving Repr

namespace Tree

/-- The number of entries, as stored. -/
def weight : Tree κ α → Nat
  | leaf => 0
  | node n _ _ _ => n

/-- The entries, the root first. -/
def toList : Tree κ α → List (Entry κ α)
  | leaf => []
  | node _ l x r => x :: (l.toList ++ r.toList)

/-- A root over two heaps, the heavier one on the left. -/
def join (x : Entry κ α) (a b : Tree κ α) : Tree κ α :=
  if b.weight ≤ a.weight then node (a.weight + b.weight + 1) a x b
  else node (a.weight + b.weight + 1) b x a

variable [LE κ] [DecidableLE κ]

/-- Merges the heap with root `x`, left part `l` and right part `r` into another heap;
    `mergeRight` merges `r` into a heap. -/
def mergeNode (l : Tree κ α) (x : Entry κ α) (r : Tree κ α) (n : Nat)
    (mergeRight : Tree κ α → Tree κ α) : Tree κ α → Tree κ α
  | leaf => node n l x r
  | node m l' y r' =>
    if x.precedes y then join x l (mergeRight (node m l' y r'))
    else join y l' (mergeNode l x r n mergeRight r')

/-- All entries of two heaps in one. -/
def merge : Tree κ α → Tree κ α → Tree κ α
  | leaf => id
  | node n l x r => mergeNode l x r n (merge r)

def insert (t : Tree κ α) (x : Entry κ α) : Tree κ α := merge (node 1 leaf x leaf) t

end Tree
end Stable

/-- A stable priority queue: its entries and the number of pushes so far. -/
structure Stable (κ α : Type) where
  tree : Stable.Tree κ α
  nextSeq : Nat
  deriving Repr

namespace Stable

variable {κ α : Type}

def empty : Stable κ α := ⟨.leaf, 0⟩

def size (q : Stable κ α) : Nat := q.tree.weight

def peek (q : Stable κ α) : Option (κ × α) :=
  match q.tree with
  | .leaf => none
  | .node _ _ x _ => some (x.priority, x.value)

variable [LE κ] [DecidableLE κ]

def push (q : Stable κ α) (p : κ) (v : α) : Stable κ α :=
  ⟨q.tree.insert ⟨p, q.nextSeq, v⟩, q.nextSeq + 1⟩

def pop (q : Stable κ α) : Option (Popped (Stable κ α) κ α) :=
  match q.tree with
  | .leaf => none
  | .node _ l x r => some ⟨x.priority, x.value, ⟨l.merge r, q.nextSeq⟩, none⟩

instance : PriorityQueue (Stable κ α) κ α where
  empty := empty
  size := size
  push q p v := .ok (q.push p v)
  peek q := .ok q.peek
  pop q := .ok q.pop

end Stable
end MonotoneQueue

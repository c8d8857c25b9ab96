import MonotoneQueue.Graph
import MonotoneQueue.PriorityQueue
import MonotoneQueue.Search.Table

/- The moving state of a search: the discovered nodes and a queue of positions still to be
   visited. A cheaper way to a node that is queued already is queued again; the dearer one is
   passed over when it comes out, since the node is closed by then.

   Correspondence with `search_with_heuristic` and `reachable_within`: what stands before the loop ↔ `start`,
   the body of the loop over `successors` ↔ `follow`, that loop ↔ `expand`. -/
namespace MonotoneQueue.Search

/-- Discovered nodes, and the positions of those to be visited. -/
structure Frontier (Q κ : Type) where
  table : Table κ
  queue : Q

namespace Frontier

variable {Q κ : Type} [LE κ] [DecidableLE κ] [Cost κ] [PriorityQueue Q κ Nat]

/-- Only the start is discovered; it is queued under the given priority. -/
def start (g : Graph κ) (node : Nat) (priority : κ) : Result (Frontier Q κ) := do
  let queue ← PriorityQueue.push (PriorityQueue.empty : Q) priority 0
  .ok ⟨.start (g.key node) node Cost.zero, queue⟩

/-- Follows an edge from the entry at position `parent`, which costs `base`. The target is queued
    under its rank when the way to it is within the budget and better than those before. -/
def follow (g : Graph κ) (budget : Option κ) (rank : Nat → κ → Result κ) (parent : Nat) (base : κ)
    (f : Frontier Q κ) (e : Edge κ) : Result (Frontier Q κ) := do
  let cost ← Cost.sum base e.weight
  if Cost.within budget cost then
    let priority ← rank e.target cost
    match ← f.table.relax (g.key e.target) e.target parent cost with
    | (table, none) => .ok { f with table }
    | (table, some i) =>
      let queue ← PriorityQueue.push f.queue priority i
      .ok ⟨table, queue⟩
  else .ok f

/-- Follows the edges that leave a node, in order. -/
def expand (g : Graph κ) (budget : Option κ) (rank : Nat → κ → Result κ) (node parent : Nat)
    (base : κ) (f : Frontier Q κ) : Result (Frontier Q κ) :=
  (g.leaving node).foldlM (follow g budget rank parent base) f

end Frontier

/-- What one step of a search comes to. -/
inductive Progress (σ ρ : Type) where
  | going (state : σ)
  | ended (run : ρ)

end MonotoneQueue.Search

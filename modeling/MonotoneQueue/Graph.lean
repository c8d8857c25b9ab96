import MonotoneQueue.Cost

/- What is searched: directed edges with weights between nodes, which are known by number. Two
   nodes count as equal when their keys are equal; edges leave and goals are told by the number.

   Correspondence with `SearchNode`: `successors` ↔ `leaving`, `is_goal` ↔ `isGoal`, `eq` and `hash` ↔ `key`. -/
namespace MonotoneQueue

/-- A step from one node to another at a cost. -/
structure Edge (κ : Type) where
  source : Nat
  target : Nat
  weight : κ
  deriving DecidableEq, Repr

/-- A finite graph; every number is a node. -/
structure Graph (κ : Type) where
  edges : List (Edge κ)
  /-- Nodes with equal keys are equal. -/
  key : Nat → Nat
  isGoal : Nat → Bool

namespace Graph

variable {κ : Type}

/-- The edges that leave a node, in the order of the graph. -/
def leaving (g : Graph κ) (n : Nat) : List (Edge κ) := g.edges.filter (·.source == n)

/-- The graph with the given edges and goals, and with keys for the first nodes; any other node
    has its number as key. -/
def ofLists (edges : List (Edge κ)) (goals : List Nat) (keys : Array Nat) : Graph κ where
  edges := edges
  key n := keys.getD n n
  isGoal n := goals.contains n

/-- The estimates given for the first nodes, and zero for the others. -/
def estimates [LE κ] [Cost κ] (given : Array κ) (n : Nat) : κ := given.getD n Cost.zero

end Graph
end MonotoneQueue

import MonotoneQueue.Search.Frontier

/- Search for a cheapest way from a start to any goal. Nodes are visited by cost plus estimate,
   least first; the first goal visited ends the search. Without estimates this finds a cheapest
   way if no weight is negative; with them, if in addition no estimate exceeds the weight of an
   edge plus the estimate behind it. A search can be bounded by the cost of the ways it follows and
   by the number of elements it takes from the queue.

   Correspondence:
     `PathFinderBuilder`: `max_cost`, `max_nodes`   ↔ `Limits`: `maxCost`, `maxPops`
     `AStarNode::heuristic`                         ↔ `Query.estimate`
     `dijkstra`, `astar`                            ↔ `run` of `Query.dijkstra`, `Query.astar`
     `search_with_heuristic`                        ↔ `run`; the body of its loop is `step`, by way of `visit`
     `nodes_explored`, what it reports              ↔ `State.pops`, `Message` -/
namespace MonotoneQueue

open Text (Shown)

variable {κ : Type}

/-! Queries. -/

/-- Bounds on a search; an absent bound does not limit. -/
structure Limits (κ : Type) where
  /-- Ways that cost more are not followed. -/
  maxCost : Option κ := none
  /-- How many elements may be taken from the queue. -/
  maxPops : Option Nat := none

/-- One bound. -/
inductive Limit (κ : Type) where
  | maxCost (most : κ)
  | maxPops (most : Nat)

/-- Sets one bound, in place of an earlier one of its kind. -/
def Limits.set (l : Limits κ) : Limit κ → Limits κ
  | .maxCost most => { l with maxCost := some most }
  | .maxPops most => { l with maxPops := some most }

/-- Bounds set one after the other. -/
def Limits.ofList (l : List (Limit κ)) : Limits κ := l.foldl Limits.set {}

/-- After this many pops the search stops. -/
def Limits.reached (l : Limits κ) (pops : Nat) : Bool :=
  match l.maxPops with
  | some most => most ≤ pops
  | none => false

/-- A search to be made. -/
structure Query (κ : Type) where
  graph : Graph κ
  start : Nat
  /-- How much a way from the node to a goal is thought to cost. -/
  estimate : Nat → κ
  limits : Limits κ := {}

/-- A search by cost alone. -/
def Query.dijkstra [LE κ] [Cost κ] (graph : Graph κ) (start : Nat) (limits : Limits κ) :
    Query κ := ⟨graph, start, fun _ => Cost.zero, limits⟩

/-- A search by cost and estimate. -/
def Query.astar (graph : Graph κ) (estimate : Nat → κ) (start : Nat) (limits : Limits κ) :
    Query κ := ⟨graph, start, estimate, limits⟩

namespace Search

/-! Answers. -/

/-- What a search tells on its way. -/
inductive Message (κ : Type) where
  | emptied (notice : Notice κ)
  | reached (pops discovered : Nat)
  | exhausted (pops discovered : Nat)
  | stopped (pops : Nat)
  deriving DecidableEq, Repr

def Message.text [Shown κ] : Message κ → String
  | .emptied notice => notice.text
  | .reached pops n =>
    "DEBUG goal reached after " ++ toString pops ++ " pops, " ++ toString n ++ " nodes discovered"
  | .exhausted pops n =>
    "DEBUG search exhausted after " ++ toString pops ++ " pops, " ++ toString n ++
      " nodes discovered"
  | .stopped pops => "DEBUG search stopped after " ++ toString pops ++ " pops (node limit)"

/-- A way from the start to a goal, with its cost. -/
structure Route (κ : Type) where
  path : List Nat
  cost : κ
  deriving DecidableEq, Repr

/-- A finished search: the number of elements it took from the queue, what it told, and the way it
    found, if there is one, or why it broke off. -/
structure Run (κ : Type) where
  pops : Nat
  log : List (Message κ)
  outcome : Result (Option (Route κ))

/-! The search. -/

/-- Between two visits. -/
structure State (Q κ : Type) where
  frontier : Frontier Q κ
  pops : Nat
  log : List (Message κ)

/-- What a visit comes to. -/
inductive Visit (Q κ : Type) where
  | onward (frontier : Frontier Q κ)
  | arrived (route : Route κ)

variable {Q : Type} [LE κ] [DecidableLE κ] [Cost κ] [PriorityQueue Q κ Nat]

/-- The priority of a node at a cost. -/
def rank (q : Query κ) (node : Nat) (cost : κ) : Result κ := Cost.sum cost (q.estimate node)

/-- Visits the entry at a position: nothing if it was closed before; otherwise it is closed and,
    if it is within the budget, ends the search at a goal or is expanded. -/
def visit (q : Query κ) (f : Frontier Q κ) (i : Nat) : Result (Visit Q κ) := do
  match ← f.table.close i with
  | none => .ok (.onward f)
  | some (e, table) =>
    let f := { f with table }
    if !Cost.within q.limits.maxCost e.cost then .ok (.onward f)
    else if q.graph.isGoal e.node then
      let path ← table.pathTo i
      .ok (.arrived ⟨path, e.cost⟩)
    else
      .onward <$> f.expand q.graph q.limits.maxCost (rank q) e.node i e.cost

/-- Takes the next position from the queue and visits it. -/
def step (q : Query κ) (s : State Q κ) : Progress (State Q κ) (Run κ) :=
  let discovered := s.frontier.table.size
  match PriorityQueue.pop s.frontier.queue with
  | .error f => .ended ⟨s.pops, s.log, .error f⟩
  | .ok none => .ended ⟨s.pops, s.log ++ [.exhausted s.pops discovered], .ok none⟩
  | .ok (some top) =>
    let log := s.log ++ top.notice.toList.map .emptied
    if q.limits.reached s.pops then .ended ⟨s.pops, log ++ [.stopped s.pops], .ok none⟩
    else
      let pops := s.pops + 1
      match visit q { s.frontier with queue := top.rest } top.value with
      | .error f => .ended ⟨pops, log, .error f⟩
      | .ok (.onward frontier) => .going ⟨frontier, pops, log⟩
      | .ok (.arrived route) => .ended ⟨pops, log ++ [.reached pops discovered], .ok (some route)⟩

/-- At most `n` steps. -/
def runFor (q : Query κ) : Nat → State Q κ → Run κ
  | 0, s => ⟨s.pops, s.log, .error (.defect .stepBound)⟩
  | n + 1, s =>
    match step q s with
    | .going s => runFor q n s
    | .ended run => run

/-- The steps that a search can take: a position is queued once for the start and once at most for
    every edge, and one step more finds the queue empty. -/
def stepBound (g : Graph κ) : Nat := g.edges.length + 2

/-- Carries out a query with queues of type `Q`. -/
def run (Q : Type) [PriorityQueue Q κ Nat] (q : Query κ) : Run κ :=
  match (Frontier.start q.graph q.start (q.estimate q.start) : Result (Frontier Q κ)) with
  | .error f => ⟨0, [], .error f⟩
  | .ok frontier => runFor q (stepBound q.graph) ⟨frontier, 0, []⟩

end Search
end MonotoneQueue

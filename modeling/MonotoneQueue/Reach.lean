import MonotoneQueue.Search

/- All nodes that can be reached from a start within a budget, each with its cost, in the order in
   which they are visited, which is that of their costs.

   Correspondence: `reachable_within` ↔ `run`; the body of its loop is `step`, by way of `visit`. -/
namespace MonotoneQueue.Reach

open Search (Frontier Progress)

variable {κ : Type}

/-- What is to be reached. -/
structure Query (κ : Type) where
  graph : Graph κ
  start : Nat
  /-- Ways that cost more are not followed. -/
  maxCost : κ

/-- Nodes with the costs under which they were visited, and the buckets emptied on the way, or why
    the search broke off. -/
structure Run (κ : Type) where
  pops : Nat
  notices : List (Notice κ)
  outcome : Result (List (Nat × κ))

/-- Between two visits. -/
structure State (Q κ : Type) where
  frontier : Frontier Q κ
  pops : Nat
  notices : List (Notice κ)
  found : List (Nat × κ)

variable {Q : Type} [LE κ] [DecidableLE κ] [Cost κ] [PriorityQueue Q κ Nat]

/-- Visits the entry at a position, which came out of the queue at the given cost: gives its node
    with that cost and expands it, unless it was closed before. -/
def visit (q : Query κ) (f : Frontier Q κ) (i : Nat) (cost : κ) :
    Result (Frontier Q κ × Option (Nat × κ)) := do
  match ← f.table.close i with
  | none => .ok (f, none)
  | some (e, table) =>
    let f ← Frontier.expand q.graph (some q.maxCost) (fun _ c => .ok c) e.node i cost
      { f with table }
    .ok (f, some (e.node, cost))

/-- Takes the next position from the queue and visits it. -/
def step (q : Query κ) (s : State Q κ) : Progress (State Q κ) (Run κ) :=
  match PriorityQueue.pop s.frontier.queue with
  | .error f => .ended ⟨s.pops, s.notices, .error f⟩
  | .ok none => .ended ⟨s.pops, s.notices, .ok s.found⟩
  | .ok (some top) =>
    let pops := s.pops + 1
    let notices := s.notices ++ top.notice.toList
    match visit q { s.frontier with queue := top.rest } top.value top.priority with
    | .error f => .ended ⟨pops, notices, .error f⟩
    | .ok (frontier, found) => .going ⟨frontier, pops, notices, s.found ++ found.toList⟩

/-- At most `n` steps. -/
def runFor (q : Query κ) : Nat → State Q κ → Run κ
  | 0, s => ⟨s.pops, s.notices, .error (.defect .stepBound)⟩
  | n + 1, s =>
    match step q s with
    | .going s => runFor q n s
    | .ended run => run

/-- Carries out a query with queues of type `Q`. -/
def run (Q : Type) [PriorityQueue Q κ Nat] (q : Query κ) : Run κ :=
  match (Frontier.start q.graph q.start Cost.zero : Result (Frontier Q κ)) with
  | .error f => ⟨0, [], .error f⟩
  | .ok frontier => runFor q (Search.stepBound q.graph) ⟨frontier, 0, [], []⟩

end MonotoneQueue.Reach

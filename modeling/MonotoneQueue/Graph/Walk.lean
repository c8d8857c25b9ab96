import MonotoneQueue.Graph

/- Walks in a graph, and what they weigh. The weight of a walk is the sum of the integers that the
   weights of its edges stand for, so it is exact whether or not the type of costs could hold it.
   Walks go by node; where no two nodes of a graph are equal (`DistinctKeys`) going by key would
   be the same. Ways go by key and name the nodes that they pass. -/
namespace MonotoneQueue.Graph

variable {κ : Type}

/-- The nodes that a search from `start` can meet. -/
def nodes (g : Graph κ) (start : Nat) : List Nat :=
  start :: g.edges.flatMap fun e => [e.source, e.target]

/-- No two nodes that a search from `start` can meet are equal. -/
def DistinctKeys (g : Graph κ) (start : Nat) : Prop :=
  ∀ a ∈ g.nodes start, ∀ b ∈ g.nodes start, g.key a = g.key b → a = b

theorem mem_leaving {g : Graph κ} {e : Edge κ} {n : Nat} :
    e ∈ g.leaving n ↔ e ∈ g.edges ∧ e.source = n := by
  simp [leaving]

variable [LE κ] [Cost κ]

/-- A walk from `a`: where it leads and what it weighs. -/
inductive Walk (g : Graph κ) (a : Nat) : Nat → Int → Prop
  | here : Walk g a a 0
  | onward {b : Nat} {c : Int} {e : Edge κ} :
    Walk g a b c → e ∈ g.leaving b → Walk g a e.target (c + Cost.value e.weight)

/-- A way through nodes: an edge leaves each but the last, for a node equal to the next one. It
    weighs what these edges weigh together. -/
inductive Way (g : Graph κ) : List Nat → Int → Prop
  | single (a : Nat) : Way g [a] 0
  | cons {a b : Nat} {rest : List Nat} {c : Int} {e : Edge κ} :
    e ∈ g.leaving a → g.key e.target = g.key b → Way g (b :: rest) c →
    Way g (a :: b :: rest) (Cost.value e.weight + c)

namespace Walk

variable {g : Graph κ}

theorem nonneg (hw : ∀ e ∈ g.edges, 0 ≤ Cost.value e.weight) {a b : Nat} {c : Int}
    (h : g.Walk a b c) : 0 ≤ c := by
  induction h with
  | here => exact Int.le_refl 0
  | onward _ he ih => exact Int.add_nonneg ih (hw _ (mem_leaving.mp he).1)

end Walk
end MonotoneQueue.Graph

import Mathlib
import MonotoneQueue.Graph.Walk
import MonotoneQueue.Proofs.Cost

/- What the searches are measured by: the weights of the walks to the goals, and the conditions on
   weights and estimates under which a node is visited at the least of them. -/
namespace MonotoneQueue.Graph

variable {κ : Type}

theorem mem_nodes_of_mem_edges {g : Graph κ} {e : Edge κ} (he : e ∈ g.edges) (start : Nat) :
    e.target ∈ g.nodes start := by
  refine List.mem_cons_of_mem _ (List.mem_flatMap.mpr ⟨e, he, ?_⟩)
  simp

/-- Edges leave different nodes, so there are no more than in the graph. -/
theorem sum_leaving_le (g : Graph κ) {ns : List Nat} (hns : ns.Nodup) :
    (ns.map fun n => (g.leaving n).length).sum ≤ g.edges.length := by
  unfold leaving
  induction g.edges with
  | nil => simp
  | cons e es ih =>
    have hsplit : ∀ n, ((e :: es).filter (·.source == n)).length =
        (if n = e.source then 1 else 0) + (es.filter (·.source == n)).length := by
      intro n
      by_cases h : n = e.source
      · simp [h, Nat.add_comm]
      · simp [h, Ne.symm h]
    -- the edge leaves one of the nodes at most
    have hone : (ns.map fun n => if n = e.source then 1 else 0).sum ≤ 1 := by
      calc (ns.map fun n => if n = e.source then 1 else 0).sum
          = ∑ n ∈ ns.toFinset, if n = e.source then 1 else 0 := (List.sum_toFinset _ hns).symm
        _ = if e.source ∈ ns.toFinset then 1 else 0 := Finset.sum_ite_eq' _ _ _
        _ ≤ 1 := by split <;> omega
    simp only [hsplit, List.sum_map_add, List.length_cons]
    omega

variable [LE κ] [Cost κ]

/-- What the walks from one node to another weigh. -/
def weights (g : Graph κ) (start n : Nat) : Set Int := {c | g.Walk start n c}

/-- What the walks from a node to the goals weigh. -/
def goalWeights (g : Graph κ) (start : Nat) : Set Int :=
  {c | ∃ b, g.isGoal b = true ∧ g.Walk start b c}

def NonNegative (g : Graph κ) : Prop := ∀ e ∈ g.edges, 0 ≤ Cost.value e.weight

/-- No estimate exceeds the weight of an edge plus the estimate behind it. -/
def Consistent (g : Graph κ) (h : Nat → Int) : Prop :=
  ∀ e ∈ g.edges, h e.source ≤ Cost.value e.weight + h e.target

theorem NonNegative.consistent {g : Graph κ} (hg : g.NonNegative) : g.Consistent fun _ => 0 := by
  intro e he
  simpa using hg e he

theorem NonNegative.le_of_way {g : Graph κ} (hg : g.NonNegative) {path : List Nat} {c : Int}
    (h : g.Way path c) : 0 ≤ c := by
  induction h with
  | single => exact Int.le_refl 0
  | cons he _ _ ih => exact Int.add_nonneg (hg _ (mem_leaving.mp he).1) ih

theorem nonNegative_words {w : Nat} (g : Graph (BitVec w)) : g.NonNegative :=
  fun e _ => Cost.value_nonneg e.weight

end MonotoneQueue.Graph

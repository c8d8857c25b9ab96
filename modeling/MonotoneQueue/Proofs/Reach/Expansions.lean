import Mathlib
import MonotoneQueue.Proofs.Reach.Exact
import MonotoneQueue.Proofs.Search.Expansions

/- What the search for all nodes within a budget expands, which is every open entry that comes out of its
   queue, also over the budget. It ends of itself as the searches for a goal do, on the same account
   (`Search.Course.accounted`). -/
namespace MonotoneQueue

namespace Reach

open Search (Frontier View Progress Table Course Accounted Explores)

/-- The same search along other edges. -/
def Query.withEdges {κ : Type} (q : Query κ) (edges : List (Edge κ)) : Query κ :=
  { q with graph := { q.graph with edges } }

variable {Q κ : Type}

/-! What a step expands. -/

section

variable [LE κ] [DecidableLE κ] [Cost κ] [PriorityQueue Q κ Nat]

/-- The node that the next step expands, if it does. -/
def State.expands (st : State Q κ) : Option Nat := st.frontier.opened.map (·.node)

variable {q : Query κ} {st st' : State Q κ} {f : Frontier Q κ}

theorem visit_of_leaving {edges : List (Edge κ)} {i : Nat} {cost : κ}
    (h : ∀ d, f.table.entries[i]? = some d → d.closed = false →
      (q.withEdges edges).graph.leaving d.node = q.graph.leaving d.node) :
    visit (q.withEdges edges) f i cost = visit q f i cost := by
  cases hd : f.table.entries[i]? with
  | none => simp only [visit, Table.close, Table.entry, hd, Result.error_bind]
  | some d =>
    obtain ⟨hc, hclose⟩ | ⟨hc, t, hclose, -, -⟩ := Table.close_cases hd
    · simp only [visit, hclose, Result.ok_bind]
    · simp only [visit, hclose, Result.ok_bind]
      exact congrArg (· >>= _) (Frontier.expand_of_leaving rfl (h d hd hc))

/-- Apart from the edges that leave the node that it expands, a step does not look at the edges. -/
theorem step_of_leaving {edges : List (Edge κ)}
    (h : ∀ n ∈ st.expands, (q.withEdges edges).graph.leaving n = q.graph.leaving n) :
    step (q.withEdges edges) st = step q st := by
  have hproceeds := step_proceeds q st
  generalize step q st = p at hproceeds
  cases hproceeds with
  | broken hpop => exact (Proceeds.broken hpop).step_eq
  | exhausted hpop => exact (Proceeds.exhausted hpop).step_eq
  | visited hpop =>
    rw [(Proceeds.visited hpop).step_eq]
    congr 1
    apply visit_of_leaving
    intro d hd hc
    apply h
    rw [State.expands, Frontier.opened_of_pop hpop]
    simp [hd, hc]

theorem advances_of_going (h : step q st = .going st') :
    st.frontier.Advances q.graph st.expands st'.frontier := by
  obtain ⟨top, f, found, hpop, hvisit, hfrontier, -⟩ := exists_visit_of_going h
  obtain ⟨closed, hclosed, -⟩ := Result.bind_eq_ok.mp hvisit
  obtain ⟨d, hd⟩ := Table.exists_entry_of_close hclosed
  have hopened := Frontier.opened_of_pop hpop
  rw [hd, Option.filter_some] at hopened
  rw [hfrontier, State.expands, hopened]
  obtain ⟨hc, hclose⟩ | ⟨hc, t, hclose, hset, hindex⟩ := Table.close_cases hd
  · simp only [visit, hclose, Result.ok_bind] at hvisit
    obtain ⟨rfl, -⟩ := Prod.ext_iff.mp (Except.ok.inj hvisit)
    rw [hc]
    exact .pass hpop
  · simp only [visit, hclose, Result.ok_bind] at hvisit
    obtain ⟨f₁, hexpand, hok⟩ := Result.bind_eq_ok.mp hvisit
    obtain ⟨rfl, -⟩ := Prod.ext_iff.mp (Except.ok.inj hok)
    rw [hc]
    exact .expand hpop hd hset hindex ranks_cost hexpand

theorem explores (q : Query κ) :
    Explores q.graph (step q) (State.frontier (Q := Q)) State.expands :=
  ⟨Option.map_eq_some_iff.mp, advances_of_going⟩

end

/-! Searches. -/

variable [LE κ] [Cost κ]

theorem Ends.not_defect {q : Query κ} {v : View κ} {run : Run κ} (h : Ends q v run) (cause : Defect) :
    run.outcome ≠ .error (.defect cause) := by
  intro hdefect
  cases h with
  | exhausted => cases hdefect
  | broken htakes hc he hbreaks =>
    cases hbreaks with
    | overflow => cases hdefect
    | refusal => cases hdefect

variable [DecidableLE κ]

/-- On queues of type `Q` the search ends of itself, with a result or at a cost or push that fails. It
    expands no two equal nodes, and the elements that come out of its queue are paid for by the edges of
    the nodes that it expands. -/
structure Terminates (Q : Type) [PriorityQueue Q κ Nat] (q : Query κ) : Prop where
  not_defect : ∀ cause, (run Q q).outcome ≠ .error (.defect cause)
  /-- A step that goes on takes an element out and expands, if anything, the node of an open entry. -/
  explores : Explores q.graph (step q) (State.frontier (Q := Q)) State.expands
  /-- Other edges than those that leave the node that it expands make no difference to a step. -/
  leaving : ∀ (st : State Q κ) (edges : List (Edge κ)),
    (∀ n ∈ st.expands, (q.withEdges edges).graph.leaving n = q.graph.leaving n) →
    step (q.withEdges edges) st = step q st
  course : ∃ (f : Frontier Q κ) (passed : List (State Q κ)),
    Frontier.start q.graph q.start Cost.zero = .ok f ∧
    Course (step q) ⟨f, 0, [], []⟩ passed (run Q q) ∧
    Accounted q.graph State.frontier State.expands passed

theorem run_terminates [PriorityQueue Q κ Nat] [PriorityQueue.Lawful Q] (q : Query κ) :
    Terminates Q q := by
  obtain ⟨f, hf, hsound, -⟩ := Frontier.exists_start (Q := Q) q.graph q.start Cost.zero
  have hdefect : ∀ cause, (run Q q).outcome ≠ .error (.defect cause) := by
    obtain ⟨v, -, -, -, hends⟩ := exists_ends Q q (fun _ => True) trivial fun _ _ _ => trivial
    exact hends.not_defect
  have hrun : run Q q = runFor q (Search.stepBound q.graph) ⟨f, 0, [], []⟩ := by rw [run, hf]
  obtain ⟨passed, hcourse⟩ := Search.exists_course (step q) (runFor q)
    (fun r => r.outcome = .error (.defect .stepBound)) (fun _ => rfl)
    (fun h => by rw [runFor, h]) (fun h => by rw [runFor, h]) (hrun ▸ hdefect .stepBound)
  rw [← hrun] at hcourse
  constructor
  case not_defect => exact hdefect
  case explores => exact Reach.explores q
  case leaving => exact fun st edges h => step_of_leaving h
  case course => exact ⟨f, passed, hf, hcourse, hcourse.accounted (Reach.explores q) hsound⟩

end Reach

/-- All searches end, whatever the graph, its keys and weights, the estimates and the limits are, and count
    right what they take and expand. A search over words without estimates that runs out of elements, on a
    graph where no two nodes are equal, counts the nodes within its budget. -/
theorem searches_terminate :
    (∀ {w : Nat} {S : Type → Type} [Storage S], w ≤ 128 →
      (∀ q : Query (BitVec w),
        Search.Terminates (Radix w Nat S) q ∧ Search.Terminates (Stable (BitVec w) Nat) q) ∧
      (∀ q : Reach.Query (BitVec w),
        Reach.Terminates (Radix w Nat S) q ∧ Reach.Terminates (Stable (BitVec w) Nat) q) ∧
      ∀ (g : Graph (BitVec w)) (s : Nat) (limits : Limits (BitVec w)), g.DistinctKeys s →
        Search.CountsNodes (Radix w Nat S) (.dijkstra g s limits) ∧
        Search.CountsNodes (Stable (BitVec w) Nat) (.dijkstra g s limits)) ∧
    (∀ q : Query Int64, Search.Terminates (Stable Int64 Nat) q) ∧
    ∀ q : Reach.Query Int64, Reach.Terminates (Stable Int64 Nat) q := by
  refine ⟨?_, fun q => Search.run_terminates q, fun q => Reach.run_terminates q⟩
  intro w S _ hw
  have : PriorityQueue.Lawful (Radix w Nat S) := Radix.lawful hw
  refine ⟨fun q => ⟨Search.run_terminates q, Search.run_terminates q⟩,
    fun q => ⟨Reach.run_terminates q, Reach.run_terminates q⟩, ?_⟩
  intro g s limits hkeys
  have hbudget : Affordable limits.maxCost 0 := fun most _ => Cost.value_nonneg most
  exact ⟨Search.run_countsNodes hkeys g.nonNegative_words hbudget,
    Search.run_countsNodes hkeys g.nonNegative_words hbudget⟩

/-- Node 2 is queued twice and node 3 is over the budget. Over signed words a cycle costs less than
    nothing. -/
theorem searches_terminate_cycle :
    let g : Graph (BitVec 8) := .ofLists [⟨0, 1, 5⟩, ⟨1, 2, 1⟩, ⟨0, 2, 7⟩, ⟨2, 3, 200⟩, ⟨2, 0, 0⟩] [] #[]
    let signed : Graph Int64 := .ofLists [⟨0, 1, -1⟩, ⟨1, 0, -1⟩] [] #[]
    (Search.run (Radix 8 Nat) (.dijkstra g 0 ⟨some 10, none⟩)).outcome = .ok none ∧
    (Search.run (Radix 8 Nat) (.dijkstra g 0 ⟨some 10, none⟩)).log.getLast? = some (.exhausted 4 3) ∧
    {n | ∃ c, IsLeast (g.weights 0 n) c ∧ Affordable (some (10 : BitVec 8)) c}.encard = 3 ∧
    Search.Terminates (Radix 8 Nat) (.dijkstra g 0 ⟨some 10, none⟩) ∧
    Reach.Terminates (Stable (BitVec 8) Nat) ⟨g, 0, 10⟩ ∧
    (Search.run (Stable Int64 Nat) (.dijkstra signed 0 {})).pops = 2 ∧
    Search.Terminates (Stable Int64 Nat) (.dijkstra signed 0 {}) := by
  have hbytes := searches_terminate.1 (S := Arena) (by decide : 8 ≤ 128)
  refine ⟨by rfl, by rfl, ?_, (hbytes.1 _).1, (hbytes.2.1 _).2, by rfl, searches_terminate.2.1 _⟩
  refine ((hbytes.2.2 _ 0 ⟨some 10, none⟩ ?_).1 4 3 (by rfl) (by rfl)).1
  unfold Graph.DistinctKeys
  decide

end MonotoneQueue

import Mathlib
import MonotoneQueue.Proofs.Radix.Contents
import MonotoneQueue.Proofs.Reach.Expansions
import MonotoneQueue.Proofs.Search.Lazy

/- The search for all nodes within a budget goes back to its queue under the same conditions as the searches for
   a goal do, with no estimates. So all searches delete lazily, on either kind of queue
   (`searches_delete_lazily`). -/
namespace MonotoneQueue

namespace Reach

open Search (Frontier Course Upholds Pending Respects Table)
open PriorityQueue.Lawful (Holds)

variable {Q κ : Type} [LE κ] [DecidableLE κ] [Cost κ] [PriorityQueue Q κ Nat]

/-- The search takes its steps from states in which everything is upheld. -/
def DeletesLazily (contents : Q → Multiset (κ × Nat)) (q : Query κ) : Prop :=
  ∃ (f : Frontier Q κ) (passed : List (State Q κ)),
    Frontier.start q.graph q.start Cost.zero = .ok f ∧
    Course (step q) ⟨f, 0, [], []⟩ passed (run Q q) ∧
    Upholds q.graph q.start (fun _ => 0) contents State.frontier passed

theorem run_deletesLazily [PriorityQueue.Lawful Q] {contents : Q → Multiset (κ × Nat)}
    (hcontents : ∀ {queue : Q} {M}, Holds queue M → M = contents queue) (q : Query κ) :
    DeletesLazily contents q := by
  obtain ⟨f, passed, hf, hcourse, -⟩ := (run_terminates q : Terminates Q q).course
  obtain ⟨⟨table, queue⟩, hf', hsound, htable⟩ := Frontier.exists_start (Q := Q) q.graph q.start Cost.zero
  obtain rfl := Except.ok.inj (hf'.symm.trans hf)
  cases htable
  refine ⟨_, passed, hf, hcourse, ?_⟩
  have hp : Pending (fun _ => 0) (Table.start (q.graph.key q.start) q.start (Cost.zero : κ)) {(Cost.zero, 0)} :=
    .start _ _ Cost.value_zero
  have hat : State.At ⟨⟨_, queue⟩, 0, [], []⟩ (.start q.graph q.start Cost.zero) :=
    ⟨rfl, rfl, hsound.holds, hp, rfl⟩
  exact hcourse.upholds (step_cases_view q) (fun hat => ⟨hat.table_eq, hcontents hat.holds⟩) (.zero _ _)
    (.start _ _ _) hp hat

end Reach

open Search (Respects)

theorem Radix.contents_of_holds {w : Nat} {α : Type} {S : Type → Type} [Storage S] (hw : w ≤ 128)
    {q : Radix w α S} {M : Multiset (BitVec w × α)} (h : (Radix.lawful hw).Holds q M) : M = q.contents := by
  obtain ⟨B, hB, rfl⟩ := h
  exact hB.represents.contents_eq.symm

/-- Between any two visits of any search the table and the queue fit together, whatever the graph, its keys and
    weights and the limits are, if equal nodes have equal estimates: over words on either queue, and over all
    costs on the stable one. -/
theorem searches_delete_lazily :
    (∀ {w : Nat} {S : Type → Type} [Storage S], w ≤ 128 →
      (∀ q : Query (BitVec w), Respects q.graph q.start q.guess →
        Search.DeletesLazily (Radix.contents : Radix w Nat S → _) q) ∧
      ∀ q : Reach.Query (BitVec w), Reach.DeletesLazily (Radix.contents : Radix w Nat S → _) q) ∧
    ∀ {κ : Type} [LE κ] [DecidableLE κ] [Cost κ],
      (∀ q : Query κ, Respects q.graph q.start q.guess →
        Search.DeletesLazily (Stable.contents : Stable κ Nat → _) q) ∧
      ∀ q : Reach.Query κ, Reach.DeletesLazily (Stable.contents : Stable κ Nat → _) q := by
  constructor
  · intro w S _ hw
    let _ : PriorityQueue.Lawful (Radix w Nat S) := Radix.lawful hw
    have hcontents : ∀ {queue : Radix w Nat S} {M}, PriorityQueue.Lawful.Holds queue M → M = queue.contents :=
      Radix.contents_of_holds hw
    exact ⟨Search.run_deletesLazily hcontents, Reach.run_deletesLazily hcontents⟩
  · intro κ _ _ _
    have hcontents : ∀ {queue : Stable κ Nat} {M}, PriorityQueue.Lawful.Holds queue M → M = queue.contents :=
      fun h => h.2.symm
    exact ⟨Search.run_deletesLazily hcontents, Reach.run_deletesLazily hcontents⟩

/-- Node 4 equals node 1 and is a better way to it, so a copy of its entry comes out that is of no use. Over
    signed words the start is closed before a way of negative cost leads back to it. -/
theorem searches_delete_lazily_stale :
    let g : Graph (BitVec 8) := .ofLists [⟨0, 1, 5⟩, ⟨0, 2, 1⟩, ⟨2, 4, 1⟩, ⟨1, 3, 1⟩] [] #[0, 1, 2, 3, 1]
    let q : Query (BitVec 8) := .astar g (Graph.estimates #[3, 1, 2, 0, 1]) 0 {}
    let signed : Graph Int64 := .ofLists [⟨0, 1, -1⟩, ⟨1, 0, -1⟩] [] #[]
    8 ≤ 128 ∧ Respects q.graph q.start q.guess ∧
    (Search.run (Radix 8 Nat) q).log.getLast? = some (.exhausted 5 4) ∧
    Search.DeletesLazily (Radix.contents : Radix 8 Nat → _) q ∧
    Reach.DeletesLazily (Radix.contents : Radix 8 Nat → _) ⟨g, 0, 10⟩ ∧
    Search.DeletesLazily (Stable.contents : Stable Int64 Nat → _) (.dijkstra signed 0 {}) := by
  obtain ⟨hwords, hstable⟩ := searches_delete_lazily
  refine ⟨by decide, ?respects, by decide +kernel, (hwords (by decide)).1 _ ?respects,
    (hwords (by decide)).2 _, hstable.1 _ ?_⟩
  case respects =>
    unfold Respects
    decide +kernel
  · rw [Query.guess_dijkstra]
    exact .zero _ _

end MonotoneQueue

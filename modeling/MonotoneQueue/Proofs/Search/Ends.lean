import Mathlib
import MonotoneQueue.Proofs.Search.Move
import MonotoneQueue.Proofs.Search.Visit

/- How a search ends. Each of its steps is a move or an end (`step_cases_view`), and there are no more
   moves than the bound on steps allows, so every search comes to an end of which the view before it is
   tracked and has whatever else all moves hand on (`exists_ends`). From there on a search is known by a
   view and by how it ends there (`Ends`), and its queue plays no part. -/
namespace MonotoneQueue

/-- The integers that the estimates stand for. -/
def Query.guess {κ : Type} [LE κ] [Cost κ] (q : Query κ) (n : Nat) : Int :=
  Cost.value (q.estimate n)

theorem Query.guess_dijkstra {κ : Type} [LE κ] [Cost κ] (g : Graph κ) (s : Nat) (limits : Limits κ) :
    (Query.dijkstra g s limits).guess = fun _ => 0 :=
  funext fun _ => Cost.value_zero

namespace Search

open Cost (value)
open PriorityQueue.Lawful (Holds Accepts)

variable {κ : Type} [LE κ] [Cost κ]

/-- No goal within the budget is closed. -/
def View.Unmet (q : Query κ) (v : View κ) : Prop :=
  ∀ x ∈ v.closed, q.graph.isGoal x.2.node = true → ¬ Affordable q.limits.maxCost (value x.2.cost)

/-- The ways in which a search ends. -/
inductive Ends (q : Query κ) (v : View κ) : Run κ → Prop
  | exhausted {log : List (Message κ)} :
    v.queued = 0 → Ends q v ⟨v.pops, log ++ [.exhausted v.pops v.table.size], .ok none⟩
  | stopped {log : List (Message κ)} :
    v.queued ≠ 0 → q.limits.reached v.pops = true →
    Ends q v ⟨v.pops, log ++ [.stopped v.pops], .ok none⟩
  /-- A goal within the budget comes out. -/
  | arrived {p : κ} {i : Nat} {d : Discovery κ} {M : Multiset (κ × Nat)} {t' : Table κ}
      {path : List Nat} {log : List (Message κ)} :
    v.Takes p i d M → d.closed = false → Affordable q.limits.maxCost (value d.cost) →
    q.graph.isGoal d.node = true → v.table.SetAt i { d with closed := true } t' →
    t'.Indexed q.graph q.start → t'.pathTo i = .ok path →
    Ends q v ⟨v.pops + 1, log ++ [.reached (v.pops + 1) v.table.size], .ok (some ⟨path, d.cost⟩)⟩
  /-- An edge of what comes out cannot be followed. -/
  | broken {p : κ} {i : Nat} {d : Discovery κ} {M : Multiset (κ × Nat)} {e : Edge κ} {why : Failure}
      {log : List (Message κ)} :
    v.Takes p i d M → d.closed = false → Affordable q.limits.maxCost (value d.cost) →
    e ∈ q.graph.leaving d.node → Breaks q.limits.maxCost q.guess (value d.cost) (value p) e why →
    Ends q v ⟨v.pops + 1, log, .error why⟩

theorem ranks_rank (q : Query κ) : Ranks (rank q) q.guess := fun n c => Cost.sum_cases c (q.estimate n)

variable {Q : Type} [PriorityQueue Q κ Nat]

/-- The search is on its way in this view, in which no goal within the budget is closed. -/
structure State.At [PriorityQueue.Lawful Q] (q : Query κ) (st : State Q κ) (v : View κ) : Prop where
  table_eq : v.table = st.frontier.table
  pops_eq : v.pops = st.pops
  holds : Holds st.frontier.queue v.queued
  unmet : v.Unmet q

variable [PriorityQueue.Lawful Q] [DecidableLE κ]

/-- A step ends the search or is a move, after which no goal within the budget is closed. -/
theorem step_cases_view (q : Query κ) {st : State Q κ} {v : View κ}
    (h : v.Tracked q.graph q.start) (hat : st.At q v) :
    (∃ run, step q st = .ended run ∧ Ends q v run) ∨
    ∃ st' v', step q st = .going st' ∧
      Move q.graph q.start q.limits.maxCost q.guess v v' ∧ st'.At q v' := by
  obtain ⟨table, M, done, pops⟩ := v
  obtain ⟨rfl, rfl, hM, hu⟩ := hat
  have hf : st.frontier.Sound q.graph q.start M := ⟨h.indexed, hM⟩
  rcases step_cases q hf with ⟨rfl, hstep⟩ | ⟨notices, hne, ⟨hreached, hstep⟩ |
    ⟨-, p, i, M', queue, rfl, hleast, hf', hacc, hstep⟩⟩
  · exact Or.inl ⟨_, hstep, .exhausted rfl⟩
  · exact Or.inl ⟨_, hstep, .stopped hne hreached⟩
  obtain ⟨d, hd⟩ := h.known (p, i) (Multiset.mem_cons_self _ _)
  have htakes : (⟨st.frontier.table, (p, i) ::ₘ M', done, st.pops⟩ : View κ).Takes p i d M' :=
    ⟨rfl, hleast, hd⟩
  rcases visit_cases q hf' hd with ⟨hc, hvisit⟩ | ⟨hc, t', hset, hf'', hrest⟩
  · -- a stale copy
    rw [hvisit] at hstep
    exact Or.inr ⟨_, _, hstep, .pass htakes hc, rfl, rfl, hf'.holds, hu⟩
  rcases hrest with ⟨ha, hvisit⟩ | ⟨ha, hgoal, hvisit⟩ | ⟨ha, hgoal, hvisit⟩
  · rw [hvisit] at hstep
    refine Or.inr ⟨_, _, hstep,
      .visit htakes hc hset (Or.inr ⟨rfl, ha⟩) (.nil hf''.indexed), rfl, rfl, hf''.holds, ?_⟩
    exact List.forall_mem_cons.mpr ⟨fun _ => ha, hu⟩
  · obtain ⟨path, hpath, -⟩ := (h.routed.close hd hc hset).exists_pathTo List.mem_cons_self
    rw [hvisit, hpath] at hstep
    exact Or.inl ⟨_, hstep, .arrived htakes hc ha hgoal hset hf''.indexed hpath⟩
  · rcases hf''.expands (ranks_rank q) hacc q.limits.maxCost d.node i d.cost with
      ⟨e, he, why, hbreaks, hexpand⟩ | ⟨f', M₁, hexpand, hM₁, hexp⟩
    · rw [hvisit, hexpand] at hstep
      exact Or.inl ⟨_, hstep, .broken htakes hc ha he hbreaks⟩
    · rw [hvisit, hexpand] at hstep
      refine Or.inr ⟨_, _, hstep, .visit htakes hc hset (Or.inl rfl) hexp, rfl, rfl, hM₁, ?_⟩
      refine List.forall_mem_cons.mpr ⟨?_, hu⟩
      intro hg
      rw [hgoal] at hg
      exact nomatch hg

/-- A search comes to an end in a view that has whatever the start has and every move hands on. -/
theorem exists_ends (Q : Type) [PriorityQueue Q κ Nat] [PriorityQueue.Lawful Q] (q : Query κ)
    (I : View κ → Prop) (hstart : I (.start q.graph q.start (q.estimate q.start)))
    (hmove : ∀ {v v' : View κ}, v.Tracked q.graph q.start → I v →
      Move q.graph q.start q.limits.maxCost q.guess v v' → I v') :
    ∃ v : View κ, v.Tracked q.graph q.start ∧ v.Unmet q ∧ I v ∧ Ends q v (run Q q) := by
  obtain ⟨⟨table, queue⟩, hf, hsound, htable⟩ :=
    Frontier.exists_start (Q := Q) q.graph q.start (q.estimate q.start)
  cases htable
  have hat : State.At q ⟨⟨_, queue⟩, 0, []⟩ (.start q.graph q.start (q.estimate q.start)) :=
    ⟨rfl, rfl, hsound.holds, fun _ hx => nomatch hx⟩
  obtain ⟨st, v, ht, hat', hI, hends⟩ := exists_end (step_cases_view q) (runFor q) I
    (fun h => by rw [runFor, h]) (fun h => by rw [runFor, h]) hmove (stepBound q.graph)
    _ (.start q.graph q.start _) hat hstart (Nat.zero_add _)
  rw [run, hf]
  exact ⟨v, ht, hat'.unmet, hI, hends⟩

omit [DecidableLE κ] in
theorem Ends.not_defect {q : Query κ} {v : View κ} {run : Run κ} (h : Ends q v run) (cause : Defect) :
    run.outcome ≠ .error (.defect cause) := by
  intro hdefect
  cases h with
  | exhausted => exact nomatch hdefect
  | stopped => exact nomatch hdefect
  | arrived => exact nomatch hdefect
  | broken htakes hc ha he hbreaks =>
    cases hbreaks with
    | overflow => exact nomatch hdefect
    | refusal => exact nomatch hdefect

theorem run_not_defect (Q : Type) [PriorityQueue Q κ Nat] [PriorityQueue.Lawful Q] (q : Query κ)
    (cause : Defect) : (run Q q).outcome ≠ .error (.defect cause) := by
  obtain ⟨v, -, -, -, hends⟩ := exists_ends Q q (fun _ => True) trivial fun _ _ _ => trivial
  exact hends.not_defect cause

end Search
end MonotoneQueue

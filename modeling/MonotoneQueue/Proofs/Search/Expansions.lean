import Mathlib
import MonotoneQueue.Proofs.Search.Course
import MonotoneQueue.Proofs.Search.Truncated

/- What a search for a goal expands and counts. The node that a step expands (`State.expands`) is the only
   one whose edges it looks at (`step_of_leaving`). Every search is the course of a loop without a bound, so
   it ends of itself, expands no two equal nodes, and takes no more elements out of its queue than its edges
   pay for (`run_terminates`). The count that it tells at its end is that of these elements. Where a search
   without estimates runs out of elements, the number of nodes that it tells is that of the nodes whose least
   weight is within the budget (`run_countsNodes`). -/
namespace MonotoneQueue

/-- The same search along other edges. -/
def Query.withEdges {κ : Type} (q : Query κ) (edges : List (Edge κ)) : Query κ :=
  { q with graph := { q.graph with edges } }

namespace Search

open Cost (value)

variable {Q κ : Type}

/-! What a step expands. -/

section

variable [LE κ] [DecidableLE κ] [Cost κ] [PriorityQueue Q κ Nat]

/-- The node that the next step expands, if it does: that of an open entry within the budget that comes out
    of the queue and is no goal, unless the bound on pops is reached. -/
def State.expands (q : Query κ) (st : State Q κ) : Option Nat :=
  if q.limits.reached st.pops then none
  else
    (st.frontier.opened.filter fun d =>
      Cost.within q.limits.maxCost d.cost && !q.graph.isGoal d.node).map (·.node)

variable {q : Query κ} {st st' : State Q κ} {f f' : Frontier Q κ}

omit [Cost κ] in
theorem State.exists_opened {n : Nat} (h : n ∈ st.expands q) :
    ∃ d, st.frontier.opened = some d ∧ d.node = n := by
  rw [expands] at h
  split at h
  · cases h
  · obtain ⟨d, hd, hnode⟩ := Option.map_eq_some_iff.mp h
    exact ⟨d, (Option.filter_eq_some_iff.mp hd).1, hnode⟩

/-- Apart from the edges that leave the node of an entry that it expands, a visit does not look at the
    edges. -/
theorem visit_of_leaving {edges : List (Edge κ)} {i : Nat}
    (h : ∀ d, f.table.entries[i]? = some d → d.closed = false →
      Cost.within q.limits.maxCost d.cost = true → q.graph.isGoal d.node = false →
      (q.withEdges edges).graph.leaving d.node = q.graph.leaving d.node) :
    visit (q.withEdges edges) f i = visit q f i := by
  cases hd : f.table.entries[i]? with
  | none => simp only [visit, Table.close, Table.entry, hd, Result.error_bind]
  | some d =>
    obtain ⟨hc, hclose⟩ | ⟨hc, t, hclose, -, -⟩ := Table.close_cases hd
    · simp only [visit, hclose, Result.ok_bind]
    simp only [visit, hclose, Result.ok_bind]
    refine ite_congr rfl (fun _ => rfl) fun hw => ite_congr rfl (fun _ => rfl) fun hgoal => ?_
    have hleaving := h d hd hc (by simpa using hw) (by simpa using hgoal)
    exact congrArg (Visit.onward <$> ·) (Frontier.expand_of_leaving rfl hleaving)

theorem advances_of_going (h : step q st = .going st') :
    st.frontier.Advances q.graph (st.expands q) st'.frontier := by
  obtain ⟨top, f, hpop, hreached, hvisit, hfrontier, -⟩ := exists_visit_of_going h
  obtain ⟨closed, hclosed, -⟩ := Result.bind_eq_ok.mp hvisit
  obtain ⟨d, hd⟩ := Table.exists_entry_of_close hclosed
  have hopened := Frontier.opened_of_pop hpop
  rw [hd, Option.filter_some] at hopened
  rw [hfrontier, State.expands, if_neg (by simp [hreached]), hopened]
  obtain ⟨hc, hclose⟩ | ⟨hc, t, hclose, hset, hindex⟩ := Table.close_cases hd
  · simp only [visit, hclose, Result.ok_bind] at hvisit
    obtain rfl := Visit.onward.inj (Except.ok.inj hvisit)
    rw [hc]
    exact .pass hpop
  simp only [visit, hclose, Result.ok_bind] at hvisit
  rw [hc, Bool.not_false, if_pos rfl, Option.filter_some]
  cases hw : Cost.within q.limits.maxCost d.cost with
  | false =>
    rw [hw] at hvisit
    obtain rfl := Visit.onward.inj (Except.ok.inj hvisit)
    exact .close hpop hd hset hindex
  | true =>
    rw [hw] at hvisit
    cases hgoal : q.graph.isGoal d.node with
    | true =>
      rw [hgoal] at hvisit
      obtain ⟨path, -, harrived⟩ := Result.bind_eq_ok.mp hvisit
      cases harrived
    | false =>
      rw [hgoal] at hvisit
      obtain ⟨f₁, hexpand, honward⟩ := Result.map_eq_ok.mp hvisit
      obtain rfl := Visit.onward.inj honward
      exact .expand hpop hd hset hindex (ranks_rank q) hexpand

/-- Apart from the edges that leave the node that it expands, a step does not look at the edges. -/
theorem step_of_leaving {edges : List (Edge κ)}
    (h : ∀ n ∈ st.expands q, (q.withEdges edges).graph.leaving n = q.graph.leaving n) :
    step (q.withEdges edges) st = step q st := by
  have hproceeds := step_proceeds q st
  generalize step q st = p at hproceeds
  cases hproceeds with
  | broken hpop => exact (Proceeds.broken hpop).step_eq
  | exhausted hpop => exact (Proceeds.exhausted hpop).step_eq
  | stopped hpop hreached => exact (Proceeds.stopped (q := q.withEdges edges) hpop hreached).step_eq
  | visited hpop hreached =>
    rw [(Proceeds.visited (q := q.withEdges edges) hpop hreached).step_eq]
    congr 1
    apply visit_of_leaving
    intro d hd hc hw hgoal
    apply h
    rw [State.expands, if_neg (by simp [hreached]), Frontier.opened_of_pop hpop]
    simp [hd, hc, hw, hgoal]

theorem explores (q : Query κ) :
    Explores q.graph (step q) (State.frontier (Q := Q)) (State.expands q) :=
  ⟨State.exists_opened, advances_of_going⟩

/-! What is told at the end. -/

/-- The number of pops that the message tells is that of the elements that came out of the queue. The one
    at which a search is stopped came out as well, and is not told. -/
def Message.Counts (taken : Nat) : Message κ → Prop
  | .emptied _ => False
  | .reached pops _ => pops = taken
  | .exhausted pops _ => pops = taken
  | .stopped pops => pops + 1 = taken

/-- A search that comes to an answer tells how many elements came out of its queue. -/
theorem Course.counts {passed : List (State Q κ)} {r : Run κ} (h : Course (step q) st passed r)
    {found : Option (Route κ)} (hfound : r.outcome = .ok found) :
    ∃ m, r.log.getLast? = some m ∧ m.Counts (st.pops + passed.countP fun st => st.frontier.yields) := by
  induction h with
  | @ended st r hstep =>
    rw [List.countP_singleton]
    obtain ⟨hyields, -, hlast⟩ | ⟨hyields, -, hlast⟩ | ⟨hyields, -, hlast⟩ := ended_cases hstep
    · obtain ⟨n, hlast⟩ := hlast found hfound
      rw [hyields]
      exact ⟨_, hlast, rfl⟩
    · rw [hyields]
      exact ⟨_, hlast, rfl⟩
    · obtain ⟨n, hlast⟩ := hlast found hfound
      rw [hyields]
      exact ⟨_, hlast, rfl⟩
  | @going st st' passed r hstep _ ih =>
    obtain ⟨hyields, hpops⟩ := yields_of_going hstep
    obtain ⟨m, hm, hcounts⟩ := ih hfound
    rw [List.countP_cons_of_pos (p := fun st : State Q κ => st.frontier.yields) hyields, Nat.add_comm _ 1,
      ← Nat.add_assoc, ← hpops]
    exact ⟨m, hm, hcounts⟩

end

/-! Searches. -/

variable [LE κ] [Cost κ] [DecidableLE κ]

/-- On queues of type `Q` the search ends of itself, with a result or at a cost or push that fails. It
    expands no two equal nodes, the elements that come out of its queue are paid for by the edges of the
    nodes that it expands, and if it comes to an answer, it tells how many elements these were. -/
structure Terminates (Q : Type) [PriorityQueue Q κ Nat] (q : Query κ) : Prop where
  not_defect : ∀ cause, (run Q q).outcome ≠ .error (.defect cause)
  /-- A step that goes on takes an element out and expands, if anything, the node of an open entry. -/
  explores : Explores q.graph (step q) (State.frontier (Q := Q)) (State.expands q)
  /-- Other edges than those that leave the node that it expands make no difference to a step. -/
  leaving : ∀ (st : State Q κ) (edges : List (Edge κ)),
    (∀ n ∈ st.expands q, (q.withEdges edges).graph.leaving n = q.graph.leaving n) →
    step (q.withEdges edges) st = step q st
  course : ∃ (f : Frontier Q κ) (passed : List (State Q κ)),
    Frontier.start q.graph q.start (q.estimate q.start) = .ok f ∧
    Course (step q) ⟨f, 0, []⟩ passed (run Q q) ∧
    Accounted q.graph State.frontier (State.expands q) passed ∧
    ∀ found, (run Q q).outcome = .ok found →
      ∃ m, (run Q q).log.getLast? = some m ∧ m.Counts (passed.countP fun st => st.frontier.yields)

/-- On queues of type `Q`, if the queue runs empty, the number of nodes that the search tells is that of
    the nodes whose least weight is within the budget, and no fewer elements came out. -/
def CountsNodes (Q : Type) [PriorityQueue Q κ Nat] (q : Query κ) : Prop :=
  ∀ pops discovered, (run Q q).outcome = .ok none →
    (run Q q).log.getLast? = some (.exhausted pops discovered) →
    {n | ∃ c, IsLeast (q.graph.weights q.start n) c ∧ Affordable q.limits.maxCost c}.encard = discovered ∧
    discovered ≤ pops

section

variable {g : Graph κ} {s : Nat} {budget : Option κ} {H : Nat → Int} {v v' : View κ}

omit [DecidableLE κ] in
theorem Move.length_closed_le (h : v.closed.length ≤ v.pops) (hm : Move g s budget H v v') :
    v'.closed.length ≤ v'.pops := by
  cases hm with
  | pass => exact Nat.le_succ_of_le h
  | visit => exact Nat.succ_le_succ h

omit [DecidableLE κ] in
/-- With nothing left in the queue, the entries are of the nodes whose least weight is within the budget. -/
theorem View.InOrder.encard_eq_size (h : v.InOrder g budget H) (hwithin : v.Within budget)
    (ht : v.Tracked g s) (hg : g.DistinctKeys s) (hpos : g.NonNegative) (hH : g.Consistent H)
    (hM : v.queued = 0) :
    {n | ∃ c, IsLeast (g.weights s n) c ∧ Affordable budget c}.encard = v.table.size ∧
      v.closed.length = v.table.size := by
  have hnodes : {n | ∃ c, IsLeast (g.weights s n) c ∧ Affordable budget c} =
      (v.closed.map fun x => x.2.node).toFinset := by
    ext n
    rw [List.coe_toFinset]
    constructor
    · rintro ⟨c, hleast, ha⟩
      obtain ⟨x, hx, hnode, -⟩ := h.exists_closed_le ht hg hpos hH hM hleast.1 ha
      exact List.mem_map.mpr ⟨x, hx, hnode⟩
    · intro hn
      obtain ⟨x, hx, rfl⟩ := List.mem_map.mp hn
      have hentry := ((ht.routed.mem_done x.1 x.2).mp hx).1
      exact ⟨_, h.isLeast_of_mem_closed hwithin ht hg hpos hH hM hx, hwithin x.1 x.2 hentry⟩
  have hlength : v.closed.length = v.table.size := by
    apply ht.routed.length_eq_size
    intro i d hd
    by_contra hopen
    obtain ⟨p, hmem, -⟩ := h.pending.queued i d hd (by simpa using hopen)
    rw [hM] at hmem
    exact Multiset.notMem_zero _ hmem
  refine ⟨?_, hlength⟩
  rw [hnodes, Set.encard_coe_eq_coe_finsetCard, List.toFinset_card_of_nodup (ht.routed.nodup_nodes ht.indexed),
    List.length_map, hlength]

end

variable {Q : Type} [PriorityQueue Q κ Nat] [PriorityQueue.Lawful Q] {q : Query κ}

theorem run_terminates (q : Query κ) : Terminates Q q := by
  obtain ⟨f, passed, hf, hsound, hcourse⟩ := exists_run_course Q q
  constructor
  case not_defect => exact run_not_defect Q q
  case explores => exact Search.explores q
  case leaving => exact fun st edges h => step_of_leaving h
  case course =>
    refine ⟨f, passed, hf, hcourse, hcourse.accounted (Search.explores q) hsound, ?_⟩
    intro found hfound
    obtain ⟨m, hm, hcounts⟩ := hcourse.counts hfound
    rw [Nat.zero_add] at hcounts
    exact ⟨m, hm, hcounts⟩

theorem run_countsNodes {g : Graph κ} {s : Nat} {limits : Limits κ} (hg : g.DistinctKeys s)
    (hpos : g.NonNegative) (hbudget : Affordable limits.maxCost 0) :
    CountsNodes Q (.dijkstra g s limits) := by
  have hguess := Query.guess_dijkstra g s limits
  obtain ⟨v, ht, -, ⟨horder, hwithin, hlength⟩, hends⟩ := exists_ends Q (.dijkstra g s limits)
    (fun v => v.InOrder g limits.maxCost (fun _ => 0) ∧ v.Within limits.maxCost ∧
      v.closed.length ≤ v.pops)
    ⟨.start _ _ Cost.value_zero, .start _ _ _ hbudget, Nat.le_refl _⟩
    (fun _ h hm => by
      rw [hguess] at hm
      exact ⟨hm.inOrder (.zero _ _) hpos.consistent h.1, hm.within h.2.1, hm.length_closed_le h.2.2⟩)
  intro pops discovered hnone hlog
  generalize run Q (.dijkstra g s limits) = r at hnone hlog hends
  cases hends with
  | exhausted hM =>
    obtain ⟨rfl, rfl⟩ := Message.exhausted.inj (Option.some.inj (List.getLast?_concat.symm.trans hlog))
    obtain ⟨hcount, hsize⟩ := horder.encard_eq_size hwithin ht hg hpos hpos.consistent hM
    exact ⟨hcount, hsize ▸ hlength⟩
  | stopped => cases List.getLast?_concat.symm.trans hlog
  | arrived => cases hnone
  | broken => cases hnone

end Search
end MonotoneQueue

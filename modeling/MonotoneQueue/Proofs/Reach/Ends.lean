import Mathlib
import MonotoneQueue.Proofs.Search.Move
import MonotoneQueue.Proofs.Search.Visit
import MonotoneQueue.Reach

/- How the search for all nodes within a budget ends. It goes by the moves of a search without estimates,
   and reports every entry that it closes (`View.found`), at the priority that came out for it. That is
   the cost of the entry, since what is queued for an open entry is no cheaper than the entry itself. -/
namespace MonotoneQueue

/-- The nodes of the closed entries with their costs, in the order in which they were closed. -/
def Search.View.found {κ : Type} (v : Search.View κ) : List (Nat × κ) :=
  v.closed.reverse.map fun x => (x.2.node, x.2.cost)

namespace Reach

open Cost (value)
open PriorityQueue.Lawful (Holds Accepts)
open Search (Frontier View Move Discovery Pending Progress Ranks Breaks Table Respects)

variable {κ : Type} [LE κ] [Cost κ]

/-- The ways in which the search ends. -/
inductive Ends (q : Query κ) (v : View κ) : Run κ → Prop
  | exhausted {notices : List (Notice κ)} :
    v.queued = 0 → Ends q v ⟨v.pops, notices, .ok v.found⟩
  /-- An edge of what comes out cannot be followed. -/
  | broken {p : κ} {i : Nat} {d : Discovery κ} {M : Multiset (κ × Nat)} {e : Edge κ} {why : Failure}
      {notices : List (Notice κ)} :
    v.Takes p i d M → d.closed = false → e ∈ q.graph.leaving d.node →
    Breaks (some q.maxCost) (fun _ => 0) (value d.cost) (value p) e why →
    Ends q v ⟨v.pops + 1, notices, .error why⟩

theorem ranks_cost : Ranks (fun _ c => .ok c : Nat → κ → Result κ) fun _ => 0 :=
  fun _ c => Or.inr ⟨c, rfl, (add_zero _).symm⟩

variable {Q : Type} [PriorityQueue Q κ Nat]

/-- What a step comes to, given what its visit comes to. -/
def State.afterVisit (st : State Q κ) (notices : List (Notice κ)) :
    Result (Frontier Q κ × Option (Nat × κ)) → Progress (State Q κ) (Run κ)
  | .error f => .ended ⟨st.pops + 1, notices, .error f⟩
  | .ok (f, found) => .going ⟨f, st.pops + 1, notices, st.found ++ found.toList⟩

omit [LE κ] [Cost κ] [PriorityQueue Q κ Nat] in
theorem State.of_afterVisit_going {st st' : State Q κ} {notices : List (Notice κ)}
    {r : Result (Frontier Q κ × Option (Nat × κ))} (h : st.afterVisit notices r = .going st') :
    ∃ f found, r = .ok (f, found) ∧ st' = ⟨f, st.pops + 1, notices, st.found ++ found.toList⟩ := by
  cases r with
  | error why => cases h
  | ok x => exact ⟨x.1, x.2, rfl, (Progress.going.inj h).symm⟩

omit [LE κ] [Cost κ] [PriorityQueue Q κ Nat] in
theorem State.of_afterVisit_ended {st : State Q κ} {notices : List (Notice κ)}
    {r : Result (Frontier Q κ × Option (Nat × κ))} {run : Run κ} (h : st.afterVisit notices r = .ended run) :
    ∃ why, run.outcome = .error why := by
  cases r with
  | error why =>
    obtain rfl := Progress.ended.inj h
    exact ⟨why, rfl⟩
  | ok x => cases h

/-- The search is on its way in this view, has every open entry queued, and has reported the closed
    ones. -/
structure State.At [PriorityQueue.Lawful Q] (st : State Q κ) (v : View κ) : Prop where
  table_eq : v.table = st.frontier.table
  pops_eq : v.pops = st.pops
  holds : Holds st.frontier.queue v.queued
  pending : Pending (fun _ => 0) v.table v.queued
  found_eq : st.found = v.found

section Reported

variable [DecidableLE κ] {q : Query κ} {st st' : State Q κ} {found : List (Nat × κ)} {n : Nat}

/-! Steps, on any queue. -/

/-- What a step comes to, by what comes out of the queue. -/
inductive Proceeds (q : Query κ) (st : State Q κ) : Progress (State Q κ) (Run κ) → Prop
  | broken {why : Failure} (hpop : PriorityQueue.pop st.frontier.queue = .error why) :
    Proceeds q st (.ended ⟨st.pops, st.notices, .error why⟩)
  | exhausted (hpop : PriorityQueue.pop st.frontier.queue = .ok none) :
    Proceeds q st (.ended ⟨st.pops, st.notices, .ok st.found⟩)
  | visited {top : Popped Q κ Nat} (hpop : PriorityQueue.pop st.frontier.queue = .ok (some top)) :
    Proceeds q st (st.afterVisit (st.notices ++ top.notice.toList)
      (visit q ⟨st.frontier.table, top.rest⟩ top.value top.priority))

theorem Proceeds.step_eq {p : Progress (State Q κ) (Run κ)} (h : Proceeds q st p) : step q st = p := by
  cases h with
  | broken hpop | exhausted hpop => simp only [step, hpop]
  | @visited top hpop =>
    simp only [step, hpop]
    cases visit q ⟨st.frontier.table, top.rest⟩ top.value top.priority <;> rfl

theorem step_proceeds (q : Query κ) (st : State Q κ) : Proceeds q st (step q st) := by
  have hproceeds : ∃ p, Proceeds q st p := by
    rcases hpop : PriorityQueue.pop st.frontier.queue with why | (_ | top)
    · exact ⟨_, .broken hpop⟩
    · exact ⟨_, .exhausted hpop⟩
    · exact ⟨_, .visited hpop⟩
  obtain ⟨p, hp⟩ := hproceeds
  rw [hp.step_eq]
  exact hp

theorem exists_visit_of_going (h : step q st = .going st') :
    ∃ top f found, PriorityQueue.pop st.frontier.queue = .ok (some top) ∧
      visit q ⟨st.frontier.table, top.rest⟩ top.value top.priority = .ok (f, found) ∧
      st'.frontier = f ∧ st'.found = st.found ++ found.toList := by
  have hproceeds := step_proceeds q st
  generalize step q st = p at h hproceeds
  cases hproceeds with
  | broken | exhausted => cases h
  | @visited top hpop =>
    obtain ⟨f, found, hvisit, rfl⟩ := State.of_afterVisit_going h
    exact ⟨top, f, found, hpop, hvisit, rfl, rfl⟩

/-- A step that takes an element out ends the search only by breaking off. -/
theorem exists_error_of_ended {run : Run κ} {top : Popped Q κ Nat}
    (hpop : PriorityQueue.pop st.frontier.queue = .ok (some top)) (h : step q st = .ended run) :
    ∃ why, run.outcome = .error why := by
  rw [(Proceeds.visited hpop).step_eq] at h
  exact State.of_afterVisit_ended h

/-! What is reported stays reported. -/

theorem prefix_of_going (h : step q st = .going st') : st.found <+: st'.found := by
  obtain ⟨_, _, _, -, -, -, hfound⟩ := exists_visit_of_going h
  rw [hfound]
  exact List.prefix_append _ _

theorem prefix_of_ended {run : Run κ} (h : step q st = .ended run) (hrun : run.outcome = .ok found) :
    st.found = found := by
  have hproceeds := step_proceeds q st
  generalize step q st = p at h hproceeds
  cases hproceeds with
  | broken =>
    obtain rfl := Progress.ended.inj h
    cases hrun
  | exhausted =>
    obtain rfl := Progress.ended.inj h
    exact Except.ok.inj hrun
  | visited hpop =>
    obtain ⟨why, hwhy⟩ := State.of_afterVisit_ended h
    cases hwhy.symm.trans hrun

theorem prefix_of_runFor (h : (runFor q n st).outcome = .ok found) : st.found <+: found := by
  induction n generalizing st with
  | zero => cases h
  | succ n ih =>
    rw [runFor] at h
    split at h
    · next st' hstep => exact (prefix_of_going hstep).trans (ih h)
    · next run hstep =>
      rw [prefix_of_ended hstep h]

/-- What is true of all that a visit may report is true of all that a loop reports. -/
theorem forall_of_runFor {P : Nat × κ → Prop}
    (hvisit : ∀ {f f' : Frontier Q κ} {i : Nat} {cost : κ} {x : Nat × κ},
      visit q f i cost = .ok (f', some x) → P x)
    (hst : ∀ x ∈ st.found, P x) (h : (runFor q n st).outcome = .ok found) : ∀ x ∈ found, P x := by
  induction n generalizing st with
  | zero => cases h
  | succ n ih =>
    rw [runFor] at h
    split at h
    · next st' hstep =>
      refine ih ?_ h
      obtain ⟨_, _, new, -, hnew, -, hfound⟩ := exists_visit_of_going hstep
      rw [hfound]
      intro x hx
      rcases List.mem_append.mp hx with hx | hx
      · exact hst x hx
      · rw [Option.mem_toList] at hx
        obtain rfl : new = some x := hx
        exact hvisit hnew
    · next run hstep => rwa [← prefix_of_ended hstep h]

end Reported

variable [PriorityQueue.Lawful Q] [DecidableLE κ] {M : Multiset (κ × Nat)}

/-- An entry that was closed before is passed over, and any other is closed and expanded. -/
theorem visit_cases (q : Query κ) {f : Frontier Q κ} {i : Nat} {d : Discovery κ} (cost : κ)
    (h : f.Sound q.graph q.start M) (hd : f.table.entries[i]? = some d) :
    (d.closed = true ∧ visit q f i cost = .ok (f, none)) ∨
    (d.closed = false ∧ ∃ t', f.table.SetAt i { d with closed := true } t' ∧
      (⟨t', f.queue⟩ : Frontier Q κ).Sound q.graph q.start M ∧
      visit q f i cost = (fun f => (f, some (d.node, cost))) <$>
        (⟨t', f.queue⟩ : Frontier Q κ).expand q.graph (some q.maxCost) (fun _ c => .ok c) d.node i
          cost) := by
  rcases Table.close_cases hd with ⟨hc, hclose⟩ | ⟨hc, t', hclose, hset, hindex⟩
  · exact Or.inl ⟨hc, by simp only [visit, hclose, Result.ok_bind]⟩
  · refine Or.inr ⟨hc, t', hset, ⟨h.indexed.set hset hindex hd rfl, h.holds⟩, ?_⟩
    simp only [visit, hclose, Result.ok_bind]
    rfl

/-- A step finds the queue empty, or takes out a least element and visits it. -/
theorem step_cases (q : Query κ) {st : State Q κ} (h : st.frontier.Sound q.graph q.start M) :
    (M = 0 ∧ step q st = .ended ⟨st.pops, st.notices, .ok st.found⟩) ∨
    ∃ p i M' queue notices, M = (p, i) ::ₘ M' ∧ (∀ x ∈ M, value p ≤ value x.1) ∧
      (⟨st.frontier.table, queue⟩ : Frontier Q κ).Sound q.graph q.start M' ∧
      (∀ p', value p ≤ value p' → Accepts queue p') ∧
      step q st = st.afterVisit notices (visit q ⟨st.frontier.table, queue⟩ i p) := by
  rcases h.pop_cases with ⟨hM, hpop⟩ | ⟨top, M', hpop, rfl, hleast, h', hacc⟩
  · exact Or.inl ⟨hM, (Proceeds.exhausted hpop).step_eq⟩
  exact Or.inr ⟨top.priority, top.value, M', top.rest, st.notices ++ top.notice.toList, rfl, hleast,
    h', hacc, (Proceeds.visited hpop).step_eq⟩

theorem step_cases_view (q : Query κ) {st : State Q κ} {v : View κ}
    (h : v.Tracked q.graph q.start) (hat : st.At v) :
    (∃ run, step q st = .ended run ∧ Ends q v run) ∨
    ∃ st' v', step q st = .going st' ∧
      Move q.graph q.start (some q.maxCost) (fun _ => 0) v v' ∧ st'.At v' := by
  obtain ⟨table, M, done, pops⟩ := v
  obtain ⟨rfl, rfl, hM, hp, hfound⟩ := hat
  have hf : st.frontier.Sound q.graph q.start M := ⟨h.indexed, hM⟩
  rcases step_cases q hf with ⟨rfl, hstep⟩ |
    ⟨p, i, M', queue, notices, rfl, hleast, hf', hacc, hstep⟩
  · rw [hfound] at hstep
    exact Or.inl ⟨_, hstep, .exhausted rfl⟩
  obtain ⟨d, hd⟩ := h.known (p, i) (Multiset.mem_cons_self _ _)
  have htakes : (⟨st.frontier.table, (p, i) ::ₘ M', done, st.pops⟩ : View κ).Takes p i d M' :=
    ⟨rfl, hleast, hd⟩
  rcases visit_cases q p hf' hd with ⟨hc, hvisit⟩ | ⟨hc, t', hset, hf'', hvisit⟩
  · -- a stale copy
    rw [hvisit] at hstep
    have hm : Move q.graph q.start (some q.maxCost) (fun _ => 0) _ _ := .pass htakes hc
    exact Or.inr ⟨_, _, hstep, hm, rfl, rfl, hf'.holds, hm.pending (.zero _ _) hp,
      (List.append_nil _).trans hfound⟩
  -- what comes out for an open entry is its cost
  obtain rfl : p = d.cost := Cost.value_injective _ _ ((htakes.eq_total hp hc).trans (add_zero _))
  rcases hf''.expands ranks_cost hacc (some q.maxCost) d.node i d.cost with
    ⟨e, he, why, hbreaks, hexpand⟩ | ⟨f', M₁, hexpand, hM₁, hexp⟩
  · rw [hvisit, hexpand] at hstep
    exact Or.inl ⟨_, hstep, .broken htakes hc he hbreaks⟩
  · rw [hvisit, hexpand] at hstep
    have hm : Move q.graph q.start (some q.maxCost) (fun _ => 0) _ _ :=
      .visit htakes hc hset (Or.inl rfl) hexp
    refine Or.inr ⟨_, _, hstep, hm, rfl, rfl, hM₁, hm.pending (.zero _ _) hp, ?_⟩
    show st.found ++ [(d.node, d.cost)] = List.map _ (_ :: done).reverse
    rw [hfound, View.found, List.reverse_cons, List.map_append]
    rfl

/-- The search comes to an end in a view that has whatever the start has and every move hands on. -/
theorem exists_ends (Q : Type) [PriorityQueue Q κ Nat] [PriorityQueue.Lawful Q] (q : Query κ)
    (I : View κ → Prop) (hstart : I (.start q.graph q.start Cost.zero))
    (hmove : ∀ {v v' : View κ}, v.Tracked q.graph q.start → I v →
      Move q.graph q.start (some q.maxCost) (fun _ => 0) v v' → I v') :
    ∃ v : View κ, v.Tracked q.graph q.start ∧ Pending (fun _ => 0) v.table v.queued ∧ I v ∧
      Ends q v (run Q q) := by
  obtain ⟨⟨table, queue⟩, hf, hsound, htable⟩ :=
    Search.Frontier.exists_start (Q := Q) q.graph q.start Cost.zero
  cases htable
  have hat : State.At ⟨⟨_, queue⟩, 0, [], []⟩ (.start q.graph q.start Cost.zero) :=
    ⟨rfl, rfl, hsound.holds, .start _ _ Cost.value_zero, rfl⟩
  obtain ⟨st, v, ht, hat', hI, hends⟩ := Search.exists_end (step_cases_view q) (runFor q) I
    (fun h => by rw [runFor, h]) (fun h => by rw [runFor, h]) hmove (Search.stepBound q.graph)
    _ (.start q.graph q.start _) hat hstart (Nat.zero_add _)
  rw [run, hf]
  exact ⟨v, ht, hat'.pending, hI, hends⟩

end Reach
end MonotoneQueue

import Mathlib
import MonotoneQueue.Proofs.Search.Follow
import MonotoneQueue.Search

/- What the start, a visit and a step of a search can come to. -/
namespace MonotoneQueue.Search

open Cost (value)
open PriorityQueue.Lawful (Holds Accepts)

variable {Q κ : Type} [LE κ] [Cost κ] [PriorityQueue Q κ Nat]

/-! Steps, on any queue. -/

section

variable [DecidableLE κ] {q : Query κ} {st st' : State Q κ}

/-- What a step comes to, given what its visit comes to. -/
def State.afterVisit (s : State Q κ) (log : List (Message κ)) :
    Result (Visit Q κ) → Progress (State Q κ) (Run κ)
  | .error f => .ended ⟨s.pops + 1, log, .error f⟩
  | .ok (.onward f) => .going ⟨f, s.pops + 1, log⟩
  | .ok (.arrived route) => .ended ⟨s.pops + 1,
      log ++ [.reached (s.pops + 1) s.frontier.table.size], .ok (some route)⟩

omit [LE κ] [Cost κ] [PriorityQueue Q κ Nat] [DecidableLE κ] in
theorem State.of_afterVisit_going {log : List (Message κ)} {r : Result (Visit Q κ)}
    (h : st.afterVisit log r = .going st') : ∃ f, r = .ok (.onward f) ∧ st' = ⟨f, st.pops + 1, log⟩ := by
  cases r with
  | error why => cases h
  | ok x =>
    cases x with
    | onward f => exact ⟨f, rfl, (Progress.going.inj h).symm⟩
    | arrived route => cases h

/-- What a step comes to, by what comes out of the queue. -/
inductive Proceeds (q : Query κ) (st : State Q κ) : Progress (State Q κ) (Run κ) → Prop
  | broken {why : Failure} (hpop : PriorityQueue.pop st.frontier.queue = .error why) :
    Proceeds q st (.ended ⟨st.pops, st.log, .error why⟩)
  | exhausted (hpop : PriorityQueue.pop st.frontier.queue = .ok none) :
    Proceeds q st (.ended ⟨st.pops, st.log ++ [.exhausted st.pops st.frontier.table.size], .ok none⟩)
  /-- At the bound on pops the search ends, though an element came out. -/
  | stopped {top : Popped Q κ Nat} (hpop : PriorityQueue.pop st.frontier.queue = .ok (some top))
    (hreached : q.limits.reached st.pops = true) : Proceeds q st
      (.ended ⟨st.pops, st.log ++ top.notice.toList.map .emptied ++ [.stopped st.pops], .ok none⟩)
  | visited {top : Popped Q κ Nat} (hpop : PriorityQueue.pop st.frontier.queue = .ok (some top))
    (hreached : q.limits.reached st.pops = false) : Proceeds q st
      (st.afterVisit (st.log ++ top.notice.toList.map .emptied)
        (visit q ⟨st.frontier.table, top.rest⟩ top.value))

theorem Proceeds.step_eq {p : Progress (State Q κ) (Run κ)} (h : Proceeds q st p) : step q st = p := by
  cases h with
  | broken hpop | exhausted hpop => simp only [step, hpop]
  | stopped hpop hreached => simp only [step, hpop, hreached, if_true]
  | @visited top hpop hreached =>
    simp only [step, hpop, hreached, Bool.false_eq_true, if_false]
    cases visit q ⟨st.frontier.table, top.rest⟩ top.value with
    | error why => rfl
    | ok x => cases x <;> rfl

theorem step_proceeds (q : Query κ) (st : State Q κ) : Proceeds q st (step q st) := by
  have hproceeds : ∃ p, Proceeds q st p := by
    rcases hpop : PriorityQueue.pop st.frontier.queue with why | (_ | top)
    · exact ⟨_, .broken hpop⟩
    · exact ⟨_, .exhausted hpop⟩
    · cases hreached : q.limits.reached st.pops with
      | true => exact ⟨_, .stopped hpop hreached⟩
      | false => exact ⟨_, .visited hpop hreached⟩
  obtain ⟨p, hp⟩ := hproceeds
  rw [hp.step_eq]
  exact hp

theorem exists_visit_of_going (h : step q st = .going st') :
    ∃ top f, PriorityQueue.pop st.frontier.queue = .ok (some top) ∧ q.limits.reached st.pops = false ∧
      visit q ⟨st.frontier.table, top.rest⟩ top.value = .ok (.onward f) ∧ st'.frontier = f ∧
      st'.pops = st.pops + 1 := by
  have hproceeds := step_proceeds q st
  generalize step q st = p at h hproceeds
  cases hproceeds with
  | broken | exhausted | stopped => cases h
  | @visited top hpop hreached =>
    obtain ⟨f, hvisit, rfl⟩ := State.of_afterVisit_going h
    exact ⟨top, f, hpop, hreached, hvisit, rfl, rfl⟩

end

/-! Starts, visits and steps, on lawful queues. -/

variable [PriorityQueue.Lawful Q]

theorem Frontier.exists_start (g : Graph κ) (s : Nat) (p : κ) :
    ∃ f : Frontier Q κ, Frontier.start g s p = .ok f ∧ f.Sound g s {(p, 0)} ∧
      f.table = .start (g.key s) s Cost.zero := by
  rcases PriorityQueue.Lawful.push_cases (Q := Q) PriorityQueue.Lawful.holds_empty p 0 with
    ⟨-, queue, hpush, hholds, -⟩ | ⟨hacc, -⟩
  · refine ⟨⟨.start (g.key s) s Cost.zero, queue⟩, ?_, ⟨.start g s Cost.zero, hholds⟩, rfl⟩
    simp only [Frontier.start, hpush, Result.ok_bind]
  · exact absurd (PriorityQueue.Lawful.accepts_empty p) hacc

/-- The queue is empty, or a least element comes out of it, and nothing at or above that is refused. -/
theorem Frontier.Sound.pop_cases {g : Graph κ} {s : Nat} {f : Frontier Q κ} {M : Multiset (κ × Nat)}
    (h : f.Sound g s M) :
    (M = 0 ∧ PriorityQueue.pop f.queue = .ok none) ∨
    ∃ top M', PriorityQueue.pop f.queue = .ok (some top) ∧ M = (top.priority, top.value) ::ₘ M' ∧
      (∀ x ∈ M, value top.priority ≤ value x.1) ∧
      (⟨f.table, top.rest⟩ : Frontier Q κ).Sound g s M' ∧
      ∀ p', value top.priority ≤ value p' → Accepts top.rest p' := by
  by_cases hM : M = 0
  · exact Or.inl ⟨hM, PriorityQueue.Lawful.pop_eq_none (hM ▸ h.holds)⟩
  obtain ⟨top, M', hpop, heq, hholds, hleast, hacc⟩ :=
    PriorityQueue.Lawful.exists_pop h.holds hM
  refine Or.inr ⟨top, M', hpop, heq, ?_, ⟨h.indexed, hholds⟩, ?_⟩
  · exact fun x hx => (Cost.le_iff_value_le _ _).mp (hleast x hx)
  · exact fun p' hp' => hacc p' ((Cost.le_iff_value_le _ _).mpr hp')

variable [DecidableLE κ] {f : Frontier Q κ} {M : Multiset (κ × Nat)}

/-- An entry that was closed before is passed over. Any other is closed, and then it is over the
    budget, or ends the search, or is expanded. -/
theorem visit_cases (q : Query κ) {i : Nat} {d : Discovery κ} (h : f.Sound q.graph q.start M)
    (hd : f.table.entries[i]? = some d) :
    (d.closed = true ∧ visit q f i = .ok (.onward f)) ∨
    (d.closed = false ∧ ∃ t', f.table.SetAt i { d with closed := true } t' ∧
      (⟨t', f.queue⟩ : Frontier Q κ).Sound q.graph q.start M ∧
      ((¬ Affordable q.limits.maxCost (value d.cost) ∧
          visit q f i = .ok (.onward ⟨t', f.queue⟩)) ∨
        (Affordable q.limits.maxCost (value d.cost) ∧ q.graph.isGoal d.node = true ∧
          visit q f i = (t'.pathTo i).bind fun path => .ok (.arrived ⟨path, d.cost⟩)) ∨
        (Affordable q.limits.maxCost (value d.cost) ∧ q.graph.isGoal d.node = false ∧
          visit q f i = .onward <$> (⟨t', f.queue⟩ : Frontier Q κ).expand q.graph
            q.limits.maxCost (rank q) d.node i d.cost))) := by
  rcases Table.close_cases hd with ⟨hc, hclose⟩ | ⟨hc, t', hclose, hset, hindex⟩
  · exact Or.inl ⟨hc, by simp only [visit, hclose, Result.ok_bind]⟩
  refine Or.inr ⟨hc, t', hset, ⟨h.indexed.set hset hindex hd rfl, h.holds⟩, ?_⟩
  by_cases ha : Cost.within q.limits.maxCost d.cost = true
  · cases hgoal : q.graph.isGoal d.node with
    | true =>
      refine Or.inr (Or.inl ⟨Cost.within_iff.mp ha, rfl, ?_⟩)
      simp only [visit, hclose, Result.ok_bind, ha, Bool.not_true, Bool.false_eq_true, if_false,
        hgoal, if_true]
      rfl
    | false =>
      refine Or.inr (Or.inr ⟨Cost.within_iff.mp ha, rfl, ?_⟩)
      simp only [visit, hclose, Result.ok_bind, ha, Bool.not_true, Bool.false_eq_true, if_false,
        hgoal]
  · refine Or.inl ⟨fun hb => ha (Cost.within_iff.mpr hb), ?_⟩
    rw [Bool.not_eq_true] at ha
    simp only [visit, hclose, Result.ok_bind, ha, Bool.not_false, if_true]

/-- A step finds the queue empty, or the bound on pops reached, or takes out a least element and
    visits it. -/
theorem step_cases (q : Query κ) {s : State Q κ} (h : s.frontier.Sound q.graph q.start M) :
    (M = 0 ∧ step q s =
      .ended ⟨s.pops, s.log ++ [.exhausted s.pops s.frontier.table.size], .ok none⟩) ∨
    ∃ notices : List (Notice κ), M ≠ 0 ∧
      ((q.limits.reached s.pops = true ∧ step q s =
          .ended ⟨s.pops, s.log ++ notices.map .emptied ++ [.stopped s.pops], .ok none⟩) ∨
        (q.limits.reached s.pops = false ∧ ∃ p i M' queue, M = (p, i) ::ₘ M' ∧
          (∀ x ∈ M, value p ≤ value x.1) ∧
          (⟨s.frontier.table, queue⟩ : Frontier Q κ).Sound q.graph q.start M' ∧
          (∀ p', value p ≤ value p' → Accepts queue p') ∧
          step q s = s.afterVisit (s.log ++ notices.map .emptied)
            (visit q ⟨s.frontier.table, queue⟩ i))) := by
  rcases h.pop_cases with ⟨hM, hpop⟩ | ⟨top, M', hpop, rfl, hleast, h', hacc⟩
  · exact Or.inl ⟨hM, (Proceeds.exhausted hpop).step_eq⟩
  refine Or.inr ⟨top.notice.toList, Multiset.cons_ne_zero, ?_⟩
  cases hreached : q.limits.reached s.pops with
  | true => exact Or.inl ⟨rfl, (Proceeds.stopped hpop hreached).step_eq⟩
  | false =>
    exact Or.inr ⟨rfl, top.priority, top.value, M', top.rest, rfl, hleast, h', hacc,
      (Proceeds.visited hpop hreached).step_eq⟩

end MonotoneQueue.Search

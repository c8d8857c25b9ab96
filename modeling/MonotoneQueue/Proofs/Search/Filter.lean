import Mathlib
import MonotoneQueue.Proofs.Radix.Coupled
import MonotoneQueue.Proofs.Search.Optimal
import MonotoneQueue.Proofs.Search.Trimmed
import MonotoneQueue.Proofs.Stable.Coupled

/- A budget only filters. While a goal within the budget is still to come, what comes out next of the
   search without a budget is no dearer (`State.Underway.exists_pop`), so it comes out of the search with
   the budget as well, and both make the same of it (`Paced.step`). So they come to the same end
   (`run_within`), unless there is no goal within the budget, and then the one with the budget finds
   none. -/
namespace MonotoneQueue

variable {κ : Type} [LE κ] [Cost κ]

/-- The same search within a budget. -/
def Query.within (q : Query κ) (most : κ) : Query κ :=
  { q with limits := { q.limits with maxCost := some most } }

/-- The same search without its bound on pops. -/
def Query.unhurried (q : Query κ) : Query κ := { q with limits := { q.limits with maxPops := none } }

/-- The search has no budget. Without its bound on pops it is regular, and no estimate is negative. -/
structure Query.Unbudgeted (q : Query κ) : Prop where
  maxCost : q.limits.maxCost = none
  regular : q.unhurried.Regular
  nonNegative : ∀ n, 0 ≤ q.guess n

theorem Query.Unbudgeted.le_rank {q : Query κ} (hq : q.Unbudgeted) {n : Nat} {c p : κ}
    (hp : Search.rank q n c = .ok p) : Cost.value c ≤ Cost.value p := by
  have hpos := hq.nonNegative n
  rw [Query.guess] at hpos
  rcases Cost.sum_cases c (q.estimate n) with ⟨herror, -⟩ | ⟨p', hp', hvalue⟩
  · exact nomatch hp.symm.trans herror
  · obtain rfl : p = p' := Except.ok.inj (hp.symm.trans hp')
    omega

namespace Search

open Cost (value)
open Table (SameNode)

variable {Q : Type} [PriorityQueue Q κ Nat] {q : Query κ} {most : κ} {f f' : Frontier Q κ}
  {st st' : State Q κ} {i i' : Nat} {d d' : Discovery κ} {c : Int}

/-! One search. -/

/-- A way that is found has the cost of a walk to a goal, within the budget. -/
theorem Ends.mem_goalWeights {v : View κ} {run : Run κ} (h : Ends q v run)
    (ht : v.Tracked q.graph q.start) (hg : q.graph.DistinctKeys q.start) {r : Route κ}
    (hr : run.outcome = .ok (some r)) :
    value r.cost ∈ q.graph.goalWeights q.start ∧ Affordable q.limits.maxCost (value r.cost) := by
  cases h with
  | exhausted => exact nomatch hr
  | stopped => exact nomatch hr
  | broken => exact nomatch hr
  | arrived htakes _ ha hgoal =>
    rw [← Option.some.inj (Except.ok.inj hr)]
    exact ⟨⟨_, hgoal, ht.routed.walk ht.indexed hg htakes.entry_eq⟩, ha⟩

section

variable [PriorityQueue.Lawful Q]

/-- The search is on its way and in order. -/
def State.Underway (q : Query κ) (st : State Q κ) : Prop :=
  ∃ v : View κ, v.Tracked q.graph q.start ∧ v.InOrder q.graph q.limits.maxCost q.guess ∧ st.At q v

theorem State.Underway.step [DecidableLE κ] (h : st.Underway q) (hg : q.graph.DistinctKeys q.start)
    (hcons : q.graph.Consistent q.guess) {st₁ : State Q κ} (hstep : step q st = .going st₁) :
    st₁.Underway q := by
  obtain ⟨v, ht, horder, hat⟩ := h
  rcases step_cases_view q ht hat with ⟨run, hended, -⟩ | ⟨st₂, v₂, hgoing, hm, hat₂⟩
  · exact nomatch hstep.symm.trans hended
  · obtain rfl : st₁ = st₂ := Progress.going.inj (hstep.symm.trans hgoing)
    exact ⟨v₂, hm.tracked ht, hm.inOrder (.of_distinctKeys hg _) hcons horder, hat₂⟩

/-- While a goal is to come, the queue is not empty, and what comes out is no dearer than the goal. -/
theorem State.Underway.exists_pop (h : st.Underway q) (hq : q.Unbudgeted)
    (hc : c ∈ q.graph.goalWeights q.start) :
    ∃ top, PriorityQueue.pop st.frontier.queue = .ok (some top) ∧ value top.priority ≤ c := by
  obtain ⟨v, ht, horder, hat⟩ := h
  have ha : Affordable q.limits.maxCost c := by
    rw [hq.maxCost]
    exact nofun
  obtain ⟨x, hx, hle⟩ := horder.exists_queued_le (q := q.unhurried) hq.regular ht hat.unmet hc ha
  have hf : st.frontier.Sound q.graph q.start v.queued := ⟨hat.table_eq ▸ ht.indexed, hat.holds⟩
  rcases hf.pop_cases with ⟨hM, -⟩ | ⟨top, M', hpop, -, hleast, -⟩
  · rw [hM] at hx
    exact absurd hx (Multiset.notMem_zero x)
  · exact ⟨top, hpop, Int.le_trans (hleast x hx) hle⟩

theorem run_mem_goalWeights [DecidableLE κ] (hg : q.graph.DistinctKeys q.start) {r : Route κ}
    (hr : (run Q q).outcome = .ok (some r)) :
    value r.cost ∈ q.graph.goalWeights q.start ∧ Affordable q.limits.maxCost (value r.cost) := by
  obtain ⟨v, ht, -, -, hends⟩ := exists_ends Q q (fun _ => True) trivial fun _ _ _ => trivial
  exact hends.mem_goalWeights ht hg hr

end

variable [PriorityQueue.Coupled Q]

/-! Visits. -/

/-- What a visit without a budget comes to, and what one within the budget does. -/
inductive KeepsPace (q : Query κ) (most : κ) : Result (Visit Q κ) → Result (Visit Q κ) → Prop
  | broken {why : Failure} {y : Result (Visit Q κ)} : KeepsPace q most (.error why) y
  | onward {f f' : Frontier Q κ} :
    f.Trims q.graph q.start most f' → KeepsPace q most (.ok (.onward f)) (.ok (.onward f'))
  | arrived {r : Route κ} : KeepsPace q most (.ok (.arrived r)) (.ok (.arrived r))

variable [DecidableLE κ]

theorem Frontier.Trims.expand (hq : q.Unbudgeted) (h : f.Trims q.graph q.start most f')
    (hsame : SameNode f.table f'.table i i') (node : Nat) (base : κ) :
    KeepsPace q most (.onward <$> f.expand q.graph q.limits.maxCost (rank q) node i base)
      (.onward <$> f'.expand q.graph (some most) (rank q) node i' base) := by
  rw [hq.maxCost]
  cases hexpand : f.expand q.graph none (rank q) node i base with
  | error why => exact .broken
  | ok f₁ =>
    obtain ⟨f₁', hexpand', htrims⟩ := h.foldlM_follow hq.regular.distinct (fun _ _ => rfl)
      (fun _ _ _ hp => hq.le_rank hp) (fun e he => (Graph.mem_leaving.mp he).1) hsame hexpand
    rw [Frontier.expand, hexpand', Result.map_ok]
    exact .onward htrims

theorem Frontier.Trims.visit (hq : q.Unbudgeted) (h : f.Trims q.graph q.start most f')
    (hsame : SameNode f.table f'.table i i')
    (hroute : ∀ d', f'.table.entries[i']? = some d' → d'.closed = false →
      ∀ t₁', f'.table.SetAt i' { d' with closed := true } t₁' → ∃ path, t₁'.pathTo i' = .ok path) :
    KeepsPace q most (visit q f i) (visit (q.within most) f' i') := by
  obtain ⟨d, d', hd, hd', hnode⟩ := hsame
  have hlike := h.table.alike h.left hd hd' hnode
  have hle : value d'.cost ≤ value most := (h.table.exists_left i' d' hd').1
  have hwithin : Cost.within q.limits.maxCost d.cost = true := by
    rw [hq.maxCost]
    rfl
  have hwithin' : Cost.within (q.within most).limits.maxCost d.cost = true :=
    Cost.within_iff.mpr (affordable_some.mpr (hlike.cost_eq ▸ hle))
  rcases Table.close_cases hd with ⟨hc, hclose⟩ | ⟨hc, t₁, hclose, hset, hindex⟩ <;>
  rcases Table.close_cases hd' with ⟨hc', hclose'⟩ | ⟨hc', t₁', hclose', hset', hindex'⟩
  · simp only [Search.visit, hclose, hclose', Result.ok_bind]
    exact .onward h
  · rw [hlike.closed_eq, hc'] at hc
    cases hc
  · rw [hlike.closed_eq, hc'] at hc
    cases hc
  have hclosed := h.close hd hd' hnode hset hset' hindex hindex'
  have hsame₁ : SameNode t₁ t₁' i i' := ⟨_, _, hset.self, hset'.self, hnode⟩
  obtain ⟨path', hpath'⟩ := hroute d' hd' hc' t₁' hset'
  simp only [Search.visit, hclose, hclose', Result.ok_bind, hwithin, hwithin', Bool.not_true,
    Bool.false_eq_true, if_false, ← hnode, ← hlike.cost_eq, hpath']
  cases hgoal : q.graph.isGoal d.node with
  | true =>
    have hgoal' : (q.within most).graph.isGoal d.node = true := hgoal
    simp only [hgoal', if_true]
    cases hpath : t₁.pathTo i with
    | error why => exact .broken
    | ok path =>
      obtain rfl : path = path' := hclosed.table.ancestors_eq hclosed.left hsame₁ hpath hpath'
      exact .arrived
  | false =>
    have hgoal' : (q.within most).graph.isGoal d.node = false := hgoal
    simp only [hgoal', Bool.false_eq_true, if_false]
    exact hclosed.expand hq hsame₁ d.node d.cost

/-! Steps. -/

variable [PriorityQueue.Lawful Q]

/-- The search without a budget and the search within the budget are on their way, next to each other. -/
structure Paced (q : Query κ) (most : κ) (st st' : State Q κ) : Prop where
  left : st.Underway q
  right : st'.Underway (q.within most)
  trims : st.frontier.Trims q.graph q.start most st'.frontier
  pops_eq : st'.pops = st.pops

/-- While a goal within the budget is to come, a step without a budget breaks off, or the step within the
    budget comes to the same. -/
theorem Paced.step (h : Paced q most st st') (hq : q.Unbudgeted)
    (hc : c ∈ q.graph.goalWeights q.start) (hle : c ≤ value most) :
    (∃ run why, step q st = .ended run ∧ run.outcome = .error why) ∨
    (∃ run run', step q st = .ended run ∧ step (q.within most) st' = .ended run' ∧
      run'.outcome = run.outcome) ∨
    ∃ st₁ st₁', step q st = .going st₁ ∧ step (q.within most) st' = .going st₁' ∧
      Paced q most st₁ st₁' := by
  obtain ⟨top, hpop, htop⟩ := h.left.exists_pop hq hc
  have htop_le : top.priority ≤ most := (Cost.le_iff_value_le _ _).mpr (Int.le_trans htop hle)
  obtain ⟨top', hpop', -, hsame, hcouples⟩ := PriorityQueue.Coupled.pop h.trims.queue hpop htop_le
  have hreached' : (q.within most).limits.reached st'.pops = q.limits.reached st.pops := by
    rw [h.pops_eq]
    rfl
  cases hreached : q.limits.reached st.pops with
  | true =>
    exact Or.inr (Or.inl ⟨_, _, (Proceeds.stopped hpop hreached).step_eq,
      (Proceeds.stopped hpop' (hreached'.trans hreached)).step_eq, rfl⟩)
  | false =>
    have htrims : (⟨st.frontier.table, top.rest⟩ : Frontier Q κ).Trims q.graph q.start most
        ⟨st'.frontier.table, top'.rest⟩ := ⟨h.trims.table, h.trims.left, h.trims.right, hcouples⟩
    obtain ⟨v', ht', -, hat'⟩ := h.right
    have hpace := htrims.visit hq hsame fun d' hd' hopen t₁' hset' => by
      have hrouted : Routed q.graph q.start st'.frontier.table v'.closed := hat'.table_eq ▸ ht'.routed
      obtain ⟨path, hpath, -⟩ := (hrouted.close hd' hopen hset').exists_pathTo List.mem_cons_self
      exact ⟨path, hpath⟩
    have hstep := (Proceeds.visited hpop hreached).step_eq
    have hstep' := (Proceeds.visited hpop' (hreached'.trans hreached)).step_eq
    generalize visit q (⟨st.frontier.table, top.rest⟩ : Frontier Q κ) top.value = x at hpace hstep
    generalize visit (q.within most) (⟨st'.frontier.table, top'.rest⟩ : Frontier Q κ) top'.value = x'
      at hpace hstep'
    cases hpace with
    | broken => exact Or.inl ⟨_, _, hstep, rfl⟩
    | arrived => exact Or.inr (Or.inl ⟨_, _, hstep, hstep', rfl⟩)
    | onward htrims₁ =>
      have hleft := h.left.step hq.regular.distinct hq.regular.consistent hstep
      have hright := h.right.step hq.regular.distinct hq.regular.consistent hstep'
      exact Or.inr (Or.inr ⟨_, _, hstep, hstep', hleft, hright, htrims₁, congrArg (· + 1) h.pops_eq⟩)

/-- While a goal within the budget is to come, a search without a budget breaks off, or the search within
    the budget comes to the same. -/
theorem Paced.runFor (h : Paced q most st st') (hq : q.Unbudgeted)
    (hc : c ∈ q.graph.goalWeights q.start) (hle : c ≤ value most) (n : Nat) :
    (∃ why, (runFor q n st).outcome = .error why) ∨
    (runFor (q.within most) n st').outcome = (runFor q n st).outcome := by
  induction n generalizing st st' with
  | zero => exact Or.inl ⟨_, rfl⟩
  | succ n ih =>
    rw [Search.runFor, Search.runFor]
    rcases h.step hq hc hle with ⟨run, why, hstep, hwhy⟩ | ⟨run, run', hstep, hstep', hout⟩ |
      ⟨st₁, st₁', hstep, hstep', h₁⟩
    · rw [hstep]
      exact Or.inl ⟨why, hwhy⟩
    · rw [hstep, hstep']
      exact Or.inr hout
    · rw [hstep, hstep']
      exact ih h₁

/-! Searches. -/

omit [DecidableLE κ] in
theorem exists_paced (Q : Type) [PriorityQueue Q κ Nat] [PriorityQueue.Coupled Q]
    [PriorityQueue.Lawful Q] (q : Query κ) (h0 : 0 ≤ value most) :
    ∃ f : Frontier Q κ, Frontier.start q.graph q.start (q.estimate q.start) = .ok f ∧
      Paced q most ⟨f, 0, []⟩ ⟨f, 0, []⟩ := by
  obtain ⟨⟨table, queue⟩, hf, hsound, htable⟩ :=
    Frontier.exists_start (Q := Q) q.graph q.start (q.estimate q.start)
  cases htable
  refine ⟨_, hf, ?_, ?_, .start h0 hsound hf, rfl⟩
  · exact ⟨_, .start _ _ _, .start _ _ rfl, rfl, rfl, hsound.holds, fun _ hx => nomatch hx⟩
  · exact ⟨_, .start _ _ _, .start _ _ rfl, rfl, rfl, hsound.holds, fun _ hx => nomatch hx⟩

/-- A goal within the budget is enough for both searches to come to the same, unless the one without a
    budget breaks off. -/
theorem run_within (hq : q.Unbudgeted) (hc : c ∈ q.graph.goalWeights q.start) (h0 : 0 ≤ value most)
    (hle : c ≤ value most) :
    (∃ why, (run Q q).outcome = .error why) ∨ (run Q (q.within most)).outcome = (run Q q).outcome := by
  obtain ⟨f, hf, hpaced⟩ := exists_paced Q q h0
  have hf' : Frontier.start (q.within most).graph (q.within most).start
      ((q.within most).estimate (q.within most).start) = .ok f := hf
  rw [run, run, hf, hf']
  exact hpaced.runFor hq hc hle (stepBound q.graph)

/-- On queues of type `Q` the budget only filters what the search finds. -/
structure Filters (Q : Type) [PriorityQueue Q κ Nat] (q : Query κ) (most : κ) : Prop where
  /-- What is found without a budget and is within it is found with it, the same way at the same cost. -/
  found : ∀ route, (run Q q).outcome = .ok (some route) → route.cost ≤ most →
    (run Q (q.within most)).outcome = .ok (some route)
  /-- Unless one of them breaks off, the search with the budget finds what the search without it finds
      within the budget, and nothing else. -/
  filtered : ∀ full limited, (run Q q).outcome = .ok full →
    (run Q (q.within most)).outcome = .ok limited → limited = full.filter fun r => r.cost ≤ most

theorem run_filters (hq : q.Unbudgeted) (h0 : 0 ≤ value most) : Filters Q q most := by
  have hg : q.graph.DistinctKeys q.start := hq.regular.distinct
  have hfound : ∀ route, (run Q q).outcome = .ok (some route) → route.cost ≤ most →
      (run Q (q.within most)).outcome = .ok (some route) := by
    intro route hroute hle
    have hgoal := (run_mem_goalWeights (Q := Q) hg hroute).1
    rcases run_within (Q := Q) hq hgoal h0 ((Cost.le_iff_value_le _ _).mp hle) with ⟨why, hwhy⟩ | hsame
    · exact nomatch hwhy.symm.trans hroute
    · exact hsame.trans hroute
  refine ⟨hfound, ?_⟩
  intro full limited hfull hlimited
  cases limited with
  | some route =>
    obtain ⟨hgoal, ha⟩ := run_mem_goalWeights (Q := Q) (q := q.within most) hg hlimited
    have hle : value route.cost ≤ value most := affordable_some.mp ha
    rcases run_within (Q := Q) hq hgoal h0 hle with ⟨why, hwhy⟩ | hsame
    · exact nomatch hwhy.symm.trans hfull
    · rw [hlimited, hfull] at hsame
      rw [← Except.ok.inj hsame, Option.filter_some,
        if_pos (decide_eq_true ((Cost.le_iff_value_le _ _).mpr hle))]
  | none =>
    cases full with
    | none => rfl
    | some route =>
      rw [Option.filter_some, if_neg]
      intro hle
      exact nomatch hlimited.symm.trans (hfound route hfull (of_decide_eq_true hle))

/-- A budget only filters what a search finds, by cost alone or by cost and estimate, on either queue,
    also where the number of pops is bounded. -/
theorem maxCost_filters {w : Nat} {S : Type → Type} [Storage S] (hw : w ≤ 128) (g : Graph (BitVec w))
    (s : Nat) (most : BitVec w) (pops : Option Nat) (hkeys : g.DistinctKeys s) :
    (Filters (Radix w Nat S) (.dijkstra g s ⟨none, pops⟩) most ∧
      Filters (Stable (BitVec w) Nat) (.dijkstra g s ⟨none, pops⟩) most) ∧
    ∀ estimate : Nat → BitVec w, (g.Consistent fun n => value (estimate n)) →
      (∀ b, g.isGoal b = true → value (estimate b) = 0) →
      Filters (Radix w Nat S) (.astar g estimate s ⟨none, pops⟩) most ∧
      Filters (Stable (BitVec w) Nat) (.astar g estimate s ⟨none, pops⟩) most := by
  have : PriorityQueue.Lawful (Radix w Nat S) := Radix.lawful hw
  have : PriorityQueue.Coupled (Radix w Nat S) := Radix.coupled hw
  have h0 : 0 ≤ value most := Cost.value_nonneg most
  constructor
  · have hq : (Query.dijkstra g s ⟨none, pops⟩).Unbudgeted :=
      ⟨rfl, .dijkstra none hkeys g.nonNegative_words, fun _ => Cost.value_nonneg _⟩
    exact ⟨run_filters hq h0, run_filters hq h0⟩
  · intro estimate hconsistent hgoal
    have hq : (Query.astar g estimate s ⟨none, pops⟩).Unbudgeted :=
      ⟨rfl, ⟨rfl, hkeys, g.nonNegative_words, hconsistent, hgoal⟩, fun _ => Cost.value_nonneg _⟩
    exact ⟨run_filters hq h0, run_filters hq h0⟩

/-- Two ways cost the same, and node 4, which is discovered first, is over the budget. -/
theorem maxCost_filters_ties :
    let g : Graph (BitVec 8) :=
      .ofLists [⟨0, 4, 9⟩, ⟨0, 1, 2⟩, ⟨0, 2, 2⟩, ⟨1, 3, 1⟩, ⟨2, 3, 1⟩, ⟨4, 3, 1⟩] [3] #[]
    let q : Query (BitVec 8) := .astar g (Graph.estimates #[3, 1, 1]) 0 ⟨none, some 9⟩
    (run (Radix 8 Nat) (.dijkstra g 0 {})).outcome = .ok (some ⟨[0, 2, 3], 3⟩) ∧
    (run (Radix 8 Nat) (.dijkstra g 0 ⟨some 3, none⟩)).outcome = .ok (some ⟨[0, 2, 3], 3⟩) ∧
    (run (Radix 8 Nat) (.dijkstra g 0 ⟨some 2, none⟩)).outcome = .ok none ∧
    Filters (Radix 8 Nat) (.dijkstra g 0 {}) 3 ∧ Filters (Radix 8 Nat) q 3 ∧
    Filters (Stable (BitVec 8) Nat) q 3 := by
  refine ⟨by rfl, by rfl, by rfl, (maxCost_filters (by decide) _ _ _ none ?_).1.1,
    (maxCost_filters (by decide) _ _ _ _ ?_).2 _ ?_ ?_⟩
  · unfold Graph.DistinctKeys
    decide
  · unfold Graph.DistinctKeys
    decide
  · unfold Graph.Consistent
    decide
  · intro b hb
    obtain rfl : b = 3 := by simpa [Graph.ofLists] using hb
    rfl

end Search
end MonotoneQueue

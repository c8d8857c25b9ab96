import Mathlib
import MonotoneQueue.Proofs.Radix.Lawful
import MonotoneQueue.Proofs.Search.Ends
import MonotoneQueue.Proofs.Search.Orderly
import MonotoneQueue.Proofs.Stable.Merge

/- Searches without a bound on pops, on graphs where no two nodes are equal. With weights that are
   not negative and estimates that are consistent and zero at the goals, a search answers exactly:
   with a cheapest way to a goal, or with none if the budget has no way to one. It breaks off only
   where a way within the budget goes on at a sum that the type of costs does not have. -/
namespace MonotoneQueue

variable {κ : Type} [LE κ] [Cost κ]

/-- The search has no bound on pops, no two of its nodes are equal, no weight is negative, and its
    estimates are consistent and zero at the goals. -/
structure Query.Regular (q : Query κ) : Prop where
  maxPops : q.limits.maxPops = none
  distinct : q.graph.DistinctKeys q.start
  nonNegative : q.graph.NonNegative
  consistent : q.graph.Consistent q.guess
  goal : ∀ b, q.graph.isGoal b = true → q.guess b = 0

theorem Query.Regular.dijkstra {g : Graph κ} {s : Nat} (budget : Option κ) (hg : g.DistinctKeys s)
    (hpos : g.NonNegative) : (Query.dijkstra g s ⟨budget, none⟩).Regular := by
  have hzero := Query.guess_dijkstra g s ⟨budget, none⟩
  constructor
  case maxPops => rfl
  case distinct => exact hg
  case nonNegative => exact hpos
  case consistent =>
    rw [hzero]
    exact hpos.consistent
  case goal =>
    intro b _
    rw [hzero]

namespace Search

open Cost (value)

/-- A search answers exactly: with a way of least weight to a goal, if there is one within the
    budget, and with none just if no walk within the budget leads to a goal. -/
structure Exact (g : Graph κ) (s : Nat) (budget : Option κ) (outcome : Result (Option (Route κ))) :
    Prop where
  found : ∀ c, IsLeast (g.goalWeights s) c → Affordable budget c →
    ∃ route, outcome = .ok (some route) ∧ value route.cost = c
  least : ∀ route, outcome = .ok (some route) →
    IsLeast (g.goalWeights s) (value route.cost) ∧ Affordable budget (value route.cost)
  none_iff : outcome = .ok none ↔ ∀ c ∈ g.goalWeights s, ¬ Affordable budget c

namespace Exact

variable {g : Graph κ} {s : Nat} {budget : Option κ}

theorem of_none (h : ∀ c ∈ g.goalWeights s, ¬ Affordable budget c) :
    Exact g s budget (.ok none) := by
  refine ⟨fun c hc ha => absurd ha (h c hc.1), fun _ => nofun, fun _ => h, fun _ => rfl⟩

theorem of_route {route : Route κ} (h : IsLeast (g.goalWeights s) (value route.cost))
    (ha : Affordable budget (value route.cost)) : Exact g s budget (.ok (some route)) := by
  constructor
  case found => exact fun c hc _ => ⟨route, rfl, h.unique hc⟩
  case least =>
    intro r hr
    rw [Except.ok.injEq, Option.some.injEq] at hr
    rw [← hr]
    exact ⟨h, ha⟩
  case none_iff => exact ⟨nofun, fun hnone => absurd ha (hnone _ h.1)⟩

end Exact

/-- Some way within the budget goes on along an edge with a cost or a rank that the type does not
    have. -/
def SumOverflows (q : Query κ) : Prop :=
  ∃ n c, q.graph.Walk q.start n c ∧ Affordable q.limits.maxCost c ∧
    ∃ e ∈ q.graph.leaving n, Overflows q.limits.maxCost q.guess c e

/-- The search broke off since a sum overflowed, or it answers exactly. -/
def Run.Correct (q : Query κ) (run : Run κ) : Prop :=
  (run.outcome = .error .costOverflow ∧ SumOverflows q) ∨
    Exact q.graph q.start q.limits.maxCost run.outcome

/-! Goals on the way. -/

variable {q : Query κ} {v : View κ}

/-- A goal within the budget is no cheaper than what comes out of the queue next. -/
theorem View.InOrder.exists_queued_le (h : v.InOrder q.graph q.limits.maxCost q.guess)
    (hq : q.Regular) (ht : v.Tracked q.graph q.start) (hu : v.Unmet q) {c : Int}
    (hc : c ∈ q.graph.goalWeights q.start) (ha : Affordable q.limits.maxCost c) :
    ∃ x ∈ v.queued, value x.1 ≤ c := by
  obtain ⟨b, hgoal, hw⟩ := hc
  rcases h.met ht hq.distinct hq.nonNegative hq.consistent hw ha with
    ⟨x, hx, rfl, hle⟩ | ⟨x, hx, hle⟩
  · exact absurd (ha.mono hle) (hu x hx hgoal)
  · rw [hq.goal b hgoal, add_zero] at hle
    exact ⟨x, hx, hle⟩

/-- A goal that comes out of the queue within the budget has the least cost. -/
theorem View.InOrder.isLeast {p : κ} {i : Nat} {d : Discovery κ} {M : Multiset (κ × Nat)}
    (h : v.InOrder q.graph q.limits.maxCost q.guess) (hq : q.Regular)
    (ht : v.Tracked q.graph q.start) (hu : v.Unmet q) (htakes : v.Takes p i d M)
    (hopen : d.closed = false) (hgoal : q.graph.isGoal d.node = true)
    (ha : Affordable q.limits.maxCost (value d.cost)) :
    IsLeast (q.graph.goalWeights q.start) (value d.cost) := by
  have htotal := htakes.eq_total h.pending hopen
  rw [Discovery.total, hq.goal d.node hgoal, add_zero] at htotal
  refine ⟨⟨d.node, hgoal, ht.routed.walk ht.indexed hq.distinct htakes.entry_eq⟩, ?_⟩
  intro c hc
  by_contra hlt
  obtain ⟨x, hx, hle⟩ := h.exists_queued_le hq ht hu hc (ha.mono (by omega))
  apply hlt
  calc value d.cost = value p := htotal.symm
    _ ≤ value x.1 := htakes.least x hx
    _ ≤ c := hle

theorem Ends.correct {run : Run κ} (h : Ends q v run) (hq : q.Regular)
    (ht : v.Tracked q.graph q.start) (hu : v.Unmet q)
    (horder : v.InOrder q.graph q.limits.maxCost q.guess) : run.Correct q := by
  cases h with
  | exhausted hM =>
    refine Or.inr (.of_none ?_)
    intro c hc ha
    obtain ⟨x, hx, -⟩ := horder.exists_queued_le hq ht hu hc ha
    rw [hM] at hx
    exact Multiset.notMem_zero x hx
  | stopped _ hreached =>
    rw [Limits.reached, hq.maxPops] at hreached
    exact nomatch hreached
  | arrived htakes hc ha hgoal =>
    -- everything that is cheaper would have come out before
    exact Or.inr (.of_route (horder.isLeast hq ht hu htakes hc hgoal ha) ha)
  | broken htakes hc ha he hbreaks =>
    obtain ⟨rfl, hover⟩ := htakes.overflows horder.pending hc hq.consistent he hbreaks
    have hw := ht.routed.walk ht.indexed hq.distinct htakes.entry_eq
    exact Or.inl ⟨rfl, _, _, hw, ha, _, he, hover⟩

variable {Q : Type} [PriorityQueue Q κ Nat] [PriorityQueue.Lawful Q] [DecidableLE κ]

theorem run_correct (hq : q.Regular) : (run Q q).Correct q := by
  have hH : Respects q.graph q.start q.guess := .of_distinctKeys hq.distinct _
  obtain ⟨v, ht, hu, horder, hends⟩ := exists_ends Q q
    (fun v => v.InOrder q.graph q.limits.maxCost q.guess) (.start _ _ rfl)
    (fun _ h hm => hm.inOrder hH hq.consistent h)
  exact hends.correct hq ht hu horder

/-- On queues of type `Q` the search breaks off only at a sum that overflows, and otherwise answers
    exactly. -/
def Answers (Q : Type) [PriorityQueue Q κ Nat] (q : Query κ) : Prop := (run Q q).Correct q

/-- A search by cost alone answers exactly, on either queue. -/
theorem dijkstra_exact :
    (∀ {w : Nat} {S : Type → Type} [Storage S], w ≤ 128 →
      ∀ (g : Graph (BitVec w)) (s : Nat) (budget : Option (BitVec w)), g.DistinctKeys s →
      Answers (Radix w Nat S) (.dijkstra g s ⟨budget, none⟩) ∧
      Answers (Stable (BitVec w) Nat) (.dijkstra g s ⟨budget, none⟩)) ∧
    ∀ (g : Graph Int64) (s : Nat) (budget : Option Int64), g.DistinctKeys s → g.NonNegative →
      Answers (Stable Int64 Nat) (.dijkstra g s ⟨budget, none⟩) := by
  constructor
  · intro w S _ hw g s budget hkeys
    have hq : (Query.dijkstra g s ⟨budget, none⟩).Regular :=
      .dijkstra budget hkeys g.nonNegative_words
    have : PriorityQueue.Lawful (Radix w Nat S) := Radix.lawful hw
    exact ⟨run_correct hq, run_correct hq⟩
  · intro g s budget hkeys hpos
    exact run_correct (.dijkstra budget hkeys hpos)

/-- Over words with a budget that leaves the detour only, and over signed words of 64 bits with one
    that leaves nothing. -/
theorem dijkstra_exact_detour :
    let g : Graph (BitVec 8) := .ofLists [⟨0, 1, 5⟩, ⟨1, 2, 1⟩, ⟨0, 2, 7⟩] [2] #[]
    let signed : Graph Int64 := .ofLists [⟨0, 1, 5⟩, ⟨1, 0, 0⟩] [1] #[3, 4]
    (run (Radix 8 Nat) (.dijkstra g 0 ⟨some 6, none⟩)).outcome = .ok (some ⟨[0, 1, 2], 6⟩) ∧
    Answers (Radix 8 Nat) (.dijkstra g 0 ⟨some 6, none⟩) ∧
    Answers (Stable Int64 Nat) (.dijkstra signed 0 ⟨some 4, none⟩) := by
  refine ⟨by rfl, (dijkstra_exact.1 (by decide) _ _ _ ?_).1, dijkstra_exact.2 _ _ _ ?_ ?_⟩
  · unfold Graph.DistinctKeys
    decide
  · unfold Graph.DistinctKeys
    decide
  · unfold Graph.NonNegative
    decide

/-- A search by cost and estimate answers exactly, on either queue, if the estimates are consistent
    and zero at the goals. -/
theorem astar_exact {w : Nat} {S : Type → Type} [Storage S] (hw : w ≤ 128) (g : Graph (BitVec w))
    (estimate : Nat → BitVec w) (s : Nat) (budget : Option (BitVec w)) (hkeys : g.DistinctKeys s)
    (hconsistent : g.Consistent fun n => value (estimate n))
    (hgoal : ∀ b, g.isGoal b = true → value (estimate b) = 0) :
    Answers (Radix w Nat S) (.astar g estimate s ⟨budget, none⟩) ∧
    Answers (Stable (BitVec w) Nat) (.astar g estimate s ⟨budget, none⟩) := by
  have hq : (Query.astar g estimate s ⟨budget, none⟩).Regular :=
    ⟨rfl, hkeys, g.nonNegative_words, hconsistent, hgoal⟩
  have : PriorityQueue.Lawful (Radix w Nat S) := Radix.lawful hw
  exact ⟨run_correct hq, run_correct hq⟩

theorem astar_exact_detour :
    let g : Graph (BitVec 8) := .ofLists [⟨0, 1, 5⟩, ⟨1, 2, 1⟩, ⟨0, 2, 7⟩] [2] #[]
    let q : Query (BitVec 8) := .astar g (Graph.estimates #[6, 1]) 0 ⟨none, none⟩
    (run (Radix 8 Nat) q).outcome = .ok (some ⟨[0, 1, 2], 6⟩) ∧
    Answers (Radix 8 Nat) q ∧ Answers (Stable (BitVec 8) Nat) q := by
  refine ⟨by rfl, astar_exact (by decide) _ _ 0 none ?_ ?_ ?_⟩
  · unfold Graph.DistinctKeys
    decide
  · unfold Graph.Consistent
    decide
  · intro b hb
    obtain rfl : b = 2 := by simpa [Graph.ofLists] using hb
    rfl

end Search
end MonotoneQueue

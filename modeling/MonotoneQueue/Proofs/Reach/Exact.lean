import Mathlib
import MonotoneQueue.Proofs.Radix.Lawful
import MonotoneQueue.Proofs.Reach.Ends
import MonotoneQueue.Proofs.Search.Orderly
import MonotoneQueue.Proofs.Stable.Merge

/- The search for all nodes within a budget, on graphs where no two nodes are equal and no weight is
   negative. What it reports are the nodes whose least weight is within the budget, each of them once
   and with that weight, the start first and none before a cheaper one. It breaks off only where a way
   within the budget goes on at a sum that the type of costs does not have. -/
namespace MonotoneQueue

open Cost (value)

variable {κ : Type} [LE κ] [Cost κ]

namespace Search

variable {g : Graph κ} {s : Nat} {budget : Option κ} {H : Nat → Int} {v v' : View κ}

/-- No entry was closed before a cheaper one. -/
def View.Ascending (v : View κ) : Prop :=
  v.closed.Pairwise fun later earlier => value earlier.2.cost ≤ value later.2.cost

/-- Without estimates what comes out next is never cheaper than what is closed. -/
theorem Move.ascending (ht : v.Tracked g s) (horder : v.InOrder g budget fun _ => 0)
    (h : v.Ascending) (hm : Move g s budget (fun _ => 0) v v') : v'.Ascending := by
  cases hm with
  | pass => exact h
  | @visit p i d M M' es t₁ t' htakes hc hset hes hexp =>
    obtain ⟨low, hrising⟩ := horder.rising
    refine List.Pairwise.cons ?_ h
    intro x hx
    obtain ⟨hentry, hclosed⟩ := (ht.routed.mem_done x.1 x.2).mp hx
    have hmem : (p, i) ∈ v.queued := by
      rw [htakes.queued_eq]
      exact Multiset.mem_cons_self _ _
    have hle : x.2.total (fun _ => 0) ≤ d.total fun _ => 0 :=
      calc x.2.total (fun _ => 0) ≤ low := hrising.closed_le x.1 x.2 hentry hclosed
        _ ≤ value p := hrising.le_queued (p, i) hmem
        _ = d.total fun _ => 0 := htakes.eq_total horder.pending hc
    simpa only [Discovery.total, add_zero] using hle

end Search

namespace Reach

open Search (View Move Discovery Overflows Traced Respects)

/-- Every node whose least weight is within the budget is there once, with that weight, and no other
    node is. The start comes first, and none before a cheaper one. -/
structure Exact (g : Graph κ) (s : Nat) (most : κ) (found : List (Nat × κ)) : Prop where
  mem_iff : ∀ (n : Nat) (c : Int), (n, c) ∈ found.map (fun x => (x.1, value x.2)) ↔
    IsLeast (g.weights s n) c ∧ c ≤ value most
  nodup : (found.map Prod.fst).Nodup
  head : found.head? = some (s, Cost.zero)
  sorted : found.Pairwise fun x y => x.2 ≤ y.2

/-- Some way within the budget goes on along an edge with a cost that the type does not have. -/
def SumOverflows (q : Query κ) : Prop :=
  ∃ n c, q.graph.Walk q.start n c ∧ c ≤ value q.maxCost ∧
    ∃ e ∈ q.graph.leaving n, ∀ x : κ, value x ≠ c + value e.weight

/-- The search broke off since a sum overflowed, or what it reports is exact. -/
def Run.Correct (q : Query κ) (run : Run κ) : Prop :=
  (run.outcome = .error .costOverflow ∧ SumOverflows q) ∨
    ∃ found, run.outcome = .ok found ∧ Exact q.graph q.start q.maxCost found

/-- No two nodes are equal, no weight is negative, and the budget allows to stay at the start. -/
structure Query.Regular (q : Query κ) : Prop where
  distinct : q.graph.DistinctKeys q.start
  nonNegative : q.graph.NonNegative
  budget : 0 ≤ value q.maxCost

/-- The table and the queue are in order, every entry is within the budget, and none was closed before
    a cheaper one. -/
structure Gathers (q : Query κ) (v : View κ) : Prop where
  order : v.InOrder q.graph (some q.maxCost) fun _ => 0
  within : v.Within (some q.maxCost)
  ascending : v.Ascending

variable {q : Query κ} {v v' : View κ}

theorem Gathers.start (hq : q.Regular) : Gathers q (.start q.graph q.start Cost.zero) := by
  constructor
  case order => exact .start _ _ Cost.value_zero
  case within =>
    apply View.Within.start
    exact affordable_some.mpr hq.budget
  case ascending => exact List.Pairwise.nil

theorem Gathers.move (hq : q.Regular) (ht : v.Tracked q.graph q.start) (h : Gathers q v)
    (hm : Move q.graph q.start (some q.maxCost) (fun _ => 0) v v') : Gathers q v' :=
  ⟨hm.inOrder (.zero _ _) hq.nonNegative.consistent h.order, hm.within h.within,
    hm.ascending ht h.order h.ascending⟩

/-! With nothing left in the queue. -/

theorem traced_getLast {g : Graph κ} {s : Nat} {done : List (Nat × Discovery κ)}
    (h : Traced g s done) : ∀ x ∈ done.getLast?, x.1 = 0 ∧ x.2.node = s ∧ value x.2.cost = 0 := by
  induction done with
  | nil => exact nofun
  | cons y before ih =>
    cases before with
    | nil =>
      intro x hx
      obtain rfl : y = x := Option.some.inj hx
      rcases h.1 with ⟨hpos, hnode, -, hcost⟩ | ⟨_, hnone, -⟩
      · exact ⟨hpos, hnode, hcost⟩
      · exact nomatch hnone
    | cons z before =>
      rw [List.getLast?_cons_cons]
      exact ih h.2

namespace Gathers

theorem mem_found {n : Nat} {c : Int} :
    (n, c) ∈ v.found.map (fun x => (x.1, value x.2)) ↔
      ∃ x ∈ v.closed, x.2.node = n ∧ value x.2.cost = c := by
  simp [View.found]

theorem exists_closed_le (h : Gathers q v) (hq : q.Regular) (ht : v.Tracked q.graph q.start)
    (hM : v.queued = 0) {n : Nat} {c : Int} (hw : q.graph.Walk q.start n c)
    (hc : c ≤ value q.maxCost) : ∃ x ∈ v.closed, x.2.node = n ∧ value x.2.cost ≤ c :=
  h.order.exists_closed_le ht hq.distinct hq.nonNegative hq.nonNegative.consistent hM hw
    (affordable_some.mpr hc)

theorem isLeast (h : Gathers q v) (hq : q.Regular) (ht : v.Tracked q.graph q.start)
    (hM : v.queued = 0) {x : Nat × Discovery κ} (hx : x ∈ v.closed) :
    IsLeast (q.graph.weights q.start x.2.node) (value x.2.cost) :=
  h.order.isLeast_of_mem_closed h.within ht hq.distinct hq.nonNegative hq.nonNegative.consistent hM hx

theorem exact (h : Gathers q v) (hq : q.Regular) (ht : v.Tracked q.graph q.start)
    (hM : v.queued = 0) : Exact q.graph q.start q.maxCost v.found := by
  constructor
  case mem_iff =>
    intro n c
    rw [mem_found]
    constructor
    · rintro ⟨x, hx, rfl, rfl⟩
      obtain ⟨hentry, -⟩ := (ht.routed.mem_done x.1 x.2).mp hx
      exact ⟨h.isLeast hq ht hM hx, affordable_some.mp (h.within x.1 x.2 hentry)⟩
    · rintro ⟨hleast, hc⟩
      obtain ⟨x, hx, hnode, -⟩ := h.exists_closed_le hq ht hM hleast.1 hc
      have hleast' := h.isLeast hq ht hM hx
      rw [hnode] at hleast'
      exact ⟨x, hx, hnode, hleast'.unique hleast⟩
  case nodup =>
    rw [View.found, List.map_map, List.map_reverse]
    exact List.nodup_reverse.mpr (ht.routed.nodup_nodes ht.indexed)
  case head =>
    obtain ⟨x, hx, -⟩ := h.exists_closed_le hq ht hM .here hq.budget
    obtain ⟨first, hfirst⟩ : ∃ first, v.closed.getLast? = some first :=
      Option.isSome_iff_exists.mp (List.getLast?_isSome.mpr (List.ne_nil_of_mem hx))
    obtain ⟨-, hnode, hcost⟩ := traced_getLast ht.routed.traced first hfirst
    rw [← Cost.value_zero (κ := κ)] at hcost
    rw [View.found, List.head?_map, List.head?_reverse, hfirst, ← hnode,
      ← Cost.value_injective _ _ hcost]
    rfl
  case sorted =>
    rw [View.found, List.pairwise_map, List.pairwise_reverse]
    exact h.ascending.imp fun hle => (Cost.le_iff_value_le _ _).mpr hle

end Gathers

theorem Ends.correct {run : Run κ} (h : Ends q v run) (hq : q.Regular)
    (ht : v.Tracked q.graph q.start) (hg : Gathers q v) : run.Correct q := by
  cases h with
  | exhausted hM => exact Or.inr ⟨_, rfl, hg.exact hq ht hM⟩
  | @broken p i d M e why notices htakes hc he hbreaks =>
    obtain ⟨rfl, hover⟩ := htakes.overflows hg.order.pending hc hq.nonNegative.consistent he hbreaks
    have hw := ht.routed.walk ht.indexed hq.distinct htakes.entry_eq
    have hmost : value d.cost ≤ value q.maxCost :=
      affordable_some.mp (hg.within i d htakes.entry_eq)
    refine Or.inl ⟨rfl, d.node, value d.cost, hw, hmost, e, he, ?_⟩
    rcases hover with hnone | ⟨-, hnone⟩
    · exact hnone
    · simpa only [add_zero] using hnone

variable {Q : Type} [PriorityQueue Q κ Nat] [PriorityQueue.Lawful Q] [DecidableLE κ]

theorem run_correct (hq : q.Regular) : (run Q q).Correct q := by
  obtain ⟨v, ht, -, hg, hends⟩ := exists_ends Q q (Gathers q) (.start hq)
    (fun ht hg hm => hg.move hq ht hm)
  exact hends.correct hq ht hg

/-- On queues of type `Q` the search breaks off only at a sum that overflows, and otherwise reports
    exactly the nodes within the budget. -/
def Answers (Q : Type) [PriorityQueue Q κ Nat] (q : Query κ) : Prop := (run Q q).Correct q

/-- The search for all nodes within a budget is exact, on either queue. -/
theorem reach_exact :
    (∀ {w : Nat} {S : Type → Type} [Storage S], w ≤ 128 → ∀ (g : Graph (BitVec w)) (s : Nat) (most : BitVec w),
      g.DistinctKeys s →
      Answers (Radix w Nat S) ⟨g, s, most⟩ ∧ Answers (Stable (BitVec w) Nat) ⟨g, s, most⟩) ∧
    ∀ (g : Graph Int64) (s : Nat) (most : Int64), g.DistinctKeys s → g.NonNegative →
      0 ≤ most → Answers (Stable Int64 Nat) ⟨g, s, most⟩ := by
  constructor
  · intro w S _ hw g s most hkeys
    have hq : (⟨g, s, most⟩ : Query (BitVec w)).Regular :=
      ⟨hkeys, g.nonNegative_words, Cost.value_nonneg most⟩
    have : PriorityQueue.Lawful (Radix w Nat S) := Radix.lawful hw
    exact ⟨run_correct hq, run_correct hq⟩
  · intro g s most hkeys hpos hmost
    exact run_correct ⟨hkeys, hpos, (Cost.le_iff_value_le 0 most).mp hmost⟩

/-- Over words with a budget that leaves the detour only, and over signed words of 64 bits with one
    that leaves a node out. -/
theorem reach_exact_detour :
    let g : Graph (BitVec 8) := .ofLists [⟨0, 1, 5⟩, ⟨1, 2, 1⟩, ⟨0, 2, 7⟩] [] #[]
    let signed : Graph Int64 := .ofLists [⟨0, 1, 5⟩, ⟨1, 0, 0⟩, ⟨1, 2, 9⟩] [] #[3, 4]
    (run (Radix 8 Nat) ⟨g, 0, 6⟩).outcome = .ok [(0, 0), (1, 5), (2, 6)] ∧
    Answers (Radix 8 Nat) ⟨g, 0, 6⟩ ∧ Answers (Stable (BitVec 8) Nat) ⟨g, 0, 6⟩ ∧
    (run (Stable Int64 Nat) ⟨signed, 0, 13⟩).outcome = .ok [(0, 0), (1, 5)] ∧
    Answers (Stable Int64 Nat) ⟨signed, 0, 13⟩ := by
  have hwords := reach_exact.1 (S := Arena) (by decide : 8 ≤ 128)
    (.ofLists [⟨0, 1, 5⟩, ⟨1, 2, 1⟩, ⟨0, 2, 7⟩] [] #[]) 0 6 (by unfold Graph.DistinctKeys; decide)
  refine ⟨by rfl, hwords.1, hwords.2, by rfl, reach_exact.2 _ _ _ ?_ ?_ (by decide)⟩
  · unfold Graph.DistinctKeys
    decide
  · unfold Graph.NonNegative
    decide

end Reach
end MonotoneQueue

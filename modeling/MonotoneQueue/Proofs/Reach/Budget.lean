import Mathlib
import MonotoneQueue.Proofs.Reach.Exact

/- What the budget bounds. The start comes out first and is reported at no cost, whatever the budget is.
   Every other node is reached along an edge, and ways over the budget are not recorded, so all that is
   reported after the start is within the budget (`StaysWithin`). Keys and weights do not matter. A budget
   below zero does not allow to stay at the start, which is reported all the same (`negativeBudget_exceeded`),
   and alone if no weight is negative. -/
namespace MonotoneQueue.Reach

open Cost (value)
open Search (View Move Discovery Pending)

variable {κ : Type} [LE κ] [Cost κ] {q : Query κ} {v : View κ}

/-- The start is reported first and at no cost, and all that is reported after it is within the budget. -/
structure StaysWithin (q : Query κ) (found : List (Nat × κ)) : Prop where
  head : found.head? = some (q.start, Cost.zero)
  tail : ∀ x ∈ found.tail, x.2 ≤ q.maxCost

theorem StaysWithin.forall_le_iff {found : List (Nat × κ)} (h : StaysWithin q found) :
    (∀ x ∈ found, x.2 ≤ q.maxCost) ↔ Cost.zero ≤ q.maxCost := by
  obtain ⟨rest, rfl⟩ : ∃ rest, found = (q.start, Cost.zero) :: rest :=
    List.head?_eq_some_iff.mp h.head
  constructor
  · exact fun hall => hall _ List.mem_cons_self
  · exact fun hzero => List.forall_mem_cons.mpr ⟨hzero, h.tail⟩

/-- With nothing left in the queue, the start was closed before all else. -/
theorem exists_closed_eq (ht : v.Tracked q.graph q.start) (hp : Pending (fun _ => 0) v.table v.queued)
    (hM : v.queued = 0) :
    ∃ later first, v.closed = later ++ [first] ∧ first.2.node = q.start ∧ first.2.cost = Cost.zero ∧
      ∀ x ∈ later, x.1 ≠ 0 := by
  obtain ⟨root, hroot, -, -⟩ := ht.routed.root
  have hclosed : root.closed = true := by
    by_contra hopen
    obtain ⟨p, hmem, -⟩ := hp.queued 0 root hroot (by simpa using hopen)
    rw [hM] at hmem
    exact Multiset.notMem_zero _ hmem
  have hmem : (0, root) ∈ v.closed := (ht.routed.mem_done 0 root).mpr ⟨hroot, hclosed⟩
  obtain ⟨first, hfirst⟩ : ∃ first, v.closed.getLast? = some first :=
    Option.isSome_iff_exists.mp (List.getLast?_isSome.mpr (List.ne_nil_of_mem hmem))
  obtain ⟨hpos, hnode, hcost⟩ := traced_getLast ht.routed.traced first hfirst
  have heq : v.closed = v.closed.dropLast ++ [first] := (List.dropLast_append_getLast? first hfirst).symm
  refine ⟨_, first, heq, hnode, Cost.value_injective _ _ (hcost.trans Cost.value_zero.symm), ?_⟩
  -- no entry is closed twice
  intro x hx hzero
  have hpositions := ht.routed.nodup_positions
  rw [heq, List.map_append, List.nodup_append] at hpositions
  exact hpositions.2.2 x.1 (List.mem_map_of_mem hx) first.1 (by simp) (hzero.trans hpos.symm)

theorem StaysWithin.of_view (ht : v.Tracked q.graph q.start) (hp : Pending (fun _ => 0) v.table v.queued)
    (hM : v.queued = 0)
    (hwithin : ∀ (i : Nat) (d : Discovery κ), i ≠ 0 → v.table.entries[i]? = some d →
      Affordable (some q.maxCost) (value d.cost)) : StaysWithin q v.found := by
  obtain ⟨later, first, hclosed, hnode, hcost, hpos⟩ := exists_closed_eq ht hp hM
  have hfound : v.found = (q.start, Cost.zero) :: later.reverse.map fun x => (x.2.node, x.2.cost) := by
    simp [View.found, hclosed, hnode, hcost]
  rw [hfound]
  refine ⟨rfl, ?_⟩
  intro y hy
  obtain ⟨x, hx, rfl⟩ := List.mem_map.mp hy
  rw [List.mem_reverse] at hx
  have hx' : x ∈ v.closed := hclosed ▸ List.mem_append_left _ hx
  apply (Cost.le_iff_value_le _ _).mpr
  apply affordable_some.mp
  exact hwithin x.1 x.2 (hpos x hx) ((ht.routed.mem_done x.1 x.2).mp hx').1

/-- Where no weight is negative, nothing that is reported costs less than nothing. -/
theorem zero_le_of_mem_found (hg : q.graph.NonNegative) (ht : v.Tracked q.graph q.start) {x : Nat × κ}
    (hx : x ∈ v.found) : Cost.zero ≤ x.2 := by
  obtain ⟨y, hy, rfl⟩ := List.mem_map.mp hx
  obtain ⟨_, -, -, -, -, hway⟩ := ht.routed.exists_pathTo (List.mem_reverse.mp hy)
  rw [Cost.le_iff_value_le, Cost.value_zero]
  exact hg.le_of_way hway

variable {Q : Type} [PriorityQueue Q κ Nat] [PriorityQueue.Lawful Q] [DecidableLE κ]

/-- How a budget bounds the search, on queues of type `Q`. After the start all is within it, so all that is
    reported is within it if it is not below zero, and only then. Where no weight is negative, a budget
    below zero leaves the start alone. -/
structure Bounds (Q : Type) [PriorityQueue Q κ Nat] (q : Query κ) : Prop where
  staysWithin : ∀ found, (run Q q).outcome = .ok found → StaysWithin q found
  forall_le_iff : ∀ found, (run Q q).outcome = .ok found →
    ((∀ x ∈ found, x.2 ≤ q.maxCost) ↔ Cost.zero ≤ q.maxCost)
  start_only : q.graph.NonNegative → ¬ Cost.zero ≤ q.maxCost →
    ∀ found, (run Q q).outcome = .ok found → found = [(q.start, Cost.zero)]

theorem run_bounds (q : Query κ) : Bounds Q q := by
  obtain ⟨v, ht, hp, hwithin, hends⟩ := exists_ends Q q
    (fun v => ∀ (i : Nat) (d : Discovery κ), i ≠ 0 → v.table.entries[i]? = some d →
      Affordable (some q.maxCost) (value d.cost))
    (fun i d hi hd => absurd (Search.Table.start_entry_iff.mp hd).1 hi)
    (fun _ h hm => hm.within_at h)
  have hrun : ∀ found, (run Q q).outcome = .ok found → found = v.found ∧ StaysWithin q v.found := by
    intro found hfound
    generalize run Q q = r at hfound hends
    cases hends with
    | broken => cases hfound
    | exhausted hM =>
      obtain rfl := Except.ok.inj hfound
      exact ⟨rfl, .of_view ht hp hM hwithin⟩
  refine ⟨?_, ?_, ?_⟩
  · intro found hfound
    obtain ⟨rfl, hstays⟩ := hrun found hfound
    exact hstays
  · intro found hfound
    obtain ⟨rfl, hstays⟩ := hrun found hfound
    exact hstays.forall_le_iff
  · intro hg hneg found hfound
    obtain ⟨rfl, hstays⟩ := hrun found hfound
    obtain ⟨rest, hrest⟩ := List.head?_eq_some_iff.mp hstays.head
    rw [hrest]
    cases rest with
    | nil => rfl
    | cons x rest =>
      -- what comes after the start would be within the budget, which is below zero
      have htail : x.2 ≤ q.maxCost := hstays.tail x (by simp [hrest])
      exact absurd (Std.le_trans (zero_le_of_mem_found hg ht (by simp [hrest])) htail) hneg

/-- A budget bounds the search for all nodes within it, for any graph and keys: over words on either queue,
    where no budget is below zero, and over signed words of 64 bits on the stable one. -/
theorem reach_bounds {w : Nat} {S : Type → Type} [Storage S] (hw : w ≤ 128) (q : Query (BitVec w))
    (signed : Query Int64) :
    Bounds (Radix w Nat S) q ∧ Bounds (Stable (BitVec w) Nat) q ∧ Cost.zero ≤ q.maxCost ∧
    Bounds (Stable Int64 Nat) signed := by
  have : PriorityQueue.Lawful (Radix w Nat S) := Radix.lawful hw
  refine ⟨run_bounds q, run_bounds q, ?_, run_bounds signed⟩
  rw [Cost.le_iff_value_le, Cost.value_zero]
  exact Cost.value_nonneg q.maxCost

/-- Node 2 costs less than nothing and is equal to node 3, which is not reported. With a budget below zero
    the start is over the budget, and node 2 is within it. -/
theorem reach_bounds_signed :
    let g : Graph (BitVec 8) := .ofLists [⟨0, 1, 5⟩, ⟨1, 2, 1⟩, ⟨0, 2, 7⟩] [] #[]
    let signed : Graph Int64 := .ofLists [⟨0, 2, -4⟩, ⟨2, 3, 1⟩, ⟨2, 1, 3⟩] [] #[0, 1, 2, 2]
    (run (Radix 8 Nat) ⟨g, 0, 5⟩).outcome = .ok [(0, 0), (1, 5)] ∧ Bounds (Radix 8 Nat) ⟨g, 0, 5⟩ ∧
    Bounds (Stable (BitVec 8) Nat) ⟨g, 0, 5⟩ ∧
    (run (Stable Int64 Nat) ⟨signed, 0, -2⟩).outcome = .ok [(0, 0), (2, -4)] ∧
    StaysWithin ⟨signed, 0, -2⟩ [(0, 0), (2, -4)] := by
  obtain ⟨hradix, hstable, -, hsigned⟩ := reach_bounds (S := Arena) (by decide : 8 ≤ 128)
    ⟨.ofLists [⟨0, 1, 5⟩, ⟨1, 2, 1⟩, ⟨0, 2, 7⟩] [] #[], 0, 5⟩
    ⟨.ofLists [⟨0, 2, -4⟩, ⟨2, 3, 1⟩, ⟨2, 1, 3⟩] [] #[0, 1, 2, 2], 0, -2⟩
  exact ⟨by rfl, hradix, hstable, by rfl, hsigned.staysWithin _ (by rfl)⟩

/-- With a budget below zero the start is reported, though it is over the budget. The search for a goal
    within the same budget does not give it. -/
theorem negativeBudget_exceeded :
    let g : Graph Int64 := .ofLists [⟨0, 1, 2⟩] [0] #[]
    g.NonNegative ∧ (run (Stable Int64 Nat) ⟨g, 0, -1⟩).outcome = .ok [(0, 0)] ∧ ¬ (0 : Int64) ≤ -1 ∧
    (Search.run (Stable Int64 Nat) (.dijkstra g 0 ⟨some (-1), none⟩)).outcome = .ok none := by
  refine ⟨?_, by rfl, by decide, by rfl⟩
  unfold Graph.NonNegative
  decide

end MonotoneQueue.Reach

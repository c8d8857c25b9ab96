import Mathlib
import MonotoneQueue.Proofs.Radix.Lawful
import MonotoneQueue.Proofs.Search.Ends
import MonotoneQueue.Proofs.Stable.Merge

/- A route that a search gives is a way from the start to a goal that passes no node twice and weighs
   what it is said to, whatever the weights, the keys and the estimates are. Entries are closed before a
   way over them is recorded and never change afterwards, so it is enough to look at the view in which
   the goal comes out. -/
namespace MonotoneQueue.Search

open Cost (value)

variable {κ : Type} [LE κ] [Cost κ]

/-- A way from the start itself to a goal, over nodes no two of which are equal, of the given cost and
    within the budget. -/
structure Route.Genuine (q : Query κ) (r : Route κ) : Prop where
  head : r.path.head? = some q.start
  goal : ∃ b, r.path.getLast? = some b ∧ q.graph.isGoal b = true
  distinct : (r.path.map q.graph.key).Nodup
  way : q.graph.Way r.path (value r.cost)
  affordable : Affordable q.limits.maxCost (value r.cost)

variable {q : Query κ}

theorem Ends.genuine {v : View κ} {run : Run κ} (h : Ends q v run)
    (ht : v.Tracked q.graph q.start) {r : Route κ} (hr : run.outcome = .ok (some r)) :
    r.Genuine q := by
  cases h with
  | exhausted => exact nomatch hr
  | stopped => exact nomatch hr
  | broken => exact nomatch hr
  | @arrived p i d M t' path log htakes hc ha hgoal hset hindexed hpath =>
    obtain rfl : ⟨path, d.cost⟩ = r := Option.some.inj (Except.ok.inj hr)
    have hrouted := ht.routed.close htakes.entry_eq hc hset
    obtain ⟨path', hpath', hsub, hhead, hlast, hway⟩ := hrouted.exists_pathTo List.mem_cons_self
    obtain rfl : path = path' := Except.ok.inj (hpath.symm.trans hpath')
    refine ⟨hhead, ⟨d.node, hlast, hgoal⟩, ?_, hway, ha⟩
    -- the path is over closed entries, and these are of different nodes
    have hkeys := hrouted.nodup_keys hindexed
    apply (hsub.map q.graph.key).nodup
    rw [List.map_reverse, List.map_map]
    exact List.nodup_reverse.mpr hkeys

variable {Q : Type} [PriorityQueue Q κ Nat] [PriorityQueue.Lawful Q] [DecidableLE κ]

theorem run_genuine {r : Route κ} (hr : (run Q q).outcome = .ok (some r)) : r.Genuine q := by
  obtain ⟨v, ht, -, -, hends⟩ := exists_ends Q q (fun _ => True) trivial fun _ _ _ => trivial
  exact hends.genuine ht hr

/-- On queues of type `Q` the search gives genuine routes only. -/
def Honest (Q : Type) [PriorityQueue Q κ Nat] (q : Query κ) : Prop :=
  ∀ r, (run Q q).outcome = .ok (some r) → r.Genuine q

/-- Every route that a search gives is genuine: over words on either queue and over signed words of 64
    bits on the stable one, for any graph, estimates and limits. -/
theorem route_genuine :
    (∀ {w : Nat} {S : Type → Type} [Storage S], w ≤ 128 → ∀ q : Query (BitVec w),
      Honest (Radix w Nat S) q ∧ Honest (Stable (BitVec w) Nat) q) ∧
    ∀ q : Query Int64, Honest (Stable Int64 Nat) q := by
  constructor
  · intro w S _ hw q
    have : PriorityQueue.Lawful (Radix w Nat S) := Radix.lawful hw
    exact ⟨fun _ => run_genuine, fun _ => run_genuine⟩
  · exact fun q _ => run_genuine

/-- An estimate that is not consistent hides the cheapest way, and the route that is given instead goes
    along an edge for a node that equals the next one. Over signed words a weight is below zero. -/
theorem route_genuine_misled :
    let g : Graph (BitVec 8) :=
      .ofLists [⟨0, 4, 3⟩, ⟨0, 2, 2⟩, ⟨0, 1, 1⟩, ⟨1, 3, 1⟩, ⟨4, 3, 1⟩] [3] #[0, 1, 2, 3, 2]
    let q : Query (BitVec 8) := .astar g (Graph.estimates #[0, 9]) 0 ⟨some 7, none⟩
    let signed : Graph Int64 := .ofLists [⟨0, 1, 5⟩, ⟨1, 2, -3⟩] [2] #[]
    (run (Radix 8 Nat) q).outcome = .ok (some ⟨[0, 4, 3], 3⟩) ∧
    (⟨[0, 4, 3], 3⟩ : Route (BitVec 8)).Genuine q ∧
    Honest (Stable (BitVec 8) Nat) q ∧
    (run (Stable Int64 Nat) (.dijkstra signed 0 {})).outcome = .ok (some ⟨[0, 1, 2], 2⟩) ∧
    (⟨[0, 1, 2], 2⟩ : Route Int64).Genuine (.dijkstra signed 0 {}) := by
  have hwords := route_genuine.1 (S := Arena) (by decide : 8 ≤ 128)
  exact ⟨by rfl, (hwords _).1 _ (by rfl), (hwords _).2, by rfl, route_genuine.2 _ _ (by rfl)⟩

end MonotoneQueue.Search

import Mathlib
import MonotoneQueue.Proofs.Reach.Exact

/- When the search for all nodes within a budget overflows. The nodes that it expands are those whose least
   weight is within the budget, each at that weight, and every edge of theirs is added up before the budget
   is looked at. So it breaks off just if one of these sums is more than the type of costs can hold
   (`run_overflows_iff`), in whatever order ties come out. A search that has reported a node has followed
   all its edges (`visit_extendable`), and one that breaks off does so at a node that came out at its least
   weight (`Gathers.isLeast_of_takes`). -/
namespace MonotoneQueue

open Cost (value)

variable {κ : Type} [LE κ] [Cost κ]

/-- Edges that have been followed lead to costs of the type. -/
theorem Search.Frontier.exists_sum_of_foldlM {Q : Type} [PriorityQueue Q κ Nat] [DecidableLE κ]
    {g : Graph κ} {budget : Option κ} {rank : Nat → κ → Result κ} {i : Nat} {base : κ}
    {es : List (Edge κ)} {f f' : Frontier Q κ}
    (h : es.foldlM (follow g budget rank i base) f = .ok f') :
    ∀ e ∈ es, ∃ c : κ, value c = value base + value e.weight := by
  induction es generalizing f with
  | nil => exact nofun
  | cons e rest ih =>
    rw [List.foldlM_cons] at h
    obtain ⟨f₁, hfollow, hrest⟩ := Result.bind_eq_ok.mp h
    obtain ⟨c, hsum, -⟩ := Result.bind_eq_ok.mp hfollow
    exact List.forall_mem_cons.mpr ⟨⟨c, Cost.sum_eq_ok_iff.mp hsum⟩, ih hrest⟩

namespace Reach

open Search (Frontier View Move Discovery Overflows)

/-- All edges that leave the node lead on to costs of the type. -/
def Extendable (g : Graph κ) (x : Nat × κ) : Prop :=
  ∀ e ∈ g.leaving x.1, ∃ c : κ, value c = value x.2 + value e.weight

/-- The sum along an edge of a node whose least weight is within the budget is above all costs of the
    type. -/
def Query.MustOverflow (q : Query κ) : Prop :=
  ∃ n d, IsLeast (q.graph.weights q.start n) d ∧ d ≤ value q.maxCost ∧
    ∃ e ∈ q.graph.leaving n, ∀ c : κ, value c < d + value e.weight

/-- A sum that is not negative and that the type does not have is above all its costs. -/
theorem value_lt_of_missing {n : Int} (hn : 0 ≤ n) (h : ∀ c : κ, value c ≠ n) (c : κ) : value c < n := by
  by_contra hle
  have hzero : value (Cost.zero : κ) ≤ n := Cost.value_zero (κ := κ) ▸ hn
  obtain ⟨x, hx⟩ := Cost.exists_value_eq Cost.zero c n hzero (by omega)
  exact h x hx

/-- Without estimates an edge overflows just if the type does not have the sum along it. -/
theorem overflows_iff {budget : Option κ} {c : Int} {e : Edge κ} :
    Overflows budget (fun _ => 0) c e ↔ ∀ x : κ, value x ≠ c + value e.weight := by
  constructor
  · rintro (h | ⟨-, h⟩)
    · exact h
    · simpa using h
  · exact Or.inl

variable {q : Query κ} {v : View κ}

theorem Gathers.isLeast_of_takes {p : κ} {i : Nat} {d : Discovery κ} {M : Multiset (κ × Nat)}
    (h : Gathers q v) (hq : q.Regular) (ht : v.Tracked q.graph q.start) (htakes : v.Takes p i d M)
    (hopen : d.closed = false) : IsLeast (q.graph.weights q.start d.node) (value d.cost) := by
  apply h.order.isLeast_of_entry ht hq.distinct hq.nonNegative hq.nonNegative.consistent htakes.entry_eq
    (h.within i d htakes.entry_eq)
  rw [← htakes.eq_total h.order.pending hopen]
  exact htakes.least

/-! Queries. -/

section

variable {Q : Type} [PriorityQueue Q κ Nat] [DecidableLE κ]

theorem visit_extendable {f f' : Frontier Q κ} {i : Nat} {cost : κ} {x : Nat × κ}
    (h : visit q f i cost = .ok (f', some x)) : Extendable q.graph x := by
  obtain ⟨closed, -, h⟩ := Result.bind_eq_ok.mp h
  cases closed with
  | none => cases h
  | some closed =>
    obtain ⟨f₁, hexpand, h⟩ := Result.bind_eq_ok.mp h
    obtain ⟨-, hx⟩ := Prod.ext_iff.mp (Except.ok.inj h)
    obtain rfl : (closed.1.node, cost) = x := Option.some.inj hx
    exact Frontier.exists_sum_of_foldlM hexpand

theorem run_extendable {found : List (Nat × κ)} (h : (run Q q).outcome = .ok found) :
    ∀ x ∈ found, Extendable q.graph x := by
  rw [run] at h
  split at h
  · cases h
  · exact forall_of_runFor visit_extendable (List.forall_mem_nil _) h

end

variable {Q : Type} [PriorityQueue Q κ Nat] [PriorityQueue.Lawful Q] [DecidableLE κ]

/-- The search breaks off at a sum just if there is one that it has to make and the type cannot hold. -/
theorem run_overflows_iff (hq : q.Regular) :
    (run Q q).outcome = .error .costOverflow ↔ q.MustOverflow := by
  constructor
  · intro hrun
    obtain ⟨v, ht, -, hg, hends⟩ := exists_ends Q q (Gathers q) (.start hq)
      (fun ht hg hm => hg.move hq ht hm)
    generalize run Q q = r at hrun hends
    cases hends with
    | exhausted => cases hrun
    | @broken p i d M e why notices htakes hc he hbreaks =>
      obtain ⟨-, hover⟩ := htakes.overflows hg.order.pending hc hq.nonNegative.consistent he hbreaks
      have hleast := hg.isLeast_of_takes hq ht htakes hc
      have hcost : 0 ≤ value d.cost := hleast.1.nonneg hq.nonNegative
      have hweight : 0 ≤ value e.weight := hq.nonNegative e (Graph.mem_leaving.mp he).1
      have hmost := affordable_some.mp (hg.within i d htakes.entry_eq)
      exact ⟨d.node, value d.cost, hleast, hmost, e, he,
        value_lt_of_missing (by omega) (overflows_iff.mp hover)⟩
  · rintro ⟨n, d, hleast, hd, e, he, habove⟩
    obtain ⟨hrun, -⟩ | ⟨found, hrun, hexact⟩ := run_correct (Q := Q) hq
    · exact hrun
    · -- the node would have been reported at its least weight, with its edges followed
      obtain ⟨x, hx, hxeq⟩ := List.mem_map.mp ((hexact.mem_iff n d).mpr ⟨hleast, hd⟩)
      obtain ⟨rfl, rfl⟩ := Prod.ext_iff.mp hxeq
      obtain ⟨c, hc⟩ := run_extendable hrun x hx e he
      have := habove c
      omega

/-! Both queues. -/

omit [DecidableLE κ] in
theorem Exact.perm {g : Graph κ} {s : Nat} {most : κ} {found found' : List (Nat × κ)}
    (h : Exact g s most found) (h' : Exact g s most found') : found.Perm found' := by
  have hsub : ∀ {l l' : List (Nat × κ)}, Exact g s most l → Exact g s most l' → ∀ x ∈ l, x ∈ l' := by
    intro l l' hl hl' x hx
    have hmem := (hl'.mem_iff x.1 (value x.2)).mpr
      ((hl.mem_iff x.1 (value x.2)).mp (List.mem_map_of_mem hx))
    obtain ⟨y, hy, hyeq⟩ := List.mem_map.mp hmem
    obtain ⟨hnode, hcost⟩ := Prod.ext_iff.mp hyeq
    have hyx : y = x := Prod.ext hnode (Cost.value_injective _ _ hcost)
    rwa [← hyx]
  apply (List.perm_ext_iff_of_nodup h.nodup.of_map h'.nodup.of_map).mpr
  intro x
  exact ⟨hsub h h' x, hsub h' h x⟩

/-- Both searches break off at a sum, or both report the same nodes at the same costs. -/
inductive Alike : Result (List (Nat × κ)) → Result (List (Nat × κ)) → Prop
  | broken : Alike (.error .costOverflow) (.error .costOverflow)
  | found {l l' : List (Nat × κ)} : l.Perm l' → Alike (.ok l) (.ok l')

theorem run_alike (Q Q' : Type) [PriorityQueue Q κ Nat] [PriorityQueue.Lawful Q] [PriorityQueue Q' κ Nat]
    [PriorityQueue.Lawful Q'] (hq : q.Regular) : Alike (run Q q).outcome (run Q' q).outcome := by
  obtain ⟨hrun, -⟩ | ⟨l, hrun, hl⟩ := run_correct (Q := Q) hq
  · have hrun' := (run_overflows_iff (Q := Q') hq).mpr ((run_overflows_iff (Q := Q) hq).mp hrun)
    rw [hrun, hrun']
    exact .broken
  · obtain ⟨hrun', -⟩ | ⟨l', hrun', hl'⟩ := run_correct (Q := Q') hq
    · have hover := (run_overflows_iff (Q := Q) hq).mpr ((run_overflows_iff (Q := Q') hq).mp hrun')
      rw [hrun] at hover
      cases hover
    · rw [hrun, hrun']
      exact .found (hl.perm hl')

/-- On queues of type `Q` the search overflows just if it must. -/
def OverflowsWhenDue (Q : Type) [PriorityQueue Q κ Nat] (q : Query κ) : Prop :=
  (run Q q).outcome = .error .costOverflow ↔ q.MustOverflow

/-- The search for all nodes within a budget overflows just if it must, on either queue. So over words
    both queues break off, or both report the same. -/
theorem reach_overflows_iff :
    (∀ {w : Nat} {S : Type → Type} [Storage S], w ≤ 128 →
      ∀ (g : Graph (BitVec w)) (s : Nat) (most : BitVec w), g.DistinctKeys s →
      OverflowsWhenDue (Radix w Nat S) ⟨g, s, most⟩ ∧
      OverflowsWhenDue (Stable (BitVec w) Nat) ⟨g, s, most⟩ ∧
      Alike (run (Radix w Nat S) ⟨g, s, most⟩).outcome
        (run (Stable (BitVec w) Nat) ⟨g, s, most⟩).outcome) ∧
    ∀ (g : Graph Int64) (s : Nat) (most : Int64), g.DistinctKeys s → g.NonNegative → 0 ≤ most →
      OverflowsWhenDue (Stable Int64 Nat) ⟨g, s, most⟩ := by
  constructor
  · intro w S _ hw g s most hkeys
    have hq : (⟨g, s, most⟩ : Query (BitVec w)).Regular :=
      ⟨hkeys, g.nonNegative_words, Cost.value_nonneg most⟩
    have : PriorityQueue.Lawful (Radix w Nat S) := Radix.lawful hw
    exact ⟨run_overflows_iff hq, run_overflows_iff hq, run_alike _ _ hq⟩
  · intro g s most hkeys hpos hmost
    exact run_overflows_iff ⟨hkeys, hpos, (Cost.le_iff_value_le 0 most).mp hmost⟩

/-- Node 1 comes out at 109, and an edge of weight 150 leaves it. A budget of one less does not reach it.
    Over signed words the largest cost can be held, and one more cannot. -/
theorem reach_overflows_iff_bytes :
    let g : Graph (BitVec 8) := .ofLists [⟨0, 1, 200⟩, ⟨0, 2, 9⟩, ⟨2, 1, 100⟩, ⟨1, 3, 150⟩] [] #[]
    let signed : Graph Int64 := .ofLists [⟨0, 1, Int64.maxValue⟩, ⟨1, 2, 0⟩, ⟨2, 0, 1⟩] [] #[]
    (run (Radix 8 Nat) ⟨g, 0, 109⟩).outcome = .error .costOverflow ∧ Query.MustOverflow ⟨g, 0, 109⟩ ∧
    (run (Radix 8 Nat) ⟨g, 0, 108⟩).outcome = .ok [(0, 0), (2, 9)] ∧ ¬ Query.MustOverflow ⟨g, 0, 108⟩ ∧
    Alike (run (Radix 8 Nat) ⟨g, 0, 108⟩).outcome (run (Stable (BitVec 8) Nat) ⟨g, 0, 108⟩).outcome ∧
    (run (Stable Int64 Nat) ⟨signed, 0, Int64.maxValue⟩).outcome = .error .costOverflow ∧
    Query.MustOverflow ⟨signed, 0, Int64.maxValue⟩ := by
  have hkeys : Graph.DistinctKeys (κ := BitVec 8)
      (.ofLists [⟨0, 1, 200⟩, ⟨0, 2, 9⟩, ⟨2, 1, 100⟩, ⟨1, 3, 150⟩] [] #[]) 0 := by
    unfold Graph.DistinctKeys
    decide
  have hbytes := fun most => reach_overflows_iff.1 (S := Arena) (by decide : 8 ≤ 128) _ 0 most hkeys
  refine ⟨by rfl, (hbytes 109).1.mp (by rfl), by rfl, mt (hbytes 108).1.mpr nofun,
    (hbytes 108).2.2, by rfl, (reach_overflows_iff.2 _ _ _ ?_ ?_ (by decide)).mp (by rfl)⟩
  · unfold Graph.DistinctKeys
    decide
  · unfold Graph.NonNegative
    decide

end Reach
end MonotoneQueue

import Mathlib
import MonotoneQueue.Proofs.Radix.Coupled
import MonotoneQueue.Proofs.Reach.Overflow
import MonotoneQueue.Proofs.Search.Trimmed
import MonotoneQueue.Proofs.Stable.Coupled

/- A larger budget only adds to what is reported. As long as what comes out of the search within the larger
   budget is within the smaller one, it comes out of the search within the smaller one as well, and both
   report the same and stay next to each other (`Paced.step`). When that ends, every node within the smaller
   budget has been reported (`State.Underway.covers`). So what the two have in common is all of the one
   answer and, in the other, all that is within the smaller budget (`Exact.filter_eq_of_covers`), in the same
   order also among equal costs. -/
namespace MonotoneQueue.Reach

open Cost (value)
open Search (Frontier View Move Discovery Progress Table)
open Search.Table (SameNode)

variable {κ : Type} [LE κ] [Cost κ]

/-- The same search within another budget. -/
def Query.within (q : Query κ) (most : κ) : Query κ := { q with maxCost := most }

variable {q : Query κ} {most : κ}

theorem Query.Regular.within (hq : q.Regular) (h0 : 0 ≤ value most) : (q.within most).Regular :=
  ⟨hq.distinct, hq.nonNegative, h0⟩

theorem Query.MustOverflow.mono (h : (q.within most).MustOverflow) (hle : most ≤ q.maxCost) :
    q.MustOverflow := by
  obtain ⟨n, d, hleast, hd, hedge⟩ := h
  exact ⟨n, d, hleast, Int.le_trans hd ((Cost.le_iff_value_le _ _).mp hle), hedge⟩

/-! Parts of an answer. -/

/-- Every node to which a walk within the budget leads is there. -/
def Covers (q : Query κ) (most : κ) (found : List (Nat × κ)) : Prop :=
  ∀ n c, q.graph.Walk q.start n c → c ≤ value most → ∃ x ∈ found, x.1 = n

/-- Once all nodes within a budget are there, what follows is over it. -/
theorem Exact.not_le_of_covers {common rest : List (Nat × κ)}
    (h : Exact q.graph q.start q.maxCost (common ++ rest)) (hc : Covers q most common) :
    ∀ x ∈ rest, ¬ x.2 ≤ most := by
  intro x hx hle
  have hmem : x ∈ common ++ rest := List.mem_append_right _ hx
  obtain ⟨hleast, -⟩ := (h.mem_iff x.1 (value x.2)).mp (List.mem_map_of_mem hmem)
  obtain ⟨y, hy, hnode⟩ := hc x.1 _ hleast.1 ((Cost.le_iff_value_le _ _).mp hle)
  -- no node is reported twice
  have hnodup := h.nodup
  rw [List.map_append, List.nodup_append] at hnodup
  exact hnodup.2.2 y.1 (List.mem_map_of_mem hy) x.1 (List.mem_map_of_mem hx) hnode

/-- An answer within a budget that begins with all nodes within it has nothing else. -/
theorem Exact.eq_of_covers {common found : List (Nat × κ)} (h : Exact q.graph q.start q.maxCost found)
    (hpre : common <+: found) (hc : Covers q q.maxCost common) : found = common := by
  obtain ⟨rest, rfl⟩ := hpre
  cases rest with
  | nil => exact List.append_nil common
  | cons x rest =>
    have hmem : x ∈ common ++ x :: rest := by simp
    obtain ⟨-, hle⟩ := (h.mem_iff x.1 (value x.2)).mp (List.mem_map_of_mem hmem)
    exact absurd ((Cost.le_iff_value_le _ _).mpr hle) (h.not_le_of_covers hc x List.mem_cons_self)

/-- An answer that begins with the nodes within a smaller budget has no others within it. -/
theorem Exact.filter_eq_of_covers [DecidableLE κ] {common found : List (Nat × κ)}
    (h : Exact q.graph q.start q.maxCost found) (hpre : common <+: found) (hc : Covers q most common)
    (hle : ∀ x ∈ common, x.2 ≤ most) : (found.filter fun x => x.2 ≤ most) = common := by
  obtain ⟨rest, rfl⟩ := hpre
  have hrest : (rest.filter fun x => x.2 ≤ most) = [] := by
    apply List.filter_eq_nil_iff.mpr
    intro x hx
    simpa using h.not_le_of_covers hc x hx
  have hcommon : (common.filter fun x => x.2 ≤ most) = common := by
    apply List.filter_eq_self.mpr
    intro x hx
    simpa using hle x hx
  rw [List.filter_append, hcommon, hrest, List.append_nil]

/-! One search. -/

section

variable {Q : Type} [PriorityQueue Q κ Nat] [PriorityQueue.Lawful Q] {st st₁ : State Q κ}

/-- The search is on its way and in order. -/
def State.Underway (q : Query κ) (st : State Q κ) : Prop :=
  ∃ v : View κ, v.Tracked q.graph q.start ∧ (v.InOrder q.graph (some q.maxCost) fun _ => 0) ∧ st.At v

theorem State.Underway.step [DecidableLE κ] (h : st.Underway q) (hq : q.Regular)
    (hstep : Reach.step q st = .going st₁) : st₁.Underway q := by
  obtain ⟨v, ht, horder, hat⟩ := h
  obtain ⟨run, hended, -⟩ | ⟨st₂, v₂, hgoing, hm, hat₂⟩ := step_cases_view q ht hat
  · cases hstep.symm.trans hended
  · obtain rfl : st₁ = st₂ := Progress.going.inj (hstep.symm.trans hgoing)
    exact ⟨v₂, hm.tracked ht, hm.inOrder (.zero _ _) hq.nonNegative.consistent horder, hat₂⟩

/-- When nothing comes out within a smaller budget any more, all nodes within it have been reported. -/
theorem State.Underway.covers (h : st.Underway q) (hq : q.Regular) (hle : most ≤ q.maxCost)
    (hover : ∀ top, PriorityQueue.pop st.frontier.queue = .ok (some top) → ¬ top.priority ≤ most) :
    Covers q most st.found := by
  obtain ⟨v, ht, horder, hat⟩ := h
  have hf : st.frontier.Sound q.graph q.start v.queued := ⟨hat.table_eq ▸ ht.indexed, hat.holds⟩
  have hqueued : ∀ x ∈ v.queued, value most < value x.1 := by
    intro x hx
    obtain ⟨hM, -⟩ | ⟨top, M', hpop, -, hleast, -⟩ := hf.pop_cases
    · rw [hM] at hx
      exact absurd hx (Multiset.notMem_zero x)
    · have htop := hover top hpop
      rw [Cost.le_iff_value_le] at htop
      exact Int.lt_of_lt_of_le (Int.not_le.mp htop) (hleast x hx)
  intro n c hw hc
  have ha : Affordable (some q.maxCost) c :=
    affordable_some.mpr (Int.le_trans hc ((Cost.le_iff_value_le _ _).mp hle))
  obtain ⟨x, hx, hnode, -⟩ | ⟨x, hx, hxle⟩ :=
    horder.met ht hq.distinct hq.nonNegative hq.nonNegative.consistent hw ha
  · refine ⟨(x.2.node, x.2.cost), ?_, hnode⟩
    rw [hat.found_eq]
    exact List.mem_map_of_mem (List.mem_reverse.mpr hx)
  · have := hqueued x hx
    omega

end

/-! Side by side. -/

variable {Q : Type} [PriorityQueue Q κ Nat] [PriorityQueue.Coupled Q] [DecidableLE κ]
  {st st' st₁ : State Q κ} {f f' f₁ : Frontier Q κ} {i i' : Nat} {n : Nat}

/-- What a visit within the larger budget comes to, one of the same node within the smaller budget does. -/
theorem exists_visit_within (h : f.Trims q.graph q.start most f') (hg : q.graph.DistinctKeys q.start)
    (hle : most ≤ q.maxCost) (hsame : SameNode f.table f'.table i i') {cost : κ}
    {found : Option (Nat × κ)} (hvisit : visit q f i cost = .ok (f₁, found)) :
    ∃ f₁', visit (q.within most) f' i' cost = .ok (f₁', found) ∧ f₁.Trims q.graph q.start most f₁' := by
  obtain ⟨d, d', hd, hd', hnode⟩ := hsame
  have hclosed_eq := (h.table.alike h.left hd hd' hnode).closed_eq
  obtain ⟨hc, hclose⟩ | ⟨hc, t₁, hclose, hset, hindex⟩ := Table.close_cases hd <;>
  obtain ⟨hc', hclose'⟩ | ⟨hc', t₁', hclose', hset', hindex'⟩ := Table.close_cases hd'
  · simp only [visit, hclose, Result.ok_bind] at hvisit
    obtain ⟨rfl, rfl⟩ := Prod.ext_iff.mp (Except.ok.inj hvisit)
    refine ⟨f', ?_, h⟩
    simp only [visit, hclose', Result.ok_bind]
  · rw [hclosed_eq, hc'] at hc
    cases hc
  · rw [hclosed_eq, hc'] at hc
    cases hc
  · simp only [visit, hclose, Result.ok_bind] at hvisit
    obtain ⟨f₂, hexpand, hok⟩ := Result.bind_eq_ok.mp hvisit
    obtain ⟨rfl, rfl⟩ := Prod.ext_iff.mp (Except.ok.inj hok)
    have hmost := (Cost.le_iff_value_le _ _).mp hle
    obtain ⟨f₁', hexpand', htrims⟩ :=
      (h.close hd hd' hnode hset hset' hindex hindex').foldlM_follow hg
        (fun c hc => Cost.within_iff.mpr (affordable_some.mpr
          (Int.le_trans (affordable_some.mp (Cost.within_iff.mp hc)) hmost)))
        (fun _ c p hp => (congrArg value (Except.ok.inj hp)).le)
        (fun e he => (Graph.mem_leaving.mp he).1) ⟨_, _, hset.self, hset'.self, hnode⟩ hexpand
    refine ⟨f₁', ?_, htrims⟩
    have hexpand_within : (⟨t₁', f'.queue⟩ : Frontier Q κ).expand q.graph (some most) (fun _ c => .ok c)
        d.node i' cost = .ok f₁' := hexpand'
    simp only [visit, Query.within, hclose', Result.ok_bind, ← hnode, hexpand_within]

variable [PriorityQueue.Lawful Q]

/-- The search within the larger budget and the search within the smaller one are next to each other. -/
structure Paced (q : Query κ) (most : κ) (st st' : State Q κ) : Prop where
  left : st.Underway q
  trims : st.frontier.Trims q.graph q.start most st'.frontier
  found_eq : st'.found = st.found

/-- A step that takes out something within the smaller budget can be made in both searches, unless it
    ends the one within the larger budget. -/
theorem Paced.step (h : Paced q most st st') (hq : q.Regular) (hle : most ≤ q.maxCost)
    {top : Popped Q κ Nat} (hpop : PriorityQueue.pop st.frontier.queue = .ok (some top))
    (htop : top.priority ≤ most) (hstep : Reach.step q st = .going st₁) :
    ∃ st₁', Reach.step (q.within most) st' = .going st₁' ∧ Paced q most st₁ st₁' := by
  obtain ⟨top₀, f₁, found, hpop₀, hvisit, hfrontier, hfound⟩ := exists_visit_of_going hstep
  obtain rfl : top = top₀ := Option.some.inj (Except.ok.inj (hpop.symm.trans hpop₀))
  obtain ⟨top', hpop', hpriority, hsame, hcouples⟩ := PriorityQueue.Coupled.pop h.trims.queue hpop htop
  have htrims : (⟨st.frontier.table, top.rest⟩ : Frontier Q κ).Trims q.graph q.start most
      ⟨st'.frontier.table, top'.rest⟩ := ⟨h.trims.table, h.trims.left, h.trims.right, hcouples⟩
  obtain ⟨f₁', hvisit', htrims₁⟩ := exists_visit_within htrims hq.distinct hle hsame hvisit
  rw [← hpriority] at hvisit'
  refine ⟨⟨f₁', st'.pops + 1, st'.notices ++ top'.notice.toList, st'.found ++ found.toList⟩, ?_,
    h.left.step hq hstep, hfrontier ▸ htrims₁, ?_⟩
  · rw [(Proceeds.visited hpop').step_eq, hvisit']
    rfl
  · rw [hfound, h.found_eq]

/-- When the search within the larger budget comes to an end, whatever the other one comes to begins alike,
    with all nodes within the smaller budget. -/
theorem Paced.runFor (h : Paced q most st st') (hq : q.Regular) (hle : most ≤ q.maxCost)
    {found found' : List (Nat × κ)} (hfound : (Reach.runFor q n st).outcome = .ok found)
    (hfound' : (Reach.runFor (q.within most) n st').outcome = .ok found') :
    ∃ common, common <+: found ∧ common <+: found' ∧ Covers q most common := by
  induction n generalizing st st' with
  | zero => cases hfound
  | succ n ih =>
    -- the two part when nothing within the smaller budget is left, and all of it has been reported then
    by_cases hover : ∀ top, PriorityQueue.pop st.frontier.queue = .ok (some top) → ¬ top.priority ≤ most
    · exact ⟨st.found, prefix_of_runFor hfound, h.found_eq ▸ prefix_of_runFor hfound',
        h.left.covers hq hle hover⟩
    push Not at hover
    obtain ⟨top, hpop, htop⟩ := hover
    rw [Reach.runFor] at hfound hfound'
    cases hstep : Reach.step q st with
    | ended run =>
      rw [hstep] at hfound
      obtain ⟨why, hwhy⟩ := exists_error_of_ended hpop hstep
      cases hwhy.symm.trans hfound
    | going st₁ =>
      obtain ⟨st₁', hstep', h₁⟩ := h.step hq hle hpop htop hstep
      rw [hstep] at hfound
      rw [hstep'] at hfound'
      exact ih h₁ hfound hfound'

/-! Searches. -/

omit [DecidableLE κ] in
theorem exists_paced (Q : Type) [PriorityQueue Q κ Nat] [PriorityQueue.Coupled Q]
    [PriorityQueue.Lawful Q] (q : Query κ) (h0 : 0 ≤ value most) :
    ∃ f : Frontier Q κ, Frontier.start q.graph q.start Cost.zero = .ok f ∧
      Paced q most ⟨f, 0, [], []⟩ ⟨f, 0, [], []⟩ := by
  obtain ⟨⟨table, queue⟩, hf, hsound, htable⟩ :=
    Frontier.exists_start (Q := Q) q.graph q.start Cost.zero
  cases htable
  refine ⟨_, hf, ⟨_, .start _ _ _, .start _ _ Cost.value_zero, ?_⟩, .start h0 hsound hf, rfl⟩
  exact ⟨rfl, rfl, hsound.holds, .start _ _ Cost.value_zero, rfl⟩

/-- On queues of type `Q`, if the search comes to an answer, then within the smaller budget it comes to the
    part of that answer which is within it, and that is how the answer begins. -/
def Extends (Q : Type) [PriorityQueue Q κ Nat] (q : Query κ) (most : κ) : Prop :=
  ∀ found, (run Q q).outcome = .ok found →
    ∃ found', (run Q (q.within most)).outcome = .ok found' ∧ found' <+: found ∧
      found' = found.filter fun x => x.2 ≤ most

theorem run_extends (hq : q.Regular) (h0 : 0 ≤ value most) (hle : most ≤ q.maxCost) :
    Extends Q q most := by
  intro found hfound
  obtain ⟨hrun, -⟩ | ⟨found₀, hrun, hexact⟩ := run_correct (Q := Q) hq
  · cases hrun.symm.trans hfound
  obtain rfl : found₀ = found := Except.ok.inj (hrun.symm.trans hfound)
  obtain ⟨hrun', -⟩ | ⟨found', hrun', hexact'⟩ := run_correct (Q := Q) (hq.within h0)
  · -- the sum would have to be made within the larger budget as well
    have hmust := ((run_overflows_iff (Q := Q) (hq.within h0)).mp hrun').mono hle
    cases hfound.symm.trans ((run_overflows_iff (Q := Q) hq).mpr hmust)
  obtain ⟨f, hf, hpaced⟩ := exists_paced Q q h0
  have hloop : (runFor q (Search.stepBound q.graph) ⟨f, 0, [], []⟩).outcome = .ok found₀ := by
    rwa [run, hf] at hfound
  have hloop' : (runFor (q.within most) (Search.stepBound q.graph) ⟨f, 0, [], []⟩).outcome =
      .ok found' := by
    have hf' : Frontier.start (q.within most).graph (q.within most).start Cost.zero = .ok f := hf
    rwa [run, hf'] at hrun'
  obtain ⟨common, hpre, hpre', hcovers⟩ := hpaced.runFor hq hle hloop hloop'
  obtain rfl := hexact'.eq_of_covers hpre' hcovers
  refine ⟨found', hrun', hpre, (hexact.filter_eq_of_covers hpre hcovers ?_).symm⟩
  intro x hx
  exact (Cost.le_iff_value_le _ _).mpr
    ((hexact'.mem_iff x.1 (value x.2)).mp (List.mem_map_of_mem hx)).2

/-- A larger budget only adds to the end of what is reported, on either queue. -/
theorem reach_extends {w : Nat} {S : Type → Type} [Storage S] (hw : w ≤ 128) (g : Graph (BitVec w)) (s : Nat)
    (most more : BitVec w) (hle : most ≤ more) (hkeys : g.DistinctKeys s) :
    Extends (Radix w Nat S) ⟨g, s, more⟩ most ∧ Extends (Stable (BitVec w) Nat) ⟨g, s, more⟩ most := by
  have : PriorityQueue.Lawful (Radix w Nat S) := Radix.lawful hw
  have : PriorityQueue.Coupled (Radix w Nat S) := Radix.coupled hw
  have h0 : 0 ≤ value most := Cost.value_nonneg most
  have hq : (⟨g, s, more⟩ : Query (BitVec w)).Regular :=
    ⟨hkeys, g.nonNegative_words, Cost.value_nonneg more⟩
  exact ⟨run_extends hq h0 hle, run_extends hq h0 hle⟩

/-- Nodes 1, 2 and 3 cost the same, and node 4, which is over the smaller budget, is queued among them. -/
theorem reach_extends_ties :
    let g : Graph (BitVec 8) := .ofLists [⟨0, 1, 2⟩, ⟨0, 4, 9⟩, ⟨0, 2, 2⟩, ⟨2, 3, 0⟩, ⟨1, 4, 5⟩] [] #[]
    (run (Radix 8 Nat) ⟨g, 0, 9⟩).outcome = .ok [(0, 0), (2, 2), (3, 2), (1, 2), (4, 7)] ∧
    (run (Radix 8 Nat) ⟨g, 0, 2⟩).outcome = .ok [(0, 0), (2, 2), (3, 2), (1, 2)] ∧
    Extends (Radix 8 Nat) ⟨g, 0, 9⟩ 2 ∧ Extends (Stable (BitVec 8) Nat) ⟨g, 0, 9⟩ 2 := by
  refine ⟨by rfl, by rfl, reach_extends (by decide) _ _ _ _ (by decide) ?_⟩
  unfold Graph.DistinctKeys
  decide

end MonotoneQueue.Reach

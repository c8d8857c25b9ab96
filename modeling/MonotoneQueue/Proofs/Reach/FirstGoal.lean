import Mathlib
import MonotoneQueue.Proofs.Reach.Exact

/- The search for all nodes within a budget against the search by cost alone for a goal within it. The
   two take the same elements out of their queues, visit the same entries and follow the same edges: what
   comes out for an open entry is its cost, which is within the budget, so neither test of the search for
   a goal ever fails. It only ends earlier, at the first goal that the other one reports, and then the
   path to that goal can be read off (`runFor_answersFirst`). Nothing is asked of weights and keys. -/
namespace MonotoneQueue

theorem Cost.sum_zero {κ : Type} [LE κ] [Cost κ] (a : κ) : sum a zero = .ok a := by
  have h : add? a zero = some a := (add?_eq_some_iff a zero a).mpr (by rw [value_zero, add_zero])
  rw [sum, h]

namespace Reach

open Cost (value)
open Search (Frontier View Move Discovery Pending Progress Route Table)

variable {κ : Type} [LE κ] [Cost κ]

/-- The search for a goal within the same budget, by cost alone. -/
def Query.toGoal (q : Query κ) : MonotoneQueue.Query κ := .dijkstra q.graph q.start ⟨some q.maxCost, none⟩

@[simp] theorem Query.toGoal_graph (q : Query κ) : q.toGoal.graph = q.graph := rfl

@[simp] theorem Query.toGoal_maxCost (q : Query κ) : q.toGoal.limits.maxCost = some q.maxCost := rfl

theorem Query.rank_toGoal (q : Query κ) : Search.rank q.toGoal = fun _ c => .ok c := by
  funext n c
  exact Cost.sum_zero c

/-- A way to the first goal among nodes with costs, at the cost of that goal; none if none of them is
    a goal. -/
def AnswersFirst (g : Graph κ) (found : List (Nat × κ)) (outcome : Result (Option (Route κ))) : Prop :=
  match found.find? fun x => g.isGoal x.1 with
  | none => outcome = .ok none
  | some x => ∃ r, outcome = .ok (some r) ∧ r.path.getLast? = some x.1 ∧ r.cost = x.2

omit [LE κ] [Cost κ] in
theorem AnswersFirst.of_goal {g : Graph κ} {found found' : List (Nat × κ)} {x : Nat × κ} {r : Route κ}
    (hno : ∀ y ∈ found, g.isGoal y.1 = false) (hgoal : g.isGoal x.1 = true)
    (hfound' : found ++ [x] <+: found') (hlast : r.path.getLast? = some x.1) (hcost : r.cost = x.2) :
    AnswersFirst g found' (.ok (some r)) := by
  obtain ⟨rest, rfl⟩ := hfound'
  have hnone : found.find? (fun y => g.isGoal y.1) = none := by
    apply List.find?_eq_none.mpr
    intro y hy
    simp [hno y hy]
  have hfirst : (found ++ [x] ++ rest).find? (fun y => g.isGoal y.1) = some x := by
    simp [hnone, hgoal]
  rw [AnswersFirst, hfirst]
  exact ⟨r, rfl, hlast, hcost⟩

omit [LE κ] [Cost κ] in
theorem AnswersFirst.of_none {g : Graph κ} {found : List (Nat × κ)}
    (hno : ∀ y ∈ found, g.isGoal y.1 = false) : AnswersFirst g found (.ok none) := by
  have hnone : found.find? (fun y => g.isGoal y.1) = none := by
    apply List.find?_eq_none.mpr
    intro y hy
    simp [hno y hy]
  rw [AnswersFirst, hnone]

variable {Q : Type} [PriorityQueue Q κ Nat] [DecidableLE κ]

/-! Side by side. -/

/-- What a visit of the search for all nodes comes to, and what one of the search for a goal does: both
    go on alike over nodes that are no goals, and at a goal the other search ends with a way to it. -/
inductive Beside (g : Graph κ) :
    Result (Frontier Q κ × Option (Nat × κ)) → Result (Search.Visit Q κ) → Prop
  | broken {why : Failure} {y : Result (Search.Visit Q κ)} : Beside g (.error why) y
  | onward {f : Frontier Q κ} {found : Option (Nat × κ)} :
    (∀ x ∈ found, g.isGoal x.1 = false) → Beside g (.ok (f, found)) (.ok (.onward f))
  | arrived {f : Frontier Q κ} {x : Nat × κ} {r : Route κ} :
    g.isGoal x.1 = true → r.path.getLast? = some x.1 → r.cost = x.2 →
    Beside g (.ok (f, some x)) (.ok (.arrived r))

variable {q : Query κ} {f : Frontier Q κ} {i : Nat} {d : Discovery κ}

/-- An open entry comes out at its cost, which is within the budget, and once it is closed the path to
    it can be read off. -/
theorem visit_beside {cost : κ} (hd : f.table.entries[i]? = some d)
    (hopen : d.closed = false → cost = d.cost ∧ Cost.within (some q.maxCost) d.cost = true ∧
      ∀ t', f.table.SetAt i { d with closed := true } t' →
        ∃ path, t'.pathTo i = .ok path ∧ path.getLast? = some d.node) :
    Beside q.graph (visit q f i cost) (Search.visit q.toGoal f i) := by
  obtain ⟨-, hclose⟩ | ⟨hc, t', hclose, hset, -⟩ := Table.close_cases hd
  · -- a stale copy, which both pass over
    simp only [visit, Search.visit, hclose, Result.ok_bind]
    apply Beside.onward
    intro x hx
    cases hx
  obtain ⟨rfl, ha, hpath⟩ := hopen hc
  obtain ⟨path, hpath, hlast⟩ := hpath t' hset
  simp only [visit, Search.visit, hclose, Result.ok_bind, Query.toGoal_graph, Query.toGoal_maxCost, ha,
    Query.rank_toGoal, hpath]
  cases hexpand : Frontier.expand q.graph (some q.maxCost) (fun _ c => .ok c) d.node i d.cost
    (⟨t', f.queue⟩ : Frontier Q κ) with
  | error why => exact .broken
  | ok f' =>
    cases hgoal : q.graph.isGoal d.node with
    | true => exact .arrived hgoal hlast rfl
    | false =>
      apply Beside.onward
      simpa using hgoal

variable [PriorityQueue.Lawful Q]

theorem State.At.beside {st : State Q κ} {v : View κ} {top : Popped Q κ Nat} {M : Multiset (κ × Nat)}
    (hat : st.At v) (h : v.Tracked q.graph q.start) (hw : v.Within (some q.maxCost))
    (hM : v.queued = (top.priority, top.value) ::ₘ M)
    (hleast : ∀ x ∈ v.queued, value top.priority ≤ value x.1) :
    Beside q.graph (visit q ⟨st.frontier.table, top.rest⟩ top.value top.priority)
      (Search.visit q.toGoal ⟨st.frontier.table, top.rest⟩ top.value) := by
  obtain ⟨d, hd⟩ := h.known (top.priority, top.value) (by simp [hM])
  have htakes : v.Takes top.priority top.value d M := ⟨hM, hleast, hd⟩
  rw [← hat.table_eq]
  apply visit_beside hd
  intro hc
  refine ⟨?_, Cost.within_iff.mpr (hw _ d hd), ?_⟩
  · apply Cost.value_injective
    simpa [Discovery.total] using htakes.eq_total hat.pending hc
  · intro t' hset
    obtain ⟨path, hpath, -, -, hlast, -⟩ := (h.routed.close hd hc hset).exists_pathTo List.mem_cons_self
    exact ⟨path, hpath, hlast⟩

/-- From the same table and queue, and with no goal reported so far, the search for a goal answers with
    the first goal that the other search reports. -/
theorem runFor_answersFirst {n : Nat} {st : State Q κ} {ss : Search.State Q κ} {v : View κ}
    {found : List (Nat × κ)} (h : v.Tracked q.graph q.start) (hat : st.At v)
    (hw : v.Within (some q.maxCost)) (hss : ss.frontier = st.frontier)
    (hno : ∀ x ∈ st.found, q.graph.isGoal x.1 = false) (hrun : (runFor q n st).outcome = .ok found) :
    AnswersFirst q.graph found (Search.runFor q.toGoal n ss).outcome := by
  induction n generalizing st ss v with
  | zero => cases hrun
  | succ n ih =>
    have hsound : st.frontier.Sound q.graph q.start v.queued := ⟨hat.table_eq ▸ h.indexed, hat.holds⟩
    obtain ⟨-, hpop⟩ | ⟨top, M, hpop, hM, hleast, -, -⟩ := hsound.pop_cases
    · -- nothing is left, so neither search goes on
      have hpop' : PriorityQueue.pop ss.frontier.queue = .ok none := by rw [hss, hpop]
      have hfound : st.found = found := by
        rw [runFor, (Proceeds.exhausted hpop).step_eq] at hrun
        exact Except.ok.inj hrun
      have houtcome : (Search.runFor q.toGoal (n + 1) ss).outcome = .ok none := by
        rw [Search.runFor, (Search.Proceeds.exhausted hpop').step_eq]
      rw [houtcome, ← hfound]
      exact .of_none hno
    have hstep := (Proceeds.visited (q := q) hpop).step_eq
    have hstep' : Search.step q.toGoal ss = _ := (Search.Proceeds.visited (hss ▸ hpop) rfl).step_eq
    have hbeside := hat.beside h hw hM hleast
    rw [runFor] at hrun
    rw [Search.runFor, hstep', hss]
    generalize visit q ⟨st.frontier.table, top.rest⟩ top.value top.priority = x at hstep hbeside
    generalize Search.visit q.toGoal ⟨st.frontier.table, top.rest⟩ top.value = y at hbeside ⊢
    cases hbeside with
    | broken =>
      rw [hstep] at hrun
      cases hrun
    | @onward f found hfound =>
      obtain ⟨_, hend, -⟩ | ⟨st', v', hgo, hm, hat'⟩ := step_cases_view q h hat
      · rw [hstep] at hend
        cases hend
      obtain rfl := Progress.going.inj (hstep.symm.trans hgo)
      rw [hgo] at hrun
      apply ih (hm.tracked h) hat' (hm.within hw) rfl _ hrun
      intro x hx
      rcases List.mem_append.mp hx with hx | hx
      · exact hno x hx
      · exact hfound x (Option.mem_toList.mp hx)
    | @arrived f x r hgoal hlast hcost =>
      rw [hstep] at hrun
      exact .of_goal hno hgoal (prefix_of_runFor hrun) hlast hcost

theorem run_answersFirst {found : List (Nat × κ)} (hq : 0 ≤ value q.maxCost)
    (hrun : (run Q q).outcome = .ok found) :
    AnswersFirst q.graph found (Search.run Q q.toGoal).outcome := by
  obtain ⟨⟨table, queue⟩, hf, hsound, htable⟩ :=
    Search.Frontier.exists_start (Q := Q) q.graph q.start Cost.zero
  cases htable
  have hat : State.At ⟨⟨_, queue⟩, 0, [], []⟩ (.start q.graph q.start Cost.zero) :=
    ⟨rfl, rfl, hsound.holds, .start _ _ Cost.value_zero, rfl⟩
  have hf' : (Frontier.start q.toGoal.graph q.toGoal.start (q.toGoal.estimate q.toGoal.start) :
      Result (Frontier Q κ)) = _ := hf
  rw [run, hf] at hrun
  rw [Search.run, hf']
  apply runFor_answersFirst (.start _ _ _) hat _ rfl (List.forall_mem_nil _) hrun
  apply View.Within.start
  exact affordable_some.mpr hq

/-- On queues of type `Q` the search for a goal within the budget answers with the first goal that the
    search for all nodes reports, if that one reports anything. -/
def Agree (Q : Type) [PriorityQueue Q κ Nat] (q : Query κ) : Prop :=
  ∀ found, (run Q q).outcome = .ok found →
    AnswersFirst q.graph found (Search.run Q q.toGoal).outcome

/-- The two searches agree, for any graph and keys and any budget that allows to stay at the start: over
    words on either queue, and over signed words of 64 bits on the stable one. -/
theorem dijkstra_answersFirst :
    (∀ {w : Nat} {S : Type → Type} [Storage S], w ≤ 128 → ∀ q : Query (BitVec w),
      Agree (Radix w Nat S) q ∧ Agree (Stable (BitVec w) Nat) q) ∧
    ∀ q : Query Int64, 0 ≤ q.maxCost → Agree (Stable Int64 Nat) q := by
  constructor
  · intro w S _ hw q
    have : PriorityQueue.Lawful (Radix w Nat S) := Radix.lawful hw
    have hq : 0 ≤ value q.maxCost := Cost.value_nonneg q.maxCost
    exact ⟨fun _ => run_answersFirst hq, fun _ => run_answersFirst hq⟩
  · intro q hq
    exact fun _ => run_answersFirst ((Cost.le_iff_value_le 0 q.maxCost).mp hq)

/-- Two goals at one cost, of which the one that comes out first is answered; and a weight below zero,
    which leads to a goal that is equal to a node met before. -/
theorem dijkstra_answersFirst_ties :
    let words : Query (BitVec 8) := ⟨.ofLists [⟨0, 1, 4⟩, ⟨0, 2, 4⟩, ⟨1, 3, 1⟩] [1, 2] #[], 0, 9⟩
    let signed : Query Int64 :=
      ⟨.ofLists [⟨0, 1, 5⟩, ⟨1, 2, -3⟩, ⟨0, 3, 4⟩] [3, 2] #[0, 1, 2, 2], 0, 9⟩
    (run (Radix 8 Nat) words).outcome = .ok [(0, 0), (2, 4), (1, 4), (3, 5)] ∧
    (Search.run (Radix 8 Nat) words.toGoal).outcome = .ok (some ⟨[0, 2], 4⟩) ∧
    Agree (Radix 8 Nat) words ∧ Agree (Stable (BitVec 8) Nat) words ∧
    (run (Stable Int64 Nat) signed).outcome = .ok [(0, 0), (3, 4), (1, 5)] ∧
    (Search.run (Stable Int64 Nat) signed.toGoal).outcome = .ok (some ⟨[0, 3], 4⟩) ∧
    Agree (Stable Int64 Nat) signed := by
  have hwords := dijkstra_answersFirst.1 (S := Arena) (by decide : 8 ≤ 128)
  exact ⟨by rfl, by rfl, (hwords _).1, (hwords _).2, by rfl, by rfl,
    dijkstra_answersFirst.2 _ (by decide)⟩

end Reach
end MonotoneQueue

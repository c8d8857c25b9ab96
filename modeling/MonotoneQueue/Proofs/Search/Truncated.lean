import Mathlib
import MonotoneQueue.Proofs.Search.Course
import MonotoneQueue.Proofs.Search.Filter

/- A bound on pops only cuts a search short. With the bound and without it a search does the same as long
   as the bound is not reached, since no visit looks at it. The bound is tested when one element more has
   come out of the queue, so a search that takes no more elements out than it allows never meets it, and
   any other search stops at it, before that element is visited (`runFor_cutAt`). What a search counts without
   the bound is every element that comes out of its queue (`Course.pops_eq`). Nothing is asked of the weights,
   the keys or the estimates. -/
namespace MonotoneQueue

/-- The same search, stopped after so many pops. -/
def Query.stoppedAfter {κ : Type} (q : Query κ) (most : Nat) : Query κ :=
  { q with limits := q.limits.set (.maxPops most) }

namespace Search

variable {κ : Type}

/-- What a bound on pops makes of a search that comes to `full` without it. -/
structure Run.CutAt (full : Run κ) (most : Nat) (cut : Run κ) : Prop where
  /-- A search that takes no more elements out than the bound allows is the same with it. -/
  same : full.pops ≤ most → cut = full
  /-- Any other search stops at the bound. It has told what the search without the bound tells first,
      and it finds no way, but nothing breaks off. -/
  stopped : most < full.pops →
    ∃ log, log <+: full.log ∧ cut = ⟨most, log ++ [.stopped most], .ok none⟩

theorem Run.CutAt.refl {full : Run κ} {most : Nat} (h : full.pops ≤ most) : full.CutAt most full :=
  ⟨fun _ => rfl, fun hlt => absurd h (Nat.not_le.mpr hlt)⟩

variable [LE κ] [Cost κ] [DecidableLE κ] {Q : Type} [PriorityQueue Q κ Nat] {q : Query κ}

/-! A search goes on from what it has counted and told. -/

/-- The run has taken out as many elements and told as much, and perhaps more. -/
def Run.Extends (run : Run κ) (pops : Nat) (log : List (Message κ)) : Prop :=
  pops ≤ run.pops ∧ log <+: run.log

/-- If all loops of `n` steps go on from where they start, so does one step more that visits something. -/
theorem extends_of_visit {n : Nat} {s : State Q κ} {log : List (Message κ)} {r : Result (Visit Q κ)}
    (hstep : step q s = s.afterVisit log r)
    (ih : ∀ s : State Q κ, (runFor q n s).Extends s.pops s.log) :
    (runFor q (n + 1) s).Extends (s.pops + 1) log := by
  rw [runFor, hstep]
  cases r with
  | error why => exact ⟨Nat.le_refl _, List.prefix_refl _⟩
  | ok x =>
    cases x with
    | onward f => exact ih ⟨f, s.pops + 1, log⟩
    | arrived route => exact ⟨Nat.le_refl _, List.prefix_append _ _⟩

theorem runFor_extends (n : Nat) (s : State Q κ) : (runFor q n s).Extends s.pops s.log := by
  induction n generalizing s with
  | zero => exact ⟨Nat.le_refl _, List.prefix_refl _⟩
  | succ n ih =>
    have hproceeds := step_proceeds q s
    generalize hstep : step q s = p at hproceeds
    cases hproceeds with
    | broken hpop =>
      rw [runFor, hstep]
      exact ⟨Nat.le_refl _, List.prefix_refl _⟩
    | exhausted hpop =>
      rw [runFor, hstep]
      exact ⟨Nat.le_refl _, List.prefix_append _ _⟩
    | stopped hpop hreached =>
      rw [runFor, hstep]
      refine ⟨Nat.le_refl _, ?_⟩
      rw [List.append_assoc]
      exact List.prefix_append _ _
    | visited hpop hreached =>
      have hlater := extends_of_visit hstep ih
      exact ⟨Nat.le_of_succ_le hlater.1, (List.prefix_append _ _).trans hlater.2⟩

/-! With the bound and without it. -/

/-- Below the bound, from one state, the search with the bound comes to what the bound makes of the
    search without it. -/
theorem runFor_cutAt {most n : Nat} {s : State Q κ} (h : s.pops ≤ most) :
    (runFor q.unhurried n s).CutAt most (runFor (q.stoppedAfter most) n s) := by
  induction n generalizing s with
  | zero => exact .refl h
  | succ n ih =>
    have hproceeds := step_proceeds q.unhurried s
    generalize hfull : step q.unhurried s = p at hproceeds
    cases hproceeds with
    | broken hpop =>
      rw [runFor, runFor, hfull, (Proceeds.broken hpop).step_eq]
      exact .refl h
    | exhausted hpop =>
      rw [runFor, runFor, hfull, (Proceeds.exhausted hpop).step_eq]
      exact .refl h
    | stopped hpop hreached => cases hreached
    | @visited top hpop =>
      by_cases hmost : most ≤ s.pops
      · -- the element is not visited any more, and without the bound it is
        have hreached : (q.stoppedAfter most).limits.reached s.pops = true := decide_eq_true hmost
        have hlater := extends_of_visit hfull (runFor_extends n)
        refine ⟨fun hle => ?_, fun _ => ⟨_, hlater.2, ?_⟩⟩
        · have := hlater.1
          omega
        · rw [runFor, (Proceeds.stopped hpop hreached).step_eq, Nat.le_antisymm h hmost]
      · have hreached : (q.stoppedAfter most).limits.reached s.pops = false :=
          decide_eq_false hmost
        have hcut : step (q.stoppedAfter most) s = step q.unhurried s :=
          (Proceeds.visited hpop hreached).step_eq.trans hfull.symm
        rw [runFor, runFor, hcut, hfull]
        generalize visit q.unhurried (⟨s.frontier.table, top.rest⟩ : Frontier Q κ) top.value = x
        have hnext : s.pops + 1 ≤ most := Nat.lt_of_not_le hmost
        cases x with
        | error why => exact .refl hnext
        | ok x =>
          cases x with
          | onward f => exact ih hnext
          | arrived route => exact .refl hnext

theorem run_cutAt (Q : Type) [PriorityQueue Q κ Nat] (q : Query κ) (most : Nat) :
    (run Q q.unhurried).CutAt most (run Q (q.stoppedAfter most)) := by
  -- both start alike
  have hfull : (Frontier.start q.unhurried.graph q.unhurried.start
      (q.unhurried.estimate q.unhurried.start) : Result (Frontier Q κ)) =
      Frontier.start q.graph q.start (q.estimate q.start) := rfl
  have hcut : (Frontier.start (q.stoppedAfter most).graph (q.stoppedAfter most).start
      ((q.stoppedAfter most).estimate (q.stoppedAfter most).start) : Result (Frontier Q κ)) =
      Frontier.start q.graph q.start (q.estimate q.start) := rfl
  rw [run, run, hfull, hcut]
  cases (Frontier.start q.graph q.start (q.estimate q.start) : Result (Frontier Q κ)) with
  | error why => exact .refl (Nat.zero_le _)
  | ok f => exact runFor_cutAt (Nat.zero_le _)

/-- On queues of type `Q` the bound on pops cuts the search short, which otherwise comes to an end of its
    own and counts all that comes out of its queue, and makes no other difference. -/
structure Truncates (Q : Type) [PriorityQueue Q κ Nat] (q : Query κ) (most : Nat) : Prop where
  ends : ∀ cause, (run Q q.unhurried).outcome ≠ .error (.defect cause)
  counts : ∃ (f : Frontier Q κ) (passed : List (State Q κ)),
    Frontier.start q.graph q.start (q.estimate q.start) = .ok f ∧
    Course (step q.unhurried) ⟨f, 0, []⟩ passed (run Q q.unhurried) ∧
    (run Q q.unhurried).pops = passed.countP fun st => st.frontier.yields
  cutAt : (run Q q.unhurried).CutAt most (run Q (q.stoppedAfter most))

theorem run_truncates [PriorityQueue.Lawful Q] (q : Query κ) (most : Nat) : Truncates Q q most := by
  obtain ⟨f, passed, hf, -, hcourse⟩ := exists_run_course Q q.unhurried
  have hpops := hcourse.pops_eq fun _ => rfl
  rw [Nat.zero_add] at hpops
  exact ⟨run_not_defect Q _, ⟨f, passed, hf, hcourse, hpops⟩, run_cutAt Q q most⟩

/-- A bound on pops only cuts a search short, whatever the graph, the estimates and the budget are: over
    words on either queue, and over signed words of 64 bits on the stable one. -/
theorem maxPops_truncates :
    (∀ {w : Nat} {S : Type → Type} [Storage S], w ≤ 128 → ∀ (q : Query (BitVec w)) (most : Nat),
      Truncates (Radix w Nat S) q most ∧ Truncates (Stable (BitVec w) Nat) q most) ∧
    ∀ (q : Query Int64) (most : Nat), Truncates (Stable Int64 Nat) q most := by
  constructor
  · intro w S _ hw q most
    have : PriorityQueue.Lawful (Radix w Nat S) := Radix.lawful hw
    exact ⟨run_truncates q most, run_truncates q most⟩
  · exact fun q most => run_truncates q most

/-- The third pop comes upon a sum that overflows. With a bound of two it comes out of the queue, which
    tells of the bucket that it emptied, and is not visited. -/
theorem maxPops_truncates_overflow :
    let g : Graph (BitVec 8) := .ofLists [⟨0, 1, 9⟩, ⟨0, 2, 200⟩, ⟨1, 0, 1⟩, ⟨2, 3, 100⟩] [3] #[]
    let q : Query (BitVec 8) := .dijkstra g 0 {}
    (run (Radix 8 Nat) q).outcome = .error .costOverflow ∧ (run (Radix 8 Nat) q).pops = 3 ∧
    (run (Radix 8 Nat) (q.stoppedAfter 2)).outcome = .ok none ∧
    (run (Radix 8 Nat) (q.stoppedAfter 2)).log =
      [.emptied ⟨4, 9, 0⟩, .emptied ⟨8, 200, 0⟩, .stopped 2] ∧
    Truncates (Radix 8 Nat) q 2 ∧ Truncates (Radix 8 Nat) q 3 ∧
    Truncates (Stable (BitVec 8) Nat) q 0 := by
  have hwords := maxPops_truncates.1 (S := Arena) (by decide : 8 ≤ 128)
  exact ⟨by rfl, by rfl, by rfl, by rfl, (hwords _ _).1, (hwords _ _).1, (hwords _ _).2⟩

end Search
end MonotoneQueue

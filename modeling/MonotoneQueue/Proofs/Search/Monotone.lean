import Mathlib
import MonotoneQueue.Proofs.Radix.Lawful
import MonotoneQueue.Proofs.Reach.Ends
import MonotoneQueue.Proofs.Search.Ends

/- Searches on monotone queues. A queue refuses what is below the element that came out last, and what
   a search puts in is the rank of an edge's target. When an entry is closed, the priority that came out
   for it is its cost plus its estimate (`View.Takes.eq_total`), also where stale copies were queued for
   it, so with consistent estimates none of its edges leads below (`View.Takes.le_rank`). Nothing is
   refused then, and all that a search can break off for is a sum that overflows. -/
namespace MonotoneQueue

open Cost (value)

/-- If there is no answer, it is for a sum that overflows. -/
def Result.OverflowsOnly {α : Type} (r : Result α) : Prop :=
  ∀ why, r = .error why → why = .costOverflow

variable {κ : Type} [LE κ] [Cost κ]

theorem Search.Ends.overflowsOnly {q : Query κ} {v : View κ} {run : Run κ} (h : Ends q v run)
    (hp : Pending q.guess v.table v.queued) (hcons : q.graph.Consistent q.guess) :
    run.outcome.OverflowsOnly := by
  intro why hwhy
  cases h with
  | exhausted => exact nomatch hwhy
  | stopped => exact nomatch hwhy
  | arrived => exact nomatch hwhy
  | broken htakes hc ha he hbreaks =>
    rw [← Except.error.inj hwhy]
    exact (htakes.overflows hp hc hcons he hbreaks).1

theorem Reach.Ends.overflowsOnly {q : Reach.Query κ} {v : Search.View κ} {run : Reach.Run κ}
    (h : Reach.Ends q v run) (hp : Search.Pending (fun _ => 0) v.table v.queued)
    (hpos : q.graph.NonNegative) : run.outcome.OverflowsOnly := by
  intro why hwhy
  cases h with
  | exhausted => exact nomatch hwhy
  | broken htakes hc he hbreaks =>
    rw [← Except.error.inj hwhy]
    exact (htakes.overflows hp hc hpos.consistent he hbreaks).1

variable {Q : Type} [PriorityQueue Q κ Nat] [PriorityQueue.Lawful Q] [DecidableLE κ]

theorem Search.run_overflowsOnly {q : Query κ} (hH : Respects q.graph q.start q.guess)
    (hcons : q.graph.Consistent q.guess) : (run Q q).outcome.OverflowsOnly := by
  obtain ⟨v, -, -, hp, hends⟩ := exists_ends Q q (fun v => Pending q.guess v.table v.queued)
    (.start _ _ rfl) (fun _ hp hm => hm.pending hH hp)
  exact hends.overflowsOnly hp hcons

theorem Reach.run_overflowsOnly {q : Reach.Query κ} (hpos : q.graph.NonNegative) :
    (Reach.run Q q).outcome.OverflowsOnly := by
  obtain ⟨v, -, hp, -, hends⟩ := Reach.exists_ends Q q (fun _ => True) trivial fun _ _ _ => trivial
  exact hends.overflowsOnly hp hpos

namespace Search

/-- On a radix heap no search is refused a push, whatever the keys and the limits are, if its estimates
    are consistent and the same for equal nodes. Without estimates this is so for every graph. -/
theorem radix_overflowsOnly {w : Nat} {S : Type → Type} [Storage S] (hw : w ≤ 128) (g : Graph (BitVec w))
    (s : Nat) :
    (∀ limits, (run (Radix w Nat S) (.dijkstra g s limits)).outcome.OverflowsOnly) ∧
    (∀ most, (Reach.run (Radix w Nat S) ⟨g, s, most⟩).outcome.OverflowsOnly) ∧
    ∀ (estimate : Nat → BitVec w) (limits : Limits (BitVec w)),
      (Respects g s fun n => value (estimate n)) → (g.Consistent fun n => value (estimate n)) →
      (run (Radix w Nat S) (.astar g estimate s limits)).outcome.OverflowsOnly := by
  have : PriorityQueue.Lawful (Radix w Nat S) := Radix.lawful hw
  refine ⟨?_, ?_, ?_⟩
  · intro limits
    have hguess := Query.guess_dijkstra g s limits
    apply run_overflowsOnly
    · rw [hguess]
      exact .zero g s
    · rw [hguess]
      exact g.nonNegative_words.consistent
  · exact fun most => Reach.run_overflowsOnly g.nonNegative_words
  · intro estimate limits hH hcons
    exact run_overflowsOnly hH hcons

/-- Two nodes are equal, and a stale copy of theirs comes out. Where the search goes on behind the goal
    a sum is more than a byte. -/
theorem radix_overflowsOnly_bytes :
    let g : Graph (BitVec 8) :=
      .ofLists [⟨0, 1, 200⟩, ⟨0, 3, 9⟩, ⟨1, 2, 100⟩, ⟨2, 4, 150⟩] [2] #[0, 1, 2, 1]
    let estimate : Nat → BitVec 8 := Graph.estimates #[20, 11, 0, 11]
    (run (Radix 8 Nat) (.astar g estimate 0 {})).outcome = .ok (some ⟨[0, 1, 2], 109⟩) ∧
    (run (Radix 8 Nat) (.astar g estimate 0 {})).outcome.OverflowsOnly ∧
    (Reach.run (Radix 8 Nat) ⟨g, 0, 255⟩).outcome = .error .costOverflow ∧
    (Reach.run (Radix 8 Nat) ⟨g, 0, 255⟩).outcome.OverflowsOnly := by
  have hbytes := radix_overflowsOnly (S := Arena) (by decide : 8 ≤ 128)
  refine ⟨by rfl, (hbytes _ _).2.2 _ _ ?_ ?_, by rfl, (hbytes _ _).2.1 _⟩
  · unfold Respects
    decide
  · unfold Graph.Consistent
    decide

end Search
end MonotoneQueue

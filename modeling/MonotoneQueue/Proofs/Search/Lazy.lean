import Mathlib
import MonotoneQueue.Proofs.Search.Expansions

/- What holds whenever a search goes back to its queue. Copies of an entry are not taken out of the queue when a
   better way is found, nor when the entry is closed, so the table and the queue have to be told together
   (`Upheld`): the index finds the stored nodes, every open entry is queued under its total and under nothing
   less, and the way to every entry comes from a closed one. Closed entries stay as they are (`Table.Keeps`). All
   of this is true at the start and handed on by every move, hence along the whole course of a search
   (`Course.upholds`), whatever the weights and the estimates are, if equal nodes have equal estimates. -/
namespace MonotoneQueue.Search

open Cost (value)
open PriorityQueue.Lawful (Holds)

variable {κ : Type}

/-- Entries that are closed in the first table are the same in the second. -/
def Table.Keeps (t t' : Table κ) : Prop :=
  ∀ (i : Nat) (d : Discovery κ), t.entries[i]? = some d → d.closed = true → t'.entries[i]? = some d

variable [LE κ] [Cost κ] {g : Graph κ} {s : Nat} {budget : Option κ} {H : Nat → Int} {v v' : View κ}

/-- What a search from `s` upholds between two visits. -/
structure Upheld (g : Graph κ) (s : Nat) (H : Nat → Int) (t : Table κ) (M : Multiset (κ × Nat)) : Prop where
  /-- The index finds every entry by the key of its node, and nothing else. -/
  index_iff : ∀ k i, t.index[k]? = some i ↔ ∃ d : Discovery κ, t.entries[i]? = some d ∧ g.key d.node = k
  /-- No two stored nodes are equal. -/
  position_unique : ∀ (i j : Nat) (d d' : Discovery κ), t.entries[i]? = some d → t.entries[j]? = some d' →
    g.key d.node = g.key d'.node → i = j
  start : ∃ d : Discovery κ, t.entries[0]? = some d ∧ d.node = s
  known : ∀ x ∈ M, x.2 < t.size
  /-- Every open entry is queued under its cost and the estimate of its node. -/
  queued : ∀ (i : Nat) (d : Discovery κ), t.entries[i]? = some d → d.closed = false →
    ∃ p, (p, i) ∈ M ∧ value p = value d.cost + H d.node
  /-- It is queued under nothing less. -/
  le : ∀ (i : Nat) (d : Discovery κ), t.entries[i]? = some d → d.closed = false →
    ∀ p, (p, i) ∈ M → value d.cost + H d.node ≤ value p
  /-- The way to every entry but that of the start comes along an edge from a closed one. -/
  parent : ∀ (i : Nat) (d : Discovery κ), t.entries[i]? = some d → i ≠ 0 →
    ∃ j d', d.parent = some j ∧ t.entries[j]? = some d' ∧ d'.closed = true ∧
      ∃ e ∈ g.leaving d'.node, g.key e.target = g.key d.node ∧ value d.cost = value d'.cost + value e.weight

theorem View.Tracked.upheld (h : v.Tracked g s) (hp : Pending H v.table v.queued) :
    Upheld g s H v.table v.queued := by
  constructor
  case index_iff => exact h.indexed.index_iff
  case position_unique => exact fun i j d d' hd hd' hk => h.indexed.position_unique hd hd' hk
  case start =>
    obtain ⟨d, hd, hnode, -⟩ := h.routed.root
    exact ⟨d, hd, hnode⟩
  case known =>
    intro x hx
    obtain ⟨d, hd⟩ := h.known x hx
    exact (Array.getElem?_eq_some_iff.mp hd).1
  case queued => exact hp.queued
  case le => exact fun i d hd hopen p hmem => hp.le (p, i) hmem d hd hopen
  case parent =>
    intro i d hd hi
    -- a closed entry was reached from one closed before it, an open one from any of those that are closed
    rcases h.routed.reached_of_entry hd with ⟨hzero, -⟩ | ⟨x, hx, e, he, hparent, hk, hcost⟩
    · exact absurd hzero hi
    · obtain ⟨hentry, hclosed⟩ := (h.routed.mem_done x.1 x.2).mp hx
      exact ⟨x.1, x.2, hparent, hentry, hclosed, e, he, hk, hcost⟩

/-! Moves. -/

theorem Move.closed_subset (hm : Move g s budget H v v') : v.closed ⊆ v'.closed := by
  cases hm with
  | pass => exact List.Subset.refl _
  | visit => exact List.subset_cons_self _ _

theorem View.Tracked.keeps (h : v.Tracked g s) (h' : v'.Tracked g s) (hsub : v.closed ⊆ v'.closed) :
    v.table.Keeps v'.table := by
  intro i d hd hclosed
  have hmem : (i, d) ∈ v'.closed := hsub ((h.routed.mem_done i d).mpr ⟨hd, hclosed⟩)
  exact ((h'.routed.mem_done i d).mp hmem).1

/-! Whole courses. -/

section

variable {σ ρ Q : Type} {step : σ → Progress σ ρ} {At : σ → View κ → Prop}
  {End : View κ → ρ → Prop} {st : σ} {passed : List σ} {r : ρ}

/-- Whenever the search goes back to its queue, of which `contents` tells what it holds, everything is upheld,
    and the closed entries are those of all later times. -/
structure Upholds (g : Graph κ) (s : Nat) (H : Nat → Int) (contents : Q → Multiset (κ × Nat))
    (frontier : σ → Frontier Q κ) (passed : List σ) : Prop where
  upheld : ∀ st ∈ passed, Upheld g s H (frontier st).table (contents (frontier st).queue)
  keeps : passed.Pairwise fun st st' => (frontier st).table.Keeps (frontier st').table

/-- All states that a search passes are those of tracked views, in which what was closed before is closed. -/
theorem Course.exists_view (h : Course step st passed r) (hstep : Steps g s budget H step At End)
    (hH : Respects g s H) (ht : v.Tracked g s) (hp : Pending H v.table v.queued) (hat : At st v) :
    ∀ st' ∈ passed, ∃ v' : View κ, v'.Tracked g s ∧ Pending H v'.table v'.queued ∧ At st' v' ∧
      v.closed ⊆ v'.closed := by
  induction h generalizing v with
  | ended =>
    intro st' hst'
    rw [List.mem_singleton.mp hst']
    exact ⟨v, ht, hp, hat, List.Subset.refl _⟩
  | @going st st₁ passed r hgoing _ ih =>
    intro st' hst'
    rcases List.mem_cons.mp hst' with rfl | hlater
    · exact ⟨v, ht, hp, hat, List.Subset.refl _⟩
    obtain ⟨v₁, hm, hat₁⟩ := hstep.of_going ht hat hgoing
    obtain ⟨v', ht', hp', hat', hsub⟩ := ih (hm.tracked ht) (hm.pending hH hp) hat₁ st' hlater
    exact ⟨v', ht', hp', hat', List.Subset.trans hm.closed_subset hsub⟩

theorem Course.upholds {contents : Q → Multiset (κ × Nat)} {frontier : σ → Frontier Q κ}
    (h : Course step st passed r) (hstep : Steps g s budget H step At End)
    (hfrontier : ∀ {st v}, At st v → v.table = (frontier st).table ∧ v.queued = contents (frontier st).queue)
    (hH : Respects g s H) (ht : v.Tracked g s) (hp : Pending H v.table v.queued) (hat : At st v) :
    Upholds g s H contents frontier passed := by
  constructor
  case upheld =>
    intro st' hst'
    obtain ⟨v', ht', hp', hat', -⟩ := h.exists_view hstep hH ht hp hat st' hst'
    obtain ⟨htable, hqueued⟩ := hfrontier hat'
    rw [← htable, ← hqueued]
    exact ht'.upheld hp'
  case keeps =>
    induction h generalizing v with
    | ended => exact List.pairwise_singleton _ _
    | @going st st₁ passed r hgoing hcourse ih =>
      obtain ⟨v₁, hm, hat₁⟩ := hstep.of_going ht hat hgoing
      have ht₁ := hm.tracked ht
      have hp₁ := hm.pending hH hp
      refine List.pairwise_cons.mpr ⟨?_, ih ht₁ hp₁ hat₁⟩
      -- what is closed before this step is closed in the view after it, and so in all later ones
      intro st' hst'
      obtain ⟨v', ht', -, hat', hsub⟩ := hcourse.exists_view hstep hH ht₁ hp₁ hat₁ st' hst'
      rw [← (hfrontier hat).1, ← (hfrontier hat').1]
      exact ht.keeps ht' (List.Subset.trans hm.closed_subset hsub)

end

/-! Searches. -/

variable [DecidableLE κ] {Q : Type} [PriorityQueue Q κ Nat]

/-- The search takes its steps from states in which everything is upheld. -/
def DeletesLazily (contents : Q → Multiset (κ × Nat)) (q : Query κ) : Prop :=
  ∃ (f : Frontier Q κ) (passed : List (State Q κ)),
    Frontier.start q.graph q.start (q.estimate q.start) = .ok f ∧
    Course (step q) ⟨f, 0, []⟩ passed (run Q q) ∧
    Upholds q.graph q.start q.guess contents State.frontier passed

theorem run_deletesLazily [PriorityQueue.Lawful Q] {contents : Q → Multiset (κ × Nat)}
    (hcontents : ∀ {queue : Q} {M}, Holds queue M → M = contents queue) (q : Query κ)
    (hH : Respects q.graph q.start q.guess) : DeletesLazily contents q := by
  obtain ⟨f, passed, hf, hcourse, -⟩ := (run_terminates q : Terminates Q q).course
  obtain ⟨⟨table, queue⟩, hf', hsound, htable⟩ :=
    Frontier.exists_start (Q := Q) q.graph q.start (q.estimate q.start)
  obtain rfl := Except.ok.inj (hf'.symm.trans hf)
  cases htable
  refine ⟨_, passed, hf, hcourse, ?_⟩
  have hat : State.At q ⟨⟨_, queue⟩, 0, []⟩ (.start q.graph q.start (q.estimate q.start)) :=
    ⟨rfl, rfl, hsound.holds, fun _ hx => nomatch hx⟩
  exact hcourse.upholds (step_cases_view q) (fun hat => ⟨hat.table_eq, hcontents hat.holds⟩) hH (.start _ _ _)
    (.start _ _ rfl) hat

end MonotoneQueue.Search

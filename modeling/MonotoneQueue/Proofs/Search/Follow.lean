import Mathlib
import MonotoneQueue.Proofs.Graph.Least
import MonotoneQueue.Proofs.PriorityQueue.Lawful
import MonotoneQueue.Proofs.Search.Table
import MonotoneQueue.Search.Frontier

/- What following an edge does, said of a table and of the multiset of what is queued (`Follows`), and
   what an expansion does, edge by edge (`Expands`). A property that every edge hands on holds after all
   of them (`Expands.carries`), whichever lawful queue the search runs on. -/
namespace MonotoneQueue.Search

open Cost (value)
open PriorityQueue.Lawful (Holds Accepts)

variable {κ : Type} [LE κ] [Cost κ]

/-- A rank is the cost plus an integer that goes with the node, unless the type has no such cost. -/
def Ranks (rank : Nat → κ → Result κ) (H : Nat → Int) : Prop :=
  ∀ n c, (rank n c = .error .costOverflow ∧ ∀ p : κ, value p ≠ value c + H n) ∨
    ∃ p, rank n c = .ok p ∧ value p = value c + H n

/-- The way along an edge from a node at cost `c` has a cost that the type does not have, or it is
    within the budget and its rank is none of the type. -/
def Overflows (budget : Option κ) (H : Nat → Int) (c : Int) (e : Edge κ) : Prop :=
  (∀ x : κ, value x ≠ c + value e.weight) ∨
  (Affordable budget (c + value e.weight) ∧ ∀ x : κ, value x ≠ c + value e.weight + H e.target)

/-- What following an edge from the entry at `i`, at cost `base`, makes of a table and of what is
    queued. -/
inductive Follows (g : Graph κ) (budget : Option κ) (H : Nat → Int) (i : Nat) (base : κ)
    (e : Edge κ) (t : Table κ) (M : Multiset (κ × Nat)) : Table κ → Multiset (κ × Nat) → Prop
  /-- The way is over the budget. -/
  | refused : ¬ Affordable budget (value base + value e.weight) → Follows g budget H i base e t M t M
  /-- The target is closed or known at no higher cost. -/
  | known {j : Nat} {d : Discovery κ} :
    t.entries[j]? = some d → g.key d.node = g.key e.target →
    d.closed = true ∨ value d.cost ≤ value base + value e.weight →
    Follows g budget H i base e t M t M
  /-- The way is recorded and its target is queued. -/
  | improved {j : Nat} {d : Discovery κ} {cost p : κ} {t' : Table κ} :
    t.SetAt j d t' → t.Improves g e.target i cost j d →
    value cost = value base + value e.weight → value p = value cost + H e.target →
    Affordable budget (value cost) → Follows g budget H i base e t M t' ((p, j) ::ₘ M)

namespace Follows

variable {g : Graph κ} {budget : Option κ} {H : Nat → Int} {i : Nat} {base : κ} {e : Edge κ}
  {t t' : Table κ} {M M' : Multiset (κ × Nat)}

theorem card_le (h : Follows g budget H i base e t M t' M') : M'.card ≤ M.card + 1 := by
  cases h with
  | refused => omega
  | known => omega
  | improved => exact Nat.le_of_eq (Multiset.card_cons _ _)

/-- An entry keeps its node, its cost only falls, and a closed one stays as it is. -/
theorem persists (h : Follows g budget H i base e t M t' M') {j : Nat} {d : Discovery κ}
    (hd : t.entries[j]? = some d) :
    ∃ d', t'.entries[j]? = some d' ∧ d'.node = d.node ∧ value d'.cost ≤ value d.cost ∧
      (d.closed = true → d' = d) := by
  cases h with
  | refused => exact ⟨d, hd, rfl, Int.le_refl _, fun _ => rfl⟩
  | known => exact ⟨d, hd, rfl, Int.le_refl _, fun _ => rfl⟩
  | @improved k d' cost p t' hset himp =>
    by_cases hj : j = k
    · subst hj
      obtain ⟨hopen, hnode, hlt⟩ := himp.old d hd
      refine ⟨d', hset.self, hnode, ?_, fun hc => absurd hc (by rw [hopen]; decide)⟩
      rw [Cost.le_iff_value_le, ← himp.cost_eq] at hlt
      omega
    · exact ⟨d, by rwa [hset.other hj], rfl, Int.le_refl _, fun _ => rfl⟩

theorem closed_iff (h : Follows g budget H i base e t M t' M') {j : Nat} {d : Discovery κ} :
    t'.entries[j]? = some d ∧ d.closed = true ↔ t.entries[j]? = some d ∧ d.closed = true := by
  constructor
  · rintro ⟨hd, hc⟩
    cases h with
    | refused => exact ⟨hd, hc⟩
    | known => exact ⟨hd, hc⟩
    | improved hset himp =>
      rcases hset.cases hd with ⟨-, rfl⟩ | ⟨-, hd⟩
      · exact absurd hc (by rw [himp.closed_eq]; decide)
      · exact ⟨hd, hc⟩
  · rintro ⟨hd, hc⟩
    obtain ⟨d', hd', -, -, heq⟩ := h.persists hd
    rw [heq hc] at hd'
    exact ⟨hd', hc⟩

/-- Afterwards the target has an entry that is closed or as cheap as the way, unless the way is over
    the budget. -/
theorem target_known (h : Follows g budget H i base e t M t' M') :
    ¬ Affordable budget (value base + value e.weight) ∨
    ∃ (j : Nat) (d : Discovery κ), t'.entries[j]? = some d ∧ g.key d.node = g.key e.target ∧
      (d.closed = true ∨ value d.cost ≤ value base + value e.weight) := by
  cases h with
  | refused ha => exact Or.inl ha
  | known hd hk hle => exact Or.inr ⟨_, _, hd, hk, hle⟩
  | improved hset himp hcost =>
    exact Or.inr ⟨_, _, hset.self, himp.key_eq, Or.inr (by rw [himp.cost_eq, hcost])⟩

end Follows

/-- What following edges from the entry at `i`, at cost `base`, makes of a table and of what is queued,
    one edge after the other. -/
inductive Expands (g : Graph κ) (s : Nat) (budget : Option κ) (H : Nat → Int) (i : Nat) (base : κ) :
    List (Edge κ) → Table κ → Multiset (κ × Nat) → Table κ → Multiset (κ × Nat) → Prop
  | nil {t : Table κ} {M : Multiset (κ × Nat)} :
    t.Indexed g s → Expands g s budget H i base [] t M t M
  | cons {e : Edge κ} {es : List (Edge κ)} {t t₁ t' : Table κ} {M M₁ M' : Multiset (κ × Nat)} :
    t.Indexed g s → Follows g budget H i base e t M t₁ M₁ →
    Expands g s budget H i base es t₁ M₁ t' M' → Expands g s budget H i base (e :: es) t M t' M'

namespace Expands

variable {g : Graph κ} {s : Nat} {budget : Option κ} {H : Nat → Int} {i : Nat} {base : κ}
  {es : List (Edge κ)} {t t' : Table κ} {M M' : Multiset (κ × Nat)}

/-- What holds with edges still to be followed, and is handed on by every edge, holds after all of
    them. -/
theorem carries (h : Expands g s budget H i base es t M t' M')
    (P : List (Edge κ) → Table κ → Multiset (κ × Nat) → Prop)
    (step : ∀ {e rest t M t' M'}, e ∈ es → t.Indexed g s → P (e :: rest) t M →
      Follows g budget H i base e t M t' M' → P rest t' M')
    (hP : P es t M) : P [] t' M' := by
  induction h with
  | nil => exact hP
  | cons ht hf _ ih =>
    apply ih
    · intro e rest t M t' M' he
      exact step (List.mem_cons_of_mem _ he)
    · exact step List.mem_cons_self ht hP hf

theorem indexed (h : Expands g s budget H i base es t M t' M') : t'.Indexed g s := by
  induction h with
  | nil ht => exact ht
  | cons _ _ _ ih => exact ih

/-- Every edge queues one element at most. -/
theorem card_le (h : Expands g s budget H i base es t M t' M') : M'.card ≤ M.card + es.length := by
  induction h with
  | nil => exact Nat.le_refl _
  | cons _ hf _ ih =>
    have := hf.card_le
    rw [List.length_cons]
    omega

theorem closed_iff (h : Expands g s budget H i base es t M t' M') {j : Nat} {d : Discovery κ} :
    t'.entries[j]? = some d ∧ d.closed = true ↔ t.entries[j]? = some d ∧ d.closed = true := by
  induction h with
  | nil => exact Iff.rfl
  | cons _ hf _ ih => exact ih.trans hf.closed_iff

end Expands

namespace Frontier

variable {Q : Type} [PriorityQueue Q κ Nat] [PriorityQueue.Lawful Q]

/-- The table is sound, and so is the queue, which holds these pairs. -/
structure Sound (g : Graph κ) (s : Nat) (f : Frontier Q κ) (M : Multiset (κ × Nat)) : Prop where
  indexed : f.table.Indexed g s
  holds : Holds f.queue M

variable [DecidableLE κ] {g : Graph κ} {s : Nat} {f : Frontier Q κ} {M : Multiset (κ × Nat)}
  {rank : Nat → κ → Result κ} {H : Nat → Int}

/-- The target of an edge is refused by the queue, at the rank that the way gives it. -/
def Refuses (f : Frontier Q κ) (H : Nat → Int) (base : κ) (e : Edge κ) : Prop :=
  ∃ p, value p = value base + value e.weight + H e.target ∧ ¬ Accepts f.queue p

/-- Following an edge overflows, or meets a queue that refuses the target, or goes on. -/
theorem Sound.follow_cases (h : f.Sound g s M) (hr : Ranks rank H) {e : Edge κ} (he : e ∈ g.edges)
    (budget : Option κ) (i : Nat) (base : κ) :
    (follow g budget rank i base f e = .error .costOverflow ∧
      Overflows budget H (value base) e) ∨
    (follow g budget rank i base f e = .error .belowFloor ∧ f.Refuses H base e) ∨
    ∃ f' M', follow g budget rank i base f e = .ok f' ∧ f'.Sound g s M' ∧
      (∀ p, Accepts f.queue p → Accepts f'.queue p) ∧
      Follows g budget H i base e f.table M f'.table M' := by
  rcases Cost.sum_cases base e.weight with ⟨hsum, hnone⟩ | ⟨cost, hsum, hcost⟩
  · exact Or.inl ⟨by simp only [follow, hsum, Result.error_bind], Or.inl hnone⟩
  by_cases ha : Cost.within budget cost = true
  · rcases hr e.target cost with ⟨hrank, hnone⟩ | ⟨p, hrank, hp⟩
    · refine Or.inl ⟨?_, Or.inr ⟨?_, ?_⟩⟩
      · simp only [follow, hsum, Result.ok_bind, if_pos ha, hrank, Result.error_bind]
      · rw [← hcost]
        exact Cost.within_iff.mp ha
      · rwa [← hcost]
    rcases h.indexed.relax_cases (Graph.mem_nodes_of_mem_edges he s) i cost with
      ⟨hrelax, j, d, hd, hk, hle⟩ | ⟨j, d, t', hrelax, hset, hd, hindexed⟩
    · refine Or.inr (Or.inr ⟨f, M, ?_, h, fun _ => id, .known hd hk ?_⟩)
      · simp only [follow, hsum, Result.ok_bind, if_pos ha, hrank, hrelax]
      · rwa [← hcost, ← Cost.le_iff_value_le]
    · rcases PriorityQueue.Lawful.push_cases h.holds p j with
        ⟨-, queue, hpush, hholds, hacc⟩ | ⟨hacc, hpush⟩
      · refine Or.inr (Or.inr ⟨⟨t', queue⟩, _, ?_, ⟨hindexed, hholds⟩, hacc,
          .improved hset hd hcost hp (Cost.within_iff.mp ha)⟩)
        simp only [follow, hsum, Result.ok_bind, if_pos ha, hrank, hrelax, hpush]
      · refine Or.inr (Or.inl ⟨?_, p, by rw [hp, hcost], hacc⟩)
        simp only [follow, hsum, Result.ok_bind, if_pos ha, hrank, hrelax, hpush, Result.error_bind]
  · refine Or.inr (Or.inr ⟨f, M, ?_, h, fun _ => id, .refused ?_⟩)
    · simp only [follow, hsum, Result.ok_bind, if_neg ha]
    · rwa [← hcost, ← Cost.within_iff]

/-- Following edges of a node overflows at some edge, or meets a queue that refuses its target, or goes
    on along all of them. -/
theorem Sound.foldlM_follow_cases (hr : Ranks rank H) (budget : Option κ) (i : Nat) (base : κ)
    {es : List (Edge κ)} (hes : ∀ e ∈ es, e ∈ g.edges) (h : f.Sound g s M) :
    (es.foldlM (follow g budget rank i base) f = .error .costOverflow ∧
      ∃ e ∈ es, Overflows budget H (value base) e) ∨
    (es.foldlM (follow g budget rank i base) f = .error .belowFloor ∧
      ∃ e ∈ es, f.Refuses H base e) ∨
    ∃ f' M', es.foldlM (follow g budget rank i base) f = .ok f' ∧ f'.Sound g s M' ∧
      Expands g s budget H i base es f.table M f'.table M' := by
  -- a queue that goes on accepts all that it did before, so what one refuses the first refuses
  induction es generalizing f M with
  | nil => exact Or.inr (Or.inr ⟨f, M, rfl, h, .nil h.indexed⟩)
  | cons e rest ih =>
    rw [List.foldlM_cons]
    rcases h.follow_cases hr (hes e List.mem_cons_self) budget i base with
      ⟨hf, hover⟩ | ⟨hf, hrefuses⟩ | ⟨f₁, M₁, hf, h₁, hacc, hfollows⟩
    · exact Or.inl ⟨by rw [hf, Result.error_bind], e, List.mem_cons_self, hover⟩
    · exact Or.inr (Or.inl ⟨by rw [hf, Result.error_bind], e, List.mem_cons_self, hrefuses⟩)
    · rw [hf, Result.ok_bind]
      rcases ih (fun e he => hes e (List.mem_cons_of_mem _ he)) h₁ with
        ⟨hrest, e', he', hover⟩ | ⟨hrest, e', he', p, hp, hnot⟩ | ⟨f', M', hrest, h', hexp⟩
      · exact Or.inl ⟨hrest, e', List.mem_cons_of_mem _ he', hover⟩
      · exact Or.inr (Or.inl ⟨hrest, e', List.mem_cons_of_mem _ he', p, hp,
          fun ha => hnot (hacc p ha)⟩)
      · exact Or.inr (Or.inr ⟨f', M', hrest, h', .cons h.indexed hfollows hexp⟩)

theorem Sound.expand_cases (hr : Ranks rank H) (budget : Option κ) (node i : Nat) (base : κ)
    (h : f.Sound g s M) :
    (f.expand g budget rank node i base = .error .costOverflow ∧
      ∃ e ∈ g.leaving node, Overflows budget H (value base) e) ∨
    (f.expand g budget rank node i base = .error .belowFloor ∧
      ∃ e ∈ g.leaving node, f.Refuses H base e) ∨
    ∃ f' M', f.expand g budget rank node i base = .ok f' ∧ f'.Sound g s M' ∧
      Expands g s budget H i base (g.leaving node) f.table M f'.table M' :=
  h.foldlM_follow_cases hr budget i base fun _ he => (Graph.mem_leaving.mp he).1

end Frontier
end MonotoneQueue.Search

import Mathlib
import MonotoneQueue.Proofs.Search.Move
import MonotoneQueue.Proofs.Search.Settled

/- Searches in order. With consistent estimates that are the same for equal nodes every move keeps a
   search in order (`Move.inOrder`): the open entries are queued, the totals of the closed ones never
   fall, and all that leads on from a closed one is accounted for. In a search in order whatever can be
   walked to within the budget is closed already, or something in the queue is in the way
   (`View.InOrder.met`). -/
namespace MonotoneQueue.Search

open Cost (value)

variable {κ : Type} [LE κ] [Cost κ] {g : Graph κ} {s : Nat} {H : Nat → Int} {budget : Option κ}
  {v v' : View κ}

/-- Every open entry is queued under its total. What is queued is not below what has come out, and
    nothing is still to be followed. -/
structure View.InOrder (g : Graph κ) (budget : Option κ) (H : Nat → Int) (v : View κ) : Prop where
  pending : Pending H v.table v.queued
  rising : ∃ low, Rising H v.table v.queued low
  settled : Settled g budget v.table []

namespace View.InOrder

theorem start (g : Graph κ) (budget : Option κ) {p : κ} (hp : value p = H s) :
    (View.start g s p).InOrder g budget H :=
  ⟨.start _ _ hp, ⟨_, .start _ s p⟩, .start g budget _ s⟩

/-- The end of every walk within the budget is closed at no higher cost, or something is queued that is
    not above its rank. -/
theorem met (h : v.InOrder g budget H) (ht : v.Tracked g s) (hg : g.DistinctKeys s)
    (hpos : g.NonNegative) (hH : g.Consistent H) {n : Nat} {c : Int} (hw : g.Walk s n c)
    (ha : Affordable budget c) :
    (∃ x ∈ v.closed, x.2.node = n ∧ value x.2.cost ≤ c) ∨
    ∃ x ∈ v.queued, value x.1 ≤ c + H n := by
  rcases h.settled.met hg hpos hH ht.indexed ht.routed.root hw ha with
    ⟨j, d, hd, hclosed, hnode, hle⟩ | ⟨j, d, hd, hopen, hle⟩
  · exact Or.inl ⟨(j, d), (ht.routed.mem_done j d).mpr ⟨hd, hclosed⟩, hnode, hle⟩
  · obtain ⟨p, hp, hvalue⟩ := h.pending.queued j d hd hopen
    exact Or.inr ⟨(p, j), hp, hvalue ▸ hle⟩

/-- An entry within the budget has the least cost, if nothing is queued below its total. -/
theorem isLeast_of_entry (h : v.InOrder g budget H) (ht : v.Tracked g s) (hg : g.DistinctKeys s)
    (hpos : g.NonNegative) (hH : g.Consistent H) {i : Nat} {d : Discovery κ}
    (hd : v.table.entries[i]? = some d) (ha : Affordable budget (value d.cost))
    (hqueued : ∀ x ∈ v.queued, d.total H ≤ value x.1) :
    IsLeast (g.weights s d.node) (value d.cost) := by
  refine ⟨ht.routed.walk ht.indexed hg hd, ?_⟩
  intro c hc
  by_contra hlt
  obtain ⟨x, hx, hnode, hle⟩ | ⟨x, hx, hle⟩ := h.met ht hg hpos hH hc (ha.mono (by omega))
  · -- the node has one entry only
    obtain ⟨hentry, -⟩ := (ht.routed.mem_done x.1 x.2).mp hx
    have hi : x.1 = i := ht.indexed.position_unique hentry hd (by rw [hnode])
    rw [hi, hd, Option.some.injEq] at hentry
    rw [hentry] at hlt
    exact hlt hle
  · have := hqueued x hx
    rw [Discovery.total] at this
    omega

end View.InOrder

theorem Move.inOrder (hH : Respects g s H) (hcons : g.Consistent H) (h : v.InOrder g budget H)
    (hm : Move g s budget H v v') : v'.InOrder g budget H := by
  have hpending : Pending H v'.table v'.queued := hm.pending hH h.pending
  obtain ⟨low, hrising⟩ := h.rising
  cases hm with
  | @pass p i d M htakes hc =>
    have hleast := htakes.least
    rw [htakes.queued_eq] at hrising hleast
    exact ⟨hpending, ⟨_, hrising.pass hleast⟩, h.settled⟩
  | @visit p i d M M' es t₁ t' htakes hc hset hes hexp =>
    have hrank : ∀ e ∈ g.leaving d.node, value p ≤ value d.cost + value e.weight + H e.target :=
      fun e he => htakes.le_rank h.pending hc hcons he
    have htotal : value p = d.total H := htakes.eq_total h.pending hc
    have hleast := htakes.least
    rw [htakes.queued_eq] at hrising hleast
    have hsettled : Settled g budget t₁ (es.map (i, ·)) := by
      have hclosed := h.settled.close htakes.entry_eq hset
      rcases hes with rfl | ⟨rfl, ha⟩
      · exact hclosed
      · exact hclosed.waive hset.self ha
    -- one edge after the other, from the closed entry
    obtain ⟨hrising', hsettled', -⟩ := hexp.carries
      (fun es t M => Rising H t M (value p) ∧ Settled g budget t (es.map (i, ·)) ∧
        t.entries[i]? = some { d with closed := true })
      (fun he ht hP hf => by
        have hleaves := hes.mem_leaving he
        have hmem := (Graph.mem_leaving.mp hleaves).1
        exact ⟨hP.1.follows (hrank _ hleaves) hf,
          hP.2.1.follows hP.1 hH ht hmem hP.2.2 (hrank _ hleaves) hf,
          (hf.closed_iff.mpr ⟨hP.2.2, rfl⟩).1⟩)
      ⟨(hrising.pass hleast).close htotal.ge hset, hsettled, hset.self⟩
    exact ⟨hpending, ⟨_, hrising'⟩, hsettled'⟩

/-! Budgets. -/

/-- Every entry is within the budget. -/
def View.Within (budget : Option κ) (v : View κ) : Prop :=
  ∀ (i : Nat) (d : Discovery κ), v.table.entries[i]? = some d → Affordable budget (value d.cost)

theorem View.Within.start (g : Graph κ) (s : Nat) (p : κ) (h : Affordable budget 0) :
    (View.start g s p).Within budget := by
  intro i d hd
  obtain ⟨-, rfl⟩ := Table.start_entry_iff.mp hd
  rwa [Cost.value_zero]

/-- Only ways within the budget are recorded, so entries at chosen positions stay within it. -/
theorem Move.within_at {P : Nat → Prop}
    (h : ∀ (i : Nat) (d : Discovery κ), P i → v.table.entries[i]? = some d → Affordable budget (value d.cost))
    (hm : Move g s budget H v v') :
    ∀ (i : Nat) (d : Discovery κ), P i → v'.table.entries[i]? = some d →
      Affordable budget (value d.cost) := by
  cases hm with
  | pass => exact h
  | @visit p i d M M' es t₁ t' htakes hc hset hes hexp =>
    refine hexp.carries (fun _ t _ => ∀ (j : Nat) (x : Discovery κ), P j → t.entries[j]? = some x →
      Affordable budget (value x.cost)) ?_ ?_
    · intro e rest t M t' M' _ _ hP hf j x hj hx
      cases hf with
      | refused => exact hP j x hj hx
      | known => exact hP j x hj hx
      | improved hset himp _ _ ha =>
        rcases hset.cases hx with ⟨-, rfl⟩ | ⟨-, hx⟩
        · rwa [himp.cost_eq]
        · exact hP j x hj hx
    · intro j x hj hx
      rcases hset.cases hx with ⟨rfl, rfl⟩ | ⟨-, hx⟩
      · exact h j d hj htakes.entry_eq
      · exact h j x hj hx

theorem Move.within (h : v.Within budget) (hm : Move g s budget H v v') : v'.Within budget := by
  intro i d
  exact hm.within_at (P := fun _ => True) (fun i d _ => h i d) i d trivial

/-! With nothing left in the queue. -/

namespace View.InOrder

theorem exists_closed_le (h : v.InOrder g budget H) (ht : v.Tracked g s) (hg : g.DistinctKeys s)
    (hpos : g.NonNegative) (hH : g.Consistent H) (hM : v.queued = 0) {n : Nat} {c : Int}
    (hw : g.Walk s n c) (ha : Affordable budget c) :
    ∃ x ∈ v.closed, x.2.node = n ∧ value x.2.cost ≤ c := by
  rcases h.met ht hg hpos hH hw ha with hclosed | ⟨x, hx, -⟩
  · exact hclosed
  · rw [hM] at hx
    exact absurd hx (Multiset.notMem_zero x)

theorem isLeast_of_mem_closed (h : v.InOrder g budget H) (hwithin : v.Within budget)
    (ht : v.Tracked g s) (hg : g.DistinctKeys s) (hpos : g.NonNegative) (hH : g.Consistent H)
    (hM : v.queued = 0) {x : Nat × Discovery κ} (hx : x ∈ v.closed) :
    IsLeast (g.weights s x.2.node) (value x.2.cost) := by
  obtain ⟨hentry, -⟩ := (ht.routed.mem_done x.1 x.2).mp hx
  apply h.isLeast_of_entry ht hg hpos hH hentry (hwithin x.1 x.2 hentry)
  rw [hM]
  exact fun y hy => absurd hy (Multiset.notMem_zero y)

end View.InOrder
end MonotoneQueue.Search

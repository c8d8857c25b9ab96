import Mathlib
import MonotoneQueue.Proofs.Search.Pending

/- Why a closed entry has the least cost. With consistent estimates the totals of the entries that
   are closed never fall (`Rising`), so an edge of a closed entry never leads to a closed one that is
   dearer than the way along it. Every way within the budget that leaves a closed entry is therefore
   accounted for in the table (`Settled`), and a walk that has not been closed to its end passes
   through an open entry whose total it does not beat (`Settled.met`). -/
namespace MonotoneQueue.Search

open Cost (value)

variable {κ : Type} [LE κ] [Cost κ] {g : Graph κ} {s : Nat} {H : Nat → Int} {budget : Option κ}
  {t t' : Table κ} {M M' : Multiset (κ × Nat)} {i : Nat} {d : Discovery κ} {e : Edge κ}

/-- The totals of the closed entries are at most `low`, and what is queued is not below it. -/
structure Rising (H : Nat → Int) (t : Table κ) (M : Multiset (κ × Nat)) (low : Int) : Prop where
  closed_le : ∀ (i : Nat) (d : Discovery κ), t.entries[i]? = some d → d.closed = true →
    d.total H ≤ low
  le_queued : ∀ x ∈ M, low ≤ value x.1

namespace Rising

variable {low : Int}

theorem start (key s : Nat) (p : κ) :
    Rising H (.start key s Cost.zero) {(p, 0)} (value p) := by
  constructor
  case closed_le =>
    intro i d hd hc
    obtain ⟨-, rfl⟩ := Table.start_entry_iff.mp hd
    exact nomatch hc
  case le_queued =>
    intro x hx
    rw [Multiset.mem_singleton.mp hx]

/-- Taking out a least copy raises the bound to its priority. -/
theorem pass {p : κ} (h : Rising H t ((p, i) ::ₘ M) low)
    (hleast : ∀ x ∈ (p, i) ::ₘ M, value p ≤ value x.1) : Rising H t M (value p) := by
  have hlow : low ≤ value p := h.le_queued (p, i) (Multiset.mem_cons_self _ _)
  constructor
  case closed_le =>
    intro j d hd hc
    exact Int.le_trans (h.closed_le j d hd hc) hlow
  case le_queued => exact fun x hx => hleast x (Multiset.mem_cons_of_mem hx)

theorem close (h : Rising H t M low) (hd : d.total H ≤ low)
    (hset : t.SetAt i { d with closed := true } t') : Rising H t' M low := by
  constructor
  case closed_le =>
    intro j d' hd' hc
    rcases hset.cases hd' with ⟨-, rfl⟩ | ⟨-, hd'⟩
    · exact hd
    · exact h.closed_le j d' hd' hc
  case le_queued => exact h.le_queued

theorem follows {base : κ} (h : Rising H t M low)
    (hrank : low ≤ value base + value e.weight + H e.target)
    (hf : Follows g budget H i base e t M t' M') : Rising H t' M' low := by
  constructor
  case closed_le =>
    intro j d hd hc
    exact h.closed_le j d (hf.closed_iff.mp ⟨hd, hc⟩).1 hc
  case le_queued =>
    cases hf with
    | refused => exact h.le_queued
    | known => exact h.le_queued
    | improved _ _ hcost hp =>
      intro x hx
      rcases Multiset.mem_cons.mp hx with rfl | hx
      · rwa [hp, hcost]
      · exact h.le_queued x hx

end Rising

/-- The node is closed at a cost of at most `c`, or some open entry has a total of at most that of the
    node at `c`. -/
def Met (H : Nat → Int) (t : Table κ) (n : Nat) (c : Int) : Prop :=
  (∃ (j : Nat) (d : Discovery κ), t.entries[j]? = some d ∧ d.closed = true ∧ d.node = n ∧
    value d.cost ≤ c) ∨
  ∃ (j : Nat) (d : Discovery κ), t.entries[j]? = some d ∧ d.closed = false ∧ d.total H ≤ c + H n

theorem Met.of_entry {c : Int} (hd : t.entries[i]? = some d) (hle : value d.cost ≤ c) :
    Met H t d.node c := by
  cases hc : d.closed with
  | true => exact Or.inl ⟨i, d, hd, hc, rfl, hle⟩
  | false => exact Or.inr ⟨i, d, hd, hc, Int.add_le_add_right hle _⟩

/-- Every way within the budget along an edge from a closed entry has led to an entry that is no
    dearer, but for the edges in `owed`, which are still to be followed. -/
def Settled (g : Graph κ) (budget : Option κ) (t : Table κ) (owed : List (Nat × Edge κ)) : Prop :=
  ∀ (j : Nat) (d : Discovery κ), t.entries[j]? = some d → d.closed = true →
    Affordable budget (value d.cost) → ∀ e ∈ g.leaving d.node,
      (j, e) ∈ owed ∨ ¬ Affordable budget (value d.cost + value e.weight) ∨
      ∃ (k : Nat) (d' : Discovery κ), t.entries[k]? = some d' ∧ g.key d'.node = g.key e.target ∧
        value d'.cost ≤ value d.cost + value e.weight

namespace Settled

variable {owed : List (Nat × Edge κ)}

theorem start (g : Graph κ) (budget : Option κ) (key s : Nat) :
    Settled g budget (.start key s Cost.zero) [] := by
  intro j d hd hc
  obtain ⟨-, rfl⟩ := Table.start_entry_iff.mp hd
  exact nomatch hc

theorem close (h : Settled g budget t []) (hd : t.entries[i]? = some d)
    (hset : t.SetAt i { d with closed := true } t') :
    Settled g budget t' ((g.leaving d.node).map (i, ·)) := by
  intro j d' hd' hc ha e he
  rcases hset.cases hd' with ⟨rfl, rfl⟩ | ⟨-, hd'⟩
  · exact Or.inl (List.mem_map_of_mem he)
  rcases h j d' hd' hc ha e he with hmem | hover | ⟨k, x, hx, hk, hle⟩
  · exact nomatch hmem
  · exact Or.inr (Or.inl hover)
  · by_cases hki : k = i
    · subst hki
      obtain rfl : d = x := Option.some.inj (hd ▸ hx)
      exact Or.inr (Or.inr ⟨k, _, hset.self, hk, hle⟩)
    · exact Or.inr (Or.inr ⟨k, x, by rwa [hset.other hki], hk, hle⟩)

/-- Nothing is due from an entry that is over the budget. -/
theorem waive {es : List (Edge κ)} (h : Settled g budget t (es.map (i, ·)))
    (hd : t.entries[i]? = some d) (ha : ¬ Affordable budget (value d.cost)) :
    Settled g budget t [] := by
  intro j d' hd' hc ha' e he
  rcases h j d' hd' hc ha' e he with hmem | hrest
  · obtain ⟨_, -, heq⟩ := List.mem_map.mp hmem
    rw [Prod.mk.injEq] at heq
    obtain rfl : d = d' := Option.some.inj (hd.symm.trans (heq.1 ▸ hd'))
    exact absurd ha' ha
  · exact Or.inr hrest

theorem follows {low : Int} (h : Settled g budget t ((i, e) :: owed)) (hrise : Rising H t M low)
    (hH : Respects g s H) (ht : t.Indexed g s) (he : e ∈ g.edges) (hd : t.entries[i]? = some d)
    (hrank : low ≤ value d.cost + value e.weight + H e.target)
    (hf : Follows g budget H i d.cost e t M t' M') : Settled g budget t' owed := by
  intro j d' hd' hc ha e' he'
  obtain ⟨hd', -⟩ := hf.closed_iff.mp ⟨hd', hc⟩
  rcases h j d' hd' hc ha e' he' with hmem | hover | ⟨k, x, hx, hk, hle⟩
  · rcases List.mem_cons.mp hmem with heq | hmem
    · rw [Prod.mk.injEq] at heq
      obtain ⟨rfl, rfl⟩ := heq
      obtain rfl : d = d' := Option.some.inj (hd.symm.trans hd')
      rcases hf.target_known with hover | ⟨k, x, hx, hk, hclosed | hle⟩
      · exact Or.inr (Or.inl hover)
      · -- the target was closed before, at no higher cost since the totals rise
        have hx₀ := (hf.closed_iff.mp ⟨hx, hclosed⟩).1
        have hHx : H x.node = H e'.target :=
          hH x.node (ht.mem_nodes k x hx₀) e'.target (Graph.mem_nodes_of_mem_edges he s) hk
        have hle : value x.cost + H e'.target ≤ value d.cost + value e'.weight + H e'.target :=
          calc value x.cost + H e'.target = x.total H := by rw [Discovery.total, hHx]
            _ ≤ low := hrise.closed_le k x hx₀ hclosed
            _ ≤ value d.cost + value e'.weight + H e'.target := hrank
        exact Or.inr (Or.inr ⟨k, x, hx, hk, Int.le_of_add_le_add_right hle⟩)
      · exact Or.inr (Or.inr ⟨k, x, hx, hk, hle⟩)
    · exact Or.inl hmem
  · exact Or.inr (Or.inl hover)
  · obtain ⟨x', hx', hnode, hcost, -⟩ := hf.persists hx
    exact Or.inr (Or.inr ⟨k, x', hx', by rw [hnode, hk], by omega⟩)

theorem met (h : Settled g budget t []) (hg : g.DistinctKeys s) (hpos : g.NonNegative)
    (hH : g.Consistent H) (ht : t.Indexed g s)
    (hroot : ∃ d : Discovery κ, t.entries[0]? = some d ∧ d.node = s ∧ value d.cost ≤ 0) {n : Nat}
    {c : Int} (hw : g.Walk s n c) (ha : Affordable budget c) : Met H t n c := by
  -- along the walk: each edge leaves a closed entry, or an open one is in the way already
  induction hw with
  | here =>
    obtain ⟨d, hd, hnode, hle⟩ := hroot
    rw [← hnode]
    exact .of_entry hd hle
  | @onward b c e hb he ih =>
    obtain ⟨hmem, hsource⟩ := Graph.mem_leaving.mp he
    have hweight := hpos e hmem
    have hest := hH e hmem
    rw [hsource] at hest
    rcases ih (ha.mono (by omega)) with ⟨j, d, hd, hc, hnode, hle⟩ | ⟨j, d, hd, hc, hle⟩
    · have had : Affordable budget (value d.cost) := ha.mono (by omega)
      rw [← hnode] at he
      rcases h j d hd hc had e he with hnone | hover | ⟨k, x, hx, hk, hxle⟩
      · exact nomatch hnone
      · exact absurd (ha.mono (by omega)) hover
      · have hxnode : x.node = e.target :=
          hg x.node (ht.mem_nodes k x hx) e.target (Graph.mem_nodes_of_mem_edges hmem s) hk
        rw [← hxnode]
        exact .of_entry hx (by omega)
    · refine Or.inr ⟨j, d, hd, hc, ?_⟩
      calc d.total H ≤ c + H b := hle
        _ ≤ c + (value e.weight + H e.target) := Int.add_le_add_left hest c
        _ = c + value e.weight + H e.target := (Int.add_assoc _ _ _).symm

end Settled
end MonotoneQueue.Search

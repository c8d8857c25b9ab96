import Mathlib
import MonotoneQueue.Proofs.Search.Routes

/- Why a search ends. Every element that is queued was paid for by the start or by an edge that leaves
   a closed entry, and no edge leaves two of them, so the pops are bounded by the edges. -/
namespace MonotoneQueue.Search

variable {κ : Type} {g : Graph κ} {done : List (Nat × Discovery κ)} {M M' : Multiset (κ × Nat)}
  {x : κ × Nat} {owed pops : Nat}

/-- Elements taken from the queue, elements in it and edges still to be followed were paid for by
    the start and by the edges that leave closed entries. -/
def Paid (g : Graph κ) (done : List (Nat × Discovery κ)) (M : Multiset (κ × Nat)) (owed pops : Nat) :
    Prop :=
  pops + M.card + owed ≤ 1 + (done.map fun x => (g.leaving x.2.node).length).sum

namespace Paid

theorem start (g : Graph κ) (x : κ × Nat) : Paid g [] {x} 0 0 := by
  simp [Paid]

theorem pass (h : Paid g done (x ::ₘ M) owed pops) : Paid g done M owed (pops + 1) := by
  rw [Paid, Multiset.card_cons] at h
  rw [Paid]
  omega

theorem close (h : Paid g done M 0 pops) (y : Nat × Discovery κ) :
    Paid g (y :: done) M (g.leaving y.2.node).length pops := by
  rw [Paid] at h ⊢
  rw [List.map_cons, List.sum_cons]
  omega

theorem waive (h : Paid g done M owed pops) : Paid g done M 0 pops := by
  rw [Paid] at h ⊢
  omega

end Paid

variable [LE κ] [Cost κ] {s : Nat} {t t' : Table κ}

theorem Paid.follows {budget : Option κ} {H : Nat → Int} {i : Nat} {base : κ} {e : Edge κ}
    (h : Paid g done M (owed + 1) pops) (hf : Follows g budget H i base e t M t' M') :
    Paid g done M' owed pops := by
  have := hf.card_le
  rw [Paid] at h ⊢
  omega

/-- The closed entries are of different nodes, so no edge leaves two of them. -/
theorem Routed.sum_leaving_le (h : Routed g s t done) (ht : t.Indexed g s) :
    (done.map fun x => (g.leaving x.2.node).length).sum ≤ g.edges.length := by
  have hsum := g.sum_leaving_le (h.nodup_nodes ht)
  rwa [List.map_map] at hsum

/-- No more elements are taken from the queue than there are edges, and one. -/
theorem Paid.pops_le (h : Paid g done M owed pops) (hr : Routed g s t done) (ht : t.Indexed g s) :
    pops ≤ g.edges.length + 1 := by
  have := hr.sum_leaving_le ht
  rw [Paid] at h
  omega

end MonotoneQueue.Search

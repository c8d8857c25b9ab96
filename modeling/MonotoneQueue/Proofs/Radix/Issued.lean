import Mathlib
import MonotoneQueue.Proofs.Radix.Acts

/- No operation of a monotone queue forgets a key. Whatever an operation does with the links, the storage
   goes from one state to the next by insertions, removals and changes in place, and after each of them
   all keys issued before are issued still. -/
namespace MonotoneQueue

variable {S : Type → Type} [Storage S]

namespace Storage

variable {α : Type} {a b c : S α}

/-- What the one has issued, the other has issued as well. -/
def Before (a b : S α) : Prop := ∀ k, Issued a k → Issued b k

theorem Before.refl (a : S α) : Before a a := fun _ => id

theorem Before.trans (h : Before a b) (h' : Before b c) : Before a c := fun k hk => h' k (h k hk)

theorem Before.insert (a : S α) (x : α) : Before a (Storage.insert a x) := fun _ hk => issued_insert x hk

theorem Before.clear (a : S α) : Before a (Storage.clear a) := fun _ hk => issued_clear hk

end Storage

namespace Radix

variable {w : Nat} {α : Type}

/-! Single elements. -/

theorem before_of_take {nodes nodes' : S (Node w α)} {k : Key} {n : Node w α}
    (h : take nodes k = .ok (n, nodes')) : Storage.Before nodes nodes' := by
  rw [take] at h
  split at h
  · next r hr =>
    obtain rfl := Except.ok.inj h
    exact fun _ hj => Storage.issued_remove? hr hj
  · exact nomatch h

theorem before_of_update {nodes nodes' : S (Node w α)} {k : Key} {f : Node w α → Node w α}
    (h : update nodes k f = .ok nodes') : Storage.Before nodes nodes' := by
  rw [update] at h
  split at h
  · next hm =>
    obtain rfl := Except.ok.inj h
    exact fun _ hj => Storage.issued_modify? hm hj
  · exact nomatch h

theorem before_of_updateLink {nodes nodes' : S (Node w α)} {k : Option Key}
    {f : Node w α → Node w α} (h : updateLink nodes k f = .ok nodes') : Storage.Before nodes nodes' := by
  cases k with
  | none =>
    obtain rfl := Except.ok.inj h
    exact .refl _
  | some k => exact before_of_update h

/-! Pushing. -/

theorem before_of_link {q q' : Radix w α S} {k : Key} (h : q.link k = .ok q') :
    Storage.Before q.nodes q'.nodes := by
  simp only [link, Result.bind_eq_ok] at h
  obtain ⟨_, -, _, -, _, h₁, nodes, h₂, h⟩ := h
  -- the mask has no keys
  have hnodes : q'.nodes = nodes := by
    split at h
    · obtain ⟨_, -, h⟩ := Result.bind_eq_ok.mp h
      rw [← Except.ok.inj h]
    · obtain ⟨_, -, h⟩ := Result.bind_eq_ok.mp h
      rw [← Except.ok.inj h]
  rw [hnodes]
  exact (before_of_update h₁).trans (before_of_updateLink h₂)

theorem before_of_insert {q q' : Radix w α S} {p : BitVec w} {v : α} {k : Key}
    (h : q.insert p v = .ok (k, q')) : Storage.Before q.nodes q'.nodes := by
  rw [insert] at h
  split at h
  · exact nomatch h
  · obtain ⟨_, hlink, h⟩ := Result.bind_eq_ok.mp h
    cases h
    exact (Storage.Before.insert _ _).trans (before_of_link hlink)

/-! Popping. -/

theorem before_of_popFloor {q : Radix w α S} {k : Key} {e : Extracted w α S} (h : q.popFloor k = .ok e) :
    Storage.Before q.nodes e.popped.rest.nodes := by
  simp only [popFloor, Result.bind_eq_ok] at h
  obtain ⟨⟨node, nodes⟩, h₁, nodes', h₂, h⟩ := h
  obtain rfl := Except.ok.inj h
  exact (before_of_take h₁).trans (before_of_updateLink h₂)

theorem before_of_detach {q : Radix w α S} {i : Fin (w + 1)} {d : Detached w α S}
    (h : q.detach i = .ok d) : Storage.Before q.nodes d.rest.nodes := by
  simp only [detach, Result.bind_eq_ok] at h
  obtain ⟨_, -, _, -, _, -, ⟨least, nodes⟩, h₁, nodes₂, h₂, nodes₃, h₃, h⟩ := h
  obtain rfl := Except.ok.inj h
  exact (before_of_take h₁).trans ((before_of_updateLink h₂).trans (before_of_updateLink h₃))

theorem before_of_relink {n : Nat} {k : Option Key} {q q' : Radix w α S} {ks : List Key}
    (h : relink n k q = .ok (ks, q')) : Storage.Before q.nodes q'.nodes := by
  induction n generalizing k q ks with
  | zero =>
    cases k with
    | none =>
      cases h
      exact .refl _
    | some k => cases h
  | succ n ih =>
    cases k with
    | none =>
      cases h
      exact .refl _
    | some k =>
      simp only [relink, Result.bind_eq_ok] at h
      obtain ⟨node, -, q₁, hlink, ⟨ks', q₂⟩, hrest, h⟩ := h
      cases h
      exact (before_of_link hlink).trans (ih hrest)

theorem before_of_popBucket {q : Radix w α S} {i : Fin (w + 1)} {e : Extracted w α S}
    (h : q.popBucket i = .ok e) : Storage.Before q.nodes e.popped.rest.nodes := by
  simp only [popBucket, Result.bind_eq_ok] at h
  obtain ⟨d, hdetach, ⟨moved, rest⟩, hrelink, h⟩ := h
  obtain rfl := Except.ok.inj h
  exact (before_of_detach hdetach).trans (before_of_relink hrelink)

theorem before_of_pop {q : Radix w α S} {top : Popped (Radix w α S) (BitVec w) α}
    (h : q.pop = .ok (some top)) : Storage.Before q.nodes top.rest.nodes := by
  obtain ⟨e, hextracts, hfound⟩ := exists_extracts h
  cases hextracts with
  | floor _ hq =>
    obtain rfl := Option.some.inj hfound
    exact before_of_popFloor hq
  | bucket _ _ hq =>
    obtain rfl := Option.some.inj hfound
    exact before_of_popBucket hq
  | nothing => cases hfound

end Radix
end MonotoneQueue

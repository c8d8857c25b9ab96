import Mathlib
import MonotoneQueue.Proofs.Radix.Acts

/- What a monotone queue shows is what it would give. Looking goes the same way to the key of the next
   element as taking it out, and reads what is stored there instead of removing it, so wherever a pop
   succeeds, a look succeeds with the same element. -/
namespace MonotoneQueue.Radix

variable {w : Nat} {α : Type} {S : Type → Type} [Storage S]

theorem fetch_of_take {nodes nodes' : S (Node w α)} {k : Key} {n : Node w α}
    (h : take nodes k = .ok (n, nodes')) : fetch nodes k = .ok n := by
  rw [take] at h
  split at h
  · next r hr =>
    obtain rfl := Except.ok.inj h
    rw [fetch, (Storage.get?_remove? hr).1]
  · exact nomatch h

variable {q : Radix w α S}

theorem fetch_of_popFloor {k : Key} {e : Extracted w α S} (h : q.popFloor k = .ok e) :
    ∃ n, fetch q.nodes k = .ok n ∧ e.popped.item = (n.priority, n.value) := by
  simp only [popFloor, Result.bind_eq_ok] at h
  obtain ⟨⟨n, nodes⟩, htake, _, -, h⟩ := h
  obtain rfl := Except.ok.inj h
  exact ⟨n, fetch_of_take htake, rfl⟩

/-- The first least element of a bucket is what comes out when it is emptied. -/
theorem fetch_of_popBucket {i : Fin (w + 1)} {e : Extracted w α S} (h : q.popBucket i = .ok e) :
    ∃ head k n, q.headOf i = .ok head ∧ leastFrom q.nodes head = .ok k ∧ fetch q.nodes k = .ok n ∧
      e.popped.item = (n.priority, n.value) := by
  simp only [popBucket, detach, Result.bind_eq_ok] at h
  obtain ⟨d, ⟨_, -, head, hhead, k, hleast, ⟨n, nodes⟩, htake, _, -, _, -, hd⟩, _, -, h⟩ := h
  obtain rfl := Except.ok.inj hd
  obtain rfl := Except.ok.inj h
  exact ⟨head, k, n, hhead, hleast, fetch_of_take htake, rfl⟩

theorem peek_of_nextOut {k : Key} {n : Node w α} (hk : q.nextOut = .ok (some k))
    (hn : fetch q.nodes k = .ok n) : q.peek = .ok (some (n.priority, n.value)) := by
  simp only [peek, hk, hn, Result.ok_bind]

/-- Where a pop succeeds, a look shows what it finds. -/
theorem peek_of_pop {found : Option (Popped (Radix w α S) (BitVec w) α)} (h : q.pop = .ok found) :
    q.peek = .ok (found.map Popped.item) := by
  obtain ⟨e, hextracts, rfl⟩ := exists_extracts h
  have hread : q.heads[0] = q.heads.get 0 := rfl
  cases hextracts with
  | @floor k e hhead hq =>
    obtain ⟨n, hn, hitem⟩ := fetch_of_popFloor hq
    have hk : q.nextOut = .ok (some k) := by simp only [nextOut, hread, hhead]
    rw [peek_of_nextOut hk hn, Option.map_some, Option.map_some, hitem]
  | @bucket i e hhead hlow hq =>
    obtain ⟨head, k, n, hheadOf, hleast, hn, hitem⟩ := fetch_of_popBucket hq
    have hk : q.nextOut = .ok (some k) := by
      simp only [nextOut, hread, hhead, hlow, hheadOf, hleast, Result.ok_bind, Result.map_ok]
    rw [peek_of_nextOut hk hn, Option.map_some, Option.map_some, hitem]
  | nothing hhead hlow =>
    have hk : q.nextOut = .ok none := by simp only [nextOut, hread, hhead, hlow, Result.ok_bind]
    simp only [peek, hk, Result.ok_bind, Option.map_none]

end MonotoneQueue.Radix

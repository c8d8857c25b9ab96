import Mathlib
import MonotoneQueue.Proofs.Result
import MonotoneQueue.Radix.Node

/- What a bucket list is, apart from its links. `Linked` says that items are stored one after the
   other, each naming the ones before and after it, in a segment whose outer neighbours are given;
   segments are joined and split with `linked_append`. On linked items the operations of
   `Radix/Node` never meet a key that is not stored: walking gives the items back (`chain_linked`),
   the first least one is found (`leastFrom_linked`), and once an item is taken out and its
   neighbours are told, the others are linked (`Linked.exists_cut`). -/
namespace MonotoneQueue.Radix

variable {w : Nat} {α : Type} {S : Type → Type} [Storage S]

/-- An element without its neighbours, under the key by which it is stored. -/
structure Item (w : Nat) (α : Type) where
  key : Key
  priority : BitVec w
  value : α

namespace Item

/-- The item that a stored element is. -/
def of (k : Key) (n : Node w α) : Item w α := ⟨k, n.priority, n.value⟩

/-- The element that an item is between two neighbours. -/
def node (x : Item w α) (prev next : Option Key) : Node w α := ⟨x.value, x.priority, prev, next⟩

/-- What the user pushed. -/
def pair (x : Item w α) : BitVec w × α := (x.priority, x.value)

@[simp] theorem of_node (x : Item w α) (p n : Option Key) : of x.key (x.node p n) = x := rfl

end Item

/-- The key of the first item, or of what comes after if there is none. -/
def firstKey (after : Option Key) : List (Item w α) → Option Key
  | [] => after
  | x :: _ => some x.key

/-- The key of the last item, or of what comes before if there is none. -/
def lastKey (before : Option Key) : List (Item w α) → Option Key
  | [] => before
  | x :: rest => lastKey (some x.key) rest

/-- The items are stored in this order between two outer neighbours, and name their neighbours. -/
def Linked (nodes : S (Node w α)) (after : Option Key) :
    Option Key → List (Item w α) → Prop
  | _, [] => True
  | before, x :: rest =>
    Storage.get? nodes x.key = some (x.node before (firstKey after rest)) ∧
      Linked nodes after (some x.key) rest

/-! Changing one element. -/

theorem fetch_ok {nodes : S (Node w α)} {k : Key} {n : Node w α} (h : Storage.get? nodes k = some n) :
    fetch nodes k = .ok n := by
  simp [fetch, h]

theorem exists_take {nodes : S (Node w α)} {k : Key} {n : Node w α}
    (h : Storage.get? nodes k = some n) :
    ∃ nodes', take nodes k = .ok (n, nodes') ∧
      (∀ j, Storage.get? nodes' j = if j = k then none else Storage.get? nodes j) ∧
      Storage.size nodes' + 1 = Storage.size nodes := by
  cases hr : Storage.remove? nodes k with
  | none => simp [Storage.remove?_eq_none_iff.mp hr] at h
  | some r =>
    obtain ⟨m, nodes'⟩ := r
    obtain ⟨hm, hget, hsize⟩ := Storage.get?_remove? hr
    rw [hm] at h
    cases h
    exact ⟨nodes', by simp [take, hr], hget, hsize⟩

theorem exists_update {nodes : S (Node w α)} {k : Key} {n : Node w α}
    (h : Storage.get? nodes k = some n) (f : Node w α → Node w α) :
    ∃ nodes', update nodes k f = .ok nodes' ∧
      (∀ j, Storage.get? nodes' j = if j = k then some (f n) else Storage.get? nodes j) ∧
      Storage.size nodes' = Storage.size nodes := by
  cases hr : Storage.modify? nodes k f with
  | none => simp [Storage.modify?_eq_none_iff.mp hr] at h
  | some nodes' =>
    obtain ⟨m, hm, hget, hsize⟩ := Storage.get?_modify? hr
    rw [hm] at h
    cases h
    exact ⟨nodes', by simp [update, hr], hget, hsize⟩

/-- An element that may not be there is changed if it is, and no key is new. -/
theorem exists_updateLink {nodes : S (Node w α)} {o : Option Key}
    (h : ∀ k, o = some k → ∃ n, Storage.get? nodes k = some n) (f : Node w α → Node w α) :
    ∃ nodes', updateLink nodes o f = .ok nodes' ∧
      (∀ j, Storage.get? nodes' j = if o = some j then (Storage.get? nodes j).map f else Storage.get? nodes j) ∧
      (∀ j n, Storage.get? nodes' j = some n → ∃ n', Storage.get? nodes j = some n') ∧
      Storage.size nodes' = Storage.size nodes := by
  cases o with
  | none => exact ⟨nodes, rfl, by simp, fun _ n hn => ⟨n, hn⟩, rfl⟩
  | some k =>
    obtain ⟨n, hn⟩ := h k rfl
    obtain ⟨nodes', hu, hget, hsize⟩ := exists_update hn f
    refine ⟨nodes', hu, ?_, ?_, hsize⟩
    · intro j
      rw [hget]
      by_cases e : j = k
      · subst e
        simp [hn]
      · have e' : k ≠ j := fun q => e q.symm
        simp [e, e']
    · intro j m hm
      rw [hget] at hm
      split at hm
      · next e => exact ⟨n, e ▸ hn⟩
      · exact ⟨m, hm⟩

/-! Segments. -/

theorem lastKey_mem {before : Option Key} {l : List (Item w α)} {k : Key} (hl : l ≠ [])
    (h : lastKey before l = some k) : k ∈ l.map Item.key := by
  induction l generalizing before with
  | nil => exact absurd rfl hl
  | cons x rest ih =>
    cases rest with
    | nil =>
      cases h
      simp
    | cons y rest =>
      have hrest : lastKey (some x.key) (y :: rest) = some k := h
      exact List.mem_cons_of_mem _ (ih (by simp) hrest)

theorem lastKey_ne_none {before : Option Key} {l : List (Item w α)} (hl : l ≠ []) :
    lastKey before l ≠ none := by
  induction l generalizing before with
  | nil => exact absurd rfl hl
  | cons x rest ih =>
    cases rest with
    | nil => simp [lastKey]
    | cons y rest =>
      show lastKey (some x.key) (y :: rest) ≠ none
      exact ih (by simp)

theorem exists_firstKey {l : List (Item w α)} (hl : l ≠ []) : ∃ k, firstKey none l = some k := by
  cases l with
  | nil => exact absurd rfl hl
  | cons x rest => exact ⟨x.key, rfl⟩

theorem lastKey_none_mem {l : List (Item w α)} {k : Key} (h : lastKey none l = some k) :
    k ∈ l.map Item.key := by
  cases l with
  | nil => cases h
  | cons x rest => exact lastKey_mem (by simp) h

theorem firstKey_mem {l : List (Item w α)} {k : Key} (h : firstKey none l = some k) :
    k ∈ l.map Item.key := by
  cases l with
  | nil => cases h
  | cons x rest =>
    cases h
    simp

theorem firstKey_append (after : Option Key) (xs ys : List (Item w α)) :
    firstKey after (xs ++ ys) = firstKey (firstKey after ys) xs := by
  cases xs <;> rfl

theorem linked_append {nodes : S (Node w α)} {after before : Option Key}
    {xs ys : List (Item w α)} :
    Linked nodes after before (xs ++ ys) ↔
      Linked nodes (firstKey after ys) before xs ∧ Linked nodes after (lastKey before xs) ys := by
  induction xs generalizing before with
  | nil => simp [Linked, lastKey]
  | cons x rest ih =>
    simp only [List.cons_append, Linked, lastKey, firstKey_append, ih, and_assoc]

theorem Linked.stored {nodes : S (Node w α)} {after before : Option Key}
    {l : List (Item w α)} (h : Linked nodes after before l) {x : Item w α} (hx : x ∈ l) :
    ∃ p n, Storage.get? nodes x.key = some (x.node p n) := by
  induction l generalizing before with
  | nil => cases hx
  | cons y rest ih =>
    rcases List.mem_cons.mp hx with rfl | hx
    · exact ⟨_, _, h.1⟩
    · exact ih h.2 hx

theorem Linked.exists_get? {nodes : S (Node w α)} {after before : Option Key} {l : List (Item w α)}
    (h : Linked nodes after before l) {k : Key} (hk : k ∈ l.map Item.key) :
    ∃ n, Storage.get? nodes k = some n := by
  obtain ⟨x, hx, rfl⟩ := List.mem_map.mp hk
  obtain ⟨p, n, hg⟩ := h.stored hx
  exact ⟨_, hg⟩

theorem Linked.frame {nodes nodes' : S (Node w α)} {after before : Option Key}
    {l : List (Item w α)} (h : Linked nodes after before l)
    (hf : ∀ k ∈ l.map Item.key, Storage.get? nodes' k = Storage.get? nodes k) : Linked nodes' after before l := by
  induction l generalizing before with
  | nil => trivial
  | cons x rest ih =>
    have hx := hf x.key (by simp)
    exact ⟨hx.trans h.1, ih h.2 fun k hk => hf k (List.mem_cons_of_mem _ hk)⟩

theorem Linked.set_prev {nodes nodes' : S (Node w α)} {after before before' : Option Key}
    {l : List (Item w α)} (h : Linked nodes after before l) (hd : (l.map Item.key).Nodup)
    (hf : ∀ k ∈ l.map Item.key, Storage.get? nodes' k =
      if firstKey none l = some k then (Storage.get? nodes k).map fun n => { n with prev := before' }
      else Storage.get? nodes k) :
    Linked nodes' after before' l := by
  cases l with
  | nil => trivial
  | cons x rest =>
    obtain ⟨hx, hd⟩ := List.nodup_cons.mp hd
    refine ⟨?_, h.2.frame ?_⟩
    · rw [hf x.key (by simp), h.1]
      simp [firstKey, Item.node]
    · intro k hk
      have hne : x.key ≠ k := fun e => hx (e ▸ hk)
      rw [hf k (List.mem_cons_of_mem _ hk)]
      simp [firstKey, hne]

theorem Linked.set_next {nodes nodes' : S (Node w α)} {after after' before : Option Key}
    {l : List (Item w α)} (h : Linked nodes after before l) (hd : (l.map Item.key).Nodup)
    (hf : ∀ k ∈ l.map Item.key, Storage.get? nodes' k =
      if lastKey none l = some k then (Storage.get? nodes k).map fun n => { n with next := after' }
      else Storage.get? nodes k) :
    Linked nodes' after' before l := by
  induction l generalizing before with
  | nil => trivial
  | cons x rest ih =>
    obtain ⟨hx, hd'⟩ := List.nodup_cons.mp hd
    cases rest with
    | nil =>
      refine ⟨?_, trivial⟩
      rw [hf x.key (by simp), h.1]
      simp [lastKey, firstKey, Item.node]
    | cons y rest =>
      refine ⟨?_, ih h.2 hd' fun k hk => hf k (List.mem_cons_of_mem _ hk)⟩
      have hne : lastKey none (x :: y :: rest) ≠ some x.key := by
        show lastKey (some x.key) (y :: rest) ≠ some x.key
        intro e
        exact hx (lastKey_mem (by simp) e)
      rw [hf x.key (by simp), if_neg hne, h.1]
      rfl

/-- An item is taken out of a list and its neighbours are told of each other: the others are
    linked, elements of other lists have not changed, and no key is new. -/
theorem Linked.exists_cut {nodes : S (Node w α)} {xs ys : List (Item w α)} {m : Item w α}
    (h : Linked nodes none none (xs ++ m :: ys)) (hd : ((xs ++ m :: ys).map Item.key).Nodup) :
    ∃ nodes₁ nodes₂ nodes₃,
      take nodes m.key = .ok (m.node (lastKey none xs) (firstKey none ys), nodes₁) ∧
      updateLink nodes₁ (lastKey none xs) (fun n => { n with next := firstKey none ys }) =
        .ok nodes₂ ∧
      updateLink nodes₂ (firstKey none ys) (fun n => { n with prev := lastKey none xs }) =
        .ok nodes₃ ∧
      Linked nodes₃ none none (xs ++ ys) ∧
      (∀ k, k ∉ (xs ++ m :: ys).map Item.key → Storage.get? nodes₃ k = Storage.get? nodes k) ∧
      (∀ k n, Storage.get? nodes₃ k = some n → k ≠ m.key ∧ ∃ n', Storage.get? nodes k = some n') ∧
      Storage.size nodes₃ + 1 = Storage.size nodes := by
  obtain ⟨hxs, hm, hys⟩ := linked_append.mp h
  rw [List.map_append, List.map_cons] at hd ⊢
  obtain ⟨hdx, hdy, hdis⟩ := List.nodup_append.mp hd
  -- the keys left of `m`, that of `m`, and those right of it are apart
  have hmx : ∀ k ∈ xs.map Item.key, k ≠ m.key := fun k hk => hdis k hk m.key (by simp)
  have hmy : ∀ k ∈ ys.map Item.key, k ≠ m.key := fun k hk e =>
    (List.nodup_cons.mp hdy).1 (e ▸ hk)
  have hxy : ∀ k ∈ xs.map Item.key, k ∉ ys.map Item.key := fun k hk hk' =>
    hdis k hk k (List.mem_cons_of_mem _ hk') rfl
  obtain ⟨nodes₁, ht, hget₁, hsize₁⟩ := exists_take hm
  have hold : ∀ k, k ≠ m.key → Storage.get? nodes₁ k = Storage.get? nodes k := fun k hk => by
    rw [hget₁, if_neg hk]
  have hleft : ∀ k, lastKey none xs = some k → ∃ n, Storage.get? nodes₁ k = some n := by
    intro k hk
    have hk := lastKey_none_mem hk
    rw [hold k (hmx k hk)]
    exact hxs.exists_get? hk
  obtain ⟨nodes₂, hu₂, hget₂, hback₂, hsize₂⟩ :=
    exists_updateLink hleft fun n => { n with next := firstKey none ys }
  have hright : ∀ k, firstKey none ys = some k → ∃ n, Storage.get? nodes₂ k = some n := by
    intro k hk
    have hk := firstKey_mem hk
    rw [hget₂, if_neg fun e => hxy k (lastKey_none_mem e) hk, hold k (hmy k hk)]
    exact hys.exists_get? hk
  obtain ⟨nodes₃, hu₃, hget₃, hback₃, hsize₃⟩ :=
    exists_updateLink hright fun n => { n with prev := lastKey none xs }
  refine ⟨nodes₁, nodes₂, nodes₃, ht, hu₂, hu₃, linked_append.mpr ⟨?_, ?_⟩, ?_, ?_, by omega⟩
  · -- only the last item left of `m` has changed there
    apply hxs.set_next hdx
    intro k hk
    rw [hget₃, if_neg fun e => hxy k hk (firstKey_mem e), hget₂, hold k (hmx k hk)]
  · -- and only the first one right of it
    apply hys.set_prev (List.nodup_cons.mp hdy).2
    intro k hk
    rw [hget₃, hget₂, if_neg fun e => hxy k (lastKey_none_mem e) hk, hold k (hmy k hk)]
  · intro k hk
    rw [List.mem_append, List.mem_cons, not_or, not_or] at hk
    rw [hget₃, if_neg fun e => hk.2.2 (firstKey_mem e), hget₂,
      if_neg fun e => hk.1 (lastKey_none_mem e), hold k hk.2.1]
  · intro k n hk
    obtain ⟨n₂, hk₂⟩ := hback₃ k n hk
    obtain ⟨n₁, hk₁⟩ := hback₂ k n₂ hk₂
    rw [hget₁] at hk₁
    split at hk₁
    · cases hk₁
    · next e => exact ⟨e, n₁, hk₁⟩

/-- An item that is stored apart is put in front of a list and the first item is told: all are
    linked, other elements have not changed, and no key is new. -/
theorem Linked.exists_cons {nodes : S (Node w α)} {l : List (Item w α)} {x : Item w α}
    {p n : Option Key} (h : Linked nodes none none l) (hd : (l.map Item.key).Nodup)
    (hx : Storage.get? nodes x.key = some (x.node p n)) (hnot : x.key ∉ l.map Item.key) :
    ∃ nodes₁ nodes₂,
      update nodes x.key (fun n => { n with prev := none, next := firstKey none l }) =
        .ok nodes₁ ∧
      updateLink nodes₁ (firstKey none l) (fun n => { n with prev := some x.key }) =
        .ok nodes₂ ∧
      Linked nodes₂ none none (x :: l) ∧
      (∀ k, k ≠ x.key → k ∉ l.map Item.key → Storage.get? nodes₂ k = Storage.get? nodes k) ∧
      (∀ k n, Storage.get? nodes₂ k = some n → ∃ n', Storage.get? nodes k = some n') ∧
      Storage.size nodes₂ = Storage.size nodes := by
  obtain ⟨nodes₁, hu₁, hget₁, hsize₁⟩ :=
    exists_update hx fun n => { n with prev := none, next := firstKey none l }
  have hold : ∀ k, k ≠ x.key → Storage.get? nodes₁ k = Storage.get? nodes k := by
    intro k hk
    rw [hget₁, if_neg hk]
  have hhead : ∀ k, firstKey none l = some k → ∃ n, Storage.get? nodes₁ k = some n := by
    intro k hk
    have hk := firstKey_mem hk
    rw [hold k fun e => hnot (e ▸ hk)]
    exact h.exists_get? hk
  obtain ⟨nodes₂, hu₂, hget₂, hback₂, hsize₂⟩ :=
    exists_updateLink hhead fun n => { n with prev := some x.key }
  refine ⟨nodes₁, nodes₂, hu₁, hu₂, ⟨?_, ?_⟩, ?_, ?_, hsize₂.trans hsize₁⟩
  · rw [hget₂, if_neg fun e => hnot (firstKey_mem e), hget₁, if_pos rfl]
    rfl
  · apply h.set_prev hd
    intro k hk
    rw [hget₂, hold k fun e => hnot (e ▸ hk)]
  · intro k hk hl
    rw [hget₂, if_neg fun e => hl (firstKey_mem e), hold k hk]
  · intro k m hk
    obtain ⟨m₁, hm₁⟩ := hback₂ k m hk
    rw [hget₁] at hm₁
    split at hm₁
    · next e => exact ⟨_, e ▸ hx⟩
    · exact ⟨m₁, hm₁⟩

/-! Walking along a list. -/

theorem chain_linked {nodes : S (Node w α)} {before : Option Key} {l : List (Item w α)}
    (h : Linked nodes none before l) {n : Nat} (hn : l.length ≤ n) :
    ∃ c, chain nodes n (firstKey none l) = .ok c ∧ c.map (fun p => Item.of p.1 p.2) = l := by
  induction l generalizing before n with
  | nil => exact ⟨[], by cases n <;> rfl, rfl⟩
  | cons x rest ih =>
    obtain ⟨m, rfl⟩ : ∃ m, n = m + 1 := ⟨n - 1, by simp at hn; omega⟩
    obtain ⟨c, hc, he⟩ := ih h.2 (n := m) (by simpa using hn)
    refine ⟨(x.key, x.node before (firstKey none rest)) :: c, ?_, by simp [he]⟩
    have hnext : (x.node before (firstKey none rest)).next = firstKey none rest := rfl
    rw [firstKey, chain, fetch_ok h.1, Result.ok_bind, hnext, hc]
    rfl

/-- Between `xs` and `ys`, the item `m` is the first one of least priority. -/
structure FirstLeast (xs : List (Item w α)) (m : Item w α) (ys : List (Item w α)) : Prop where
  lt_before : ∀ x ∈ xs, m.priority < x.priority
  le_after : ∀ y ∈ ys, m.priority ≤ y.priority

theorem FirstLeast.le {xs ys : List (Item w α)} {m : Item w α} (h : FirstLeast xs m ys)
    {x : Item w α} (hx : x ∈ xs ++ m :: ys) : m.priority ≤ x.priority := by
  rcases List.mem_append.mp hx with hx | hx
  · exact BitVec.le_of_lt (h.lt_before x hx)
  · rcases List.mem_cons.mp hx with rfl | hx
    · exact BitVec.le_refl _
    · exact h.le_after x hx

theorem firstLeast_split (best : Key × Node w α) (rest : List (Key × Node w α)) :
    ∃ xs ys, best :: rest = xs ++ firstLeast best rest :: ys ∧
      (∀ x ∈ xs, (firstLeast best rest).2.priority < x.2.priority) ∧
      ∀ y ∈ ys, (firstLeast best rest).2.priority ≤ y.2.priority := by
  induction rest generalizing best with
  | nil => exact ⟨[], [], rfl, by simp, by simp⟩
  | cons x rest ih =>
    rw [firstLeast]
    split
    · next hlt =>
      -- the new best starts the list; the old one goes in front of it
      obtain ⟨xs, ys, he, hb, ha⟩ := ih x
      refine ⟨best :: xs, ys, by rw [he]; rfl, ?_, ha⟩
      have hle : (firstLeast x rest).2.priority ≤ x.2.priority := by
        have hx : x ∈ xs ++ firstLeast x rest :: ys := by rw [← he]; simp
        rcases List.mem_append.mp hx with hx | hx
        · exact BitVec.le_of_lt (hb x hx)
        · rcases List.mem_cons.mp hx with e | hx
          · rw [← e]
            exact BitVec.le_refl _
          · exact ha x hx
      intro y hy
      rcases List.mem_cons.mp hy with rfl | hy
      · exact Std.lt_of_le_of_lt hle hlt
      · exact hb y hy
    · next hlt =>
      obtain ⟨xs, ys, he, hb, ha⟩ := ih best
      have hle : best.2.priority ≤ x.2.priority := BitVec.not_lt.mp hlt
      cases xs with
      | nil =>
        obtain ⟨hbest, hys⟩ := List.cons.inj he
        refine ⟨[], x :: ys, by rw [← hbest, hys]; rfl, by simp, ?_⟩
        intro y hy
        rcases List.mem_cons.mp hy with rfl | hy
        · rw [← hbest]
          exact hle
        · exact ha y hy
      | cons z xs =>
        obtain ⟨rfl, hrest⟩ := List.cons.inj he
        refine ⟨best :: x :: xs, ys, congrArg (best :: x :: ·) hrest, ?_, ha⟩
        intro y hy
        rcases List.mem_cons.mp hy with rfl | hy
        · exact hb y (by simp)
        · rcases List.mem_cons.mp hy with rfl | hy
          · exact Std.lt_of_lt_of_le (hb best (by simp)) hle
          · exact hb y (List.mem_cons_of_mem _ hy)

theorem leastFrom_linked {nodes : S (Node w α)} {l : List (Item w α)} {k : Key}
    (h : Linked nodes none none l) (hk : firstKey none l = some k) (hn : l.length ≤ Storage.size nodes) :
    ∃ xs m ys, l = xs ++ m :: ys ∧ FirstLeast xs m ys ∧ leastFrom nodes k = .ok m.key := by
  cases l with
  | nil => cases hk
  | cons x rest =>
    cases hk
    obtain ⟨c, hc, he⟩ := chain_linked h.2 (n := Storage.size nodes) (by simp at hn; omega)
    have hnext : (x.node none (firstKey none rest)).next = firstKey none rest := rfl
    have hleast : leastFrom nodes x.key =
        .ok (firstLeast (x.key, x.node none (firstKey none rest)) c).1 := by
      rw [leastFrom, fetch_ok h.1, Result.ok_bind, hnext, hc]
      rfl
    obtain ⟨xs, ys, hsplit, hb, ha⟩ := firstLeast_split (x.key, x.node none (firstKey none rest)) c
    generalize firstLeast (x.key, x.node none (firstKey none rest)) c = b at *
    refine ⟨xs.map fun p => Item.of p.1 p.2, Item.of b.1 b.2, ys.map fun p => Item.of p.1 p.2, ?_,
      ⟨?_, ?_⟩, hleast⟩
    · simpa [he] using congrArg (List.map fun p => Item.of p.1 p.2) hsplit
    · intro x hx
      obtain ⟨p, hp, rfl⟩ := List.mem_map.mp hx
      exact hb p hp
    · intro y hy
      obtain ⟨p, hp, rfl⟩ := List.mem_map.mp hy
      exact ha p hp

end MonotoneQueue.Radix

import Mathlib
import MonotoneQueue.Proofs.Cost
import MonotoneQueue.Proofs.PriorityQueue.Lawful
import MonotoneQueue.Stable

/- Merging two heaps keeps their entries and their order, so the root of a stable queue precedes
   every other entry and a pop takes out a least one. -/
namespace MonotoneQueue.Stable

variable {κ α : Type}

namespace Tree

/-- The entries, in no order. -/
def entries (t : Tree κ α) : Multiset (Entry κ α) := t.toList

@[simp] theorem entries_leaf : (leaf : Tree κ α).entries = 0 := rfl

@[simp] theorem entries_node (n : Nat) (l : Tree κ α) (x : Entry κ α) (r : Tree κ α) :
    (node n l x r).entries = x ::ₘ (l.entries + r.entries) := rfl

theorem entries_join (x : Entry κ α) (a b : Tree κ α) :
    (join x a b).entries = x ::ₘ (a.entries + b.entries) := by
  unfold join
  split
  · rfl
  · rw [entries_node, add_comm]

variable [LE κ] [DecidableLE κ]

@[simp] theorem merge_leaf_left (t : Tree κ α) : merge leaf t = t := rfl

@[simp] theorem merge_leaf_right (t : Tree κ α) : merge t leaf = t := by cases t <;> rfl

theorem merge_node (n m : Nat) (l l' r r' : Tree κ α) (x y : Entry κ α) :
    merge (node n l x r) (node m l' y r') =
      if x.precedes y then join x l (merge r (node m l' y r'))
      else join y l' (merge (node n l x r) r') := rfl

theorem entries_merge (s t : Tree κ α) : (merge s t).entries = s.entries + t.entries := by
  -- on both heaps, as the merge goes down the right spine of one or the other
  induction s generalizing t with
  | leaf => simp
  | node n l x r _ ihr =>
    induction t with
    | leaf => simp
    | node m l' y r' _ ihr' =>
      rw [merge_node]
      split
      · rw [entries_join, ihr, entries_node n l x r, Multiset.cons_add, add_assoc]
      · rw [entries_join, ihr']
        simp only [entries_node, Multiset.add_cons, Multiset.cons_add, Multiset.cons_swap y x]
        abel_nf

theorem entries_insert (t : Tree κ α) (x : Entry κ α) :
    (t.insert x).entries = x ::ₘ t.entries := by
  rw [insert, entries_merge, entries_node, entries_leaf, add_zero, Multiset.cons_add, zero_add]

/-- The root of every subtree precedes what is below it. -/
def Ordered : Tree κ α → Prop
  | leaf => True
  | node _ l x r =>
    (∀ e ∈ l.entries + r.entries, x.precedes e = true) ∧ l.Ordered ∧ r.Ordered

theorem ordered_join {x : Entry κ α} {a b : Tree κ α} (ha : a.Ordered) (hb : b.Ordered)
    (hx : ∀ e ∈ a.entries + b.entries, x.precedes e = true) : (join x a b).Ordered := by
  unfold join
  split
  · exact ⟨hx, ha, hb⟩
  · exact ⟨by rwa [add_comm], hb, ha⟩

end Tree

variable [LE κ] [DecidableLE κ]

theorem Entry.precedes_iff {a b : Entry κ α} :
    a.precedes b = true ↔
      a.priority ≤ b.priority ∧ (b.priority ≤ a.priority → a.seq ≤ b.seq) := by
  simp only [Entry.precedes, decide_eq_true_eq]

variable [Std.IsLinearPreorder κ]

theorem Entry.precedes_refl (a : Entry κ α) : a.precedes a = true :=
  precedes_iff.mpr ⟨Std.le_refl _, fun _ => Nat.le_refl _⟩

theorem Entry.precedes_trans {a b c : Entry κ α} (hab : a.precedes b = true)
    (hbc : b.precedes c = true) : a.precedes c = true := by
  rw [precedes_iff] at *
  refine ⟨Std.le_trans hab.1 hbc.1, ?_⟩
  intro hca
  calc a.seq ≤ b.seq := hab.2 (Std.le_trans hbc.1 hca)
    _ ≤ c.seq := hbc.2 (Std.le_trans hca hab.1)

theorem Entry.precedes_of_not {a b : Entry κ α} (h : ¬ a.precedes b = true) :
    b.precedes a = true := by
  rw [precedes_iff] at *
  rcases Std.le_total (a := a.priority) (b := b.priority) with hab | hba
  · have hseq : ¬ (b.priority ≤ a.priority → a.seq ≤ b.seq) := fun hs => h ⟨hab, hs⟩
    rw [Classical.not_imp] at hseq
    exact ⟨hseq.1, fun _ => by omega⟩
  · refine ⟨hba, ?_⟩
    intro hab
    have hseq : ¬ a.seq ≤ b.seq := fun hs => h ⟨hab, fun _ => hs⟩
    omega

theorem Tree.Ordered.root {n : Nat} {l r : Tree κ α} {x : Entry κ α}
    (h : (node n l x r).Ordered) : ∀ e ∈ (node n l x r).entries, x.precedes e = true := by
  intro e he
  rw [entries_node, Multiset.mem_cons] at he
  rcases he with rfl | he
  · exact e.precedes_refl
  · exact h.1 e he

theorem Tree.ordered_merge {s t : Tree κ α} (hs : s.Ordered) (ht : t.Ordered) :
    (merge s t).Ordered := by
  induction s generalizing t with
  | leaf => exact ht
  | node n l x r _ ihr =>
    induction t with
    | leaf => exact hs
    | node m l' y r' _ ihr' =>
      rw [merge_node]
      split
      · next hxy =>
        -- the root of `s` stays on top: it precedes the root of `t`, which precedes the rest of `t`
        apply ordered_join hs.2.1 (ihr hs.2.2 ht)
        intro e he
        rw [entries_merge, ← add_assoc, Multiset.mem_add] at he
        rcases he with he | he
        · exact hs.1 e he
        · exact Entry.precedes_trans hxy (ht.root e he)
      · next hxy =>
        apply ordered_join ht.2.1 (ihr' ht.2.2)
        intro e he
        rw [entries_merge, add_left_comm, Multiset.mem_add] at he
        rcases he with he | he
        · exact Entry.precedes_trans (Entry.precedes_of_not hxy) (hs.root e he)
        · exact ht.1 e he

theorem Tree.ordered_insert {t : Tree κ α} (h : t.Ordered) (x : Entry κ α) :
    (t.insert x).Ordered := by
  apply ordered_merge _ h
  exact ⟨by simp, trivial, trivial⟩

/-- A pop finds nothing, or takes out the entry that precedes all others. -/
theorem exists_root {q : Stable κ α} (h : q.tree.Ordered) :
    (q.tree.entries = 0 ∧ q.pop = none) ∨
    ∃ x rest, q.pop = some ⟨x.priority, x.value, rest, none⟩ ∧
      q.tree.entries = x ::ₘ rest.tree.entries ∧ rest.tree.Ordered ∧ rest.nextSeq = q.nextSeq ∧
      ∀ e ∈ q.tree.entries, x.precedes e = true := by
  obtain ⟨t, n⟩ := q
  cases t with
  | leaf => exact Or.inl ⟨rfl, rfl⟩
  | node k l x r =>
    refine Or.inr ⟨x, ⟨l.merge r, n⟩, rfl, ?_, Tree.ordered_merge h.2.1 h.2.2, rfl, h.root⟩
    rw [Tree.entries_node, Tree.entries_merge]

/-- What the user pushed. -/
def Entry.pair (e : Entry κ α) : κ × α := (e.priority, e.value)

/-- The pairs in the queue, in no order. -/
def contents (q : Stable κ α) : Multiset (κ × α) := q.tree.entries.map Entry.pair

instance : PriorityQueue.Lawful (Stable κ α) where
  Holds q M := q.tree.Ordered ∧ q.tree.entries.map Entry.pair = M
  Accepts _ _ := True
  holds_empty := ⟨trivial, rfl⟩
  accepts_empty _ := trivial
  push_cases := by
    rintro q M ⟨ho, rfl⟩ p v
    refine Or.inl ⟨trivial, q.push p v, rfl, ⟨?_, ?_⟩, fun _ _ => trivial⟩
    · exact Tree.ordered_insert ho _
    · show (q.tree.insert _).entries.map _ = _
      rw [Tree.entries_insert, Multiset.map_cons]
      rfl
  pop_eq_none := by
    rintro q ⟨ho, hm⟩
    rcases exists_root ho with ⟨-, hq⟩ | ⟨x, rest, -, hentries, -⟩
    · exact congrArg Except.ok hq
    · rw [hentries, Multiset.map_cons] at hm
      exact absurd hm Multiset.cons_ne_zero
  exists_pop := by
    rintro q M ⟨ho, rfl⟩ hne
    rcases exists_root ho with ⟨hzero, -⟩ | ⟨x, rest, hq, hentries, hrest, -, hleast⟩
    · rw [hzero] at hne
      exact absurd rfl hne
    · refine ⟨⟨x.priority, x.value, rest, none⟩, rest.tree.entries.map Entry.pair, congrArg Except.ok hq,
        ?_, ⟨hrest, rfl⟩, ?_, fun _ _ => trivial⟩
      · rw [hentries, Multiset.map_cons]
        rfl
      · intro y hy
        obtain ⟨e, he, rfl⟩ := Multiset.mem_map.mp hy
        exact (Entry.precedes_iff.mp (hleast e he)).1

end MonotoneQueue.Stable

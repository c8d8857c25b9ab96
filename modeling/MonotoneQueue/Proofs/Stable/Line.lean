import Mathlib
import MonotoneQueue.Proofs.PriorityQueue.Line
import MonotoneQueue.Proofs.Stable.Merge
import MonotoneQueue.Stable.Description

/- A stable queue serves its elements as a line does. However the heap lies, its entries in the order of age
   are the pairs in the order in which they were pushed (`InLine`), since ages go up with every push and
   nothing else changes them. Of two entries with equal priorities the older one precedes, so the root, which
   precedes all others, is the first least entry in that order. -/
namespace MonotoneQueue.Stable

open PriorityQueue

variable {κ α : Type}

/-! Weights. -/

namespace Tree

/-- Every node stores its number of entries. -/
def Weighed : Tree κ α → Prop
  | leaf => True
  | node n l _ r => n = l.weight + r.weight + 1 ∧ l.Weighed ∧ r.Weighed

theorem Weighed.card {t : Tree κ α} (h : t.Weighed) : t.entries.card = t.weight := by
  induction t with
  | leaf => rfl
  | node n l x r ihl ihr =>
    obtain ⟨hn, hl, hr⟩ := h
    rw [entries_node, Multiset.card_cons, Multiset.card_add, ihl hl, ihr hr]
    exact hn.symm

theorem weighed_join {x : Entry κ α} {a b : Tree κ α} (ha : a.Weighed) (hb : b.Weighed) :
    (join x a b).Weighed := by
  unfold join
  split
  · exact ⟨rfl, ha, hb⟩
  · exact ⟨by rw [Nat.add_comm a.weight], hb, ha⟩

variable [LE κ] [DecidableLE κ]

theorem weighed_merge {s t : Tree κ α} (hs : s.Weighed) (ht : t.Weighed) : (merge s t).Weighed := by
  induction s generalizing t with
  | leaf => exact ht
  | node n l x r _ ihr =>
    induction t with
    | leaf => exact hs
    | node m l' y r' _ ihr' =>
      rw [merge_node]
      split
      · exact weighed_join hs.2.1 (ihr hs.2.2 ht)
      · exact weighed_join ht.2.1 (ihr' ht.2.2)

theorem weighed_insert {t : Tree κ α} (h : t.Weighed) (x : Entry κ α) : (t.insert x).Weighed :=
  weighed_merge ⟨rfl, trivial, trivial⟩ h

theorem weighed_pop {q : Stable κ α} {top : Popped (Stable κ α) κ α} (h : q.tree.Weighed)
    (hpop : q.pop = some top) : top.rest.tree.Weighed := by
  obtain ⟨t, n⟩ := q
  cases t with
  | leaf => cases hpop
  | node k l x r =>
    cases hpop
    exact weighed_merge h.2.1 h.2.2

end Tree

/-! Ages. -/

/-- The entries stand in the order of age, and every age is below `n`. -/
structure Aged (l : List (Entry κ α)) (n : Nat) : Prop where
  pairwise : l.Pairwise fun x y => x.seq < y.seq
  lt : ∀ x ∈ l, x.seq < n

namespace Aged

variable {l l' : List (Entry κ α)} {n : Nat}

theorem nil : Aged ([] : List (Entry κ α)) n := ⟨.nil, nofun⟩

/-- The next age is that of the youngest entry. -/
theorem concat (h : Aged l n) (p : κ) (v : α) : Aged (l ++ [⟨p, n, v⟩]) (n + 1) := by
  constructor
  · refine List.pairwise_append.mpr ⟨h.pairwise, List.pairwise_singleton _ _, ?_⟩
    intro x hx y hy
    rw [List.mem_singleton.mp hy]
    exact h.lt x hx
  · refine List.forall_mem_append.mpr ⟨fun x hx => Nat.lt_succ_of_lt (h.lt x hx), ?_⟩
    exact List.forall_mem_singleton.mpr (Nat.lt_succ_self n)

theorem sublist (h : Aged l n) (hl : l'.Sublist l) : Aged l' n :=
  ⟨h.pairwise.sublist hl, fun x hx => h.lt x (hl.subset hx)⟩

/-- Ages decide the order of the list. -/
theorem eq_of_perm (h : Aged l n) (h' : Aged l' n) (hl : l.Perm l') : l = l' :=
  hl.eq_of_pairwise (fun _ _ _ _ hxy hyx => absurd hxy (Nat.lt_asymm hyx)) h.pairwise h'.pairwise

variable [LE κ] [DecidableLE κ]

/-- An entry that precedes all others is the first one of least priority. -/
theorem exists_leastAt (h : Aged l n) {x : Entry κ α} (hx : x ∈ l)
    (hprecedes : ∀ y ∈ l, x.precedes y = true) :
    ∃ xs ys, l = xs ++ x :: ys ∧ LeastAt Entry.priority xs x ys := by
  obtain ⟨xs, ys, rfl⟩ := List.append_of_mem hx
  refine ⟨xs, ys, rfl, ?_, ?_⟩
  · intro y hy hyx
    have hage := (Entry.precedes_iff.mp (hprecedes y (List.mem_append_left _ hy))).2 hyx
    have hyounger := (List.pairwise_append.mp h.pairwise).2.2 y hy x List.mem_cons_self
    omega
  · intro y hy
    have hmem : y ∈ xs ++ x :: ys := List.mem_append_right _ (List.mem_cons_of_mem _ hy)
    exact (Entry.precedes_iff.mp (hprecedes y hmem)).1

end Aged

/-! The line. -/

theorem Entry.leastAt_pair [LE κ] {xs ys : List (Entry κ α)} {x : Entry κ α}
    (h : LeastAt Entry.priority xs x ys) :
    LeastAt Prod.fst (xs.map Entry.pair) x.pair (ys.map Entry.pair) :=
  ⟨List.forall_mem_map.mpr h.not_le_before, List.forall_mem_map.mpr h.le_after⟩

variable [LE κ] [DecidableLE κ]

/-- The queue holds these entries, in the order of age, and counts them right. -/
structure InLine (q : Stable κ α) (l : List (Entry κ α)) : Prop where
  ordered : q.tree.Ordered
  weighed : q.tree.Weighed
  entries_eq : q.tree.entries = l
  aged : Aged l q.nextSeq

namespace InLine

variable {q : Stable κ α} {l l' : List (Entry κ α)}

theorem empty : InLine (Stable.empty : Stable κ α) [] := ⟨trivial, trivial, rfl, .nil⟩

theorem size_eq (h : InLine q l) : q.size = (l.map Entry.pair).length := by
  rw [Stable.size, ← h.weighed.card, h.entries_eq, Multiset.coe_card, List.length_map]

theorem unique (h : InLine q l) (h' : InLine q l') : l = l' :=
  h.aged.eq_of_perm h'.aged (Multiset.coe_eq_coe.mp (h.entries_eq.symm.trans h'.entries_eq))

variable [Std.IsLinearPreorder κ]

theorem push (h : InLine q l) (p : κ) (v : α) : InLine (q.push p v) (l ++ [⟨p, q.nextSeq, v⟩]) := by
  refine ⟨Tree.ordered_insert h.ordered _, Tree.weighed_insert h.weighed _, ?_, h.aged.concat p v⟩
  rw [Stable.push, Tree.entries_insert, h.entries_eq, Multiset.cons_coe]
  exact Multiset.coe_eq_coe.mpr (List.perm_append_singleton _ _).symm

/-- In an empty line a pop finds nothing, and otherwise the first least entry is served. -/
theorem pop_cases (h : InLine q l) :
    (l = [] ∧ q.pop = none) ∨ ∃ xs x ys rest, l = xs ++ x :: ys ∧
      LeastAt Entry.priority xs x ys ∧ q.pop = some ⟨x.priority, x.value, rest, none⟩ ∧
      InLine rest (xs ++ ys) := by
  obtain ⟨hzero, hnone⟩ | ⟨x, rest, hsome, hentries, hordered, hseq, hleast⟩ := exists_root h.ordered
  · rw [h.entries_eq, Multiset.coe_eq_zero] at hzero
    exact Or.inl ⟨hzero, hnone⟩
  · rw [h.entries_eq] at hentries hleast
    have hmem : x ∈ l := by
      rw [← Multiset.mem_coe, hentries]
      exact Multiset.mem_cons_self _ _
    obtain ⟨xs, ys, rfl, hat⟩ := h.aged.exists_leastAt hmem hleast
    refine Or.inr ⟨xs, x, ys, rest, rfl, hat, hsome, hordered, Tree.weighed_pop h.weighed hsome, ?_, ?_⟩
    · rw [← Multiset.cons_inj_right x, ← hentries, Multiset.cons_coe]
      exact Multiset.coe_eq_coe.mpr List.perm_middle
    · rw [hseq]
      exact h.aged.sublist ((List.sublist_cons_self x ys).append_left xs)

theorem exists_serves (h : InLine q l) :
    ∃ l', Line.Serves (l.map Entry.pair) (l'.map Entry.pair) (q.pop.map Popped.item) ∧
      InLine (q.pop.elim q Popped.rest) l' := by
  obtain ⟨rfl, hnone⟩ | ⟨xs, x, ys, rest, rfl, hat, hsome, hrest⟩ := h.pop_cases
  · rw [hnone]
    exact ⟨[], ⟨rfl, rfl⟩, h⟩
  · rw [hsome]
    refine ⟨xs ++ ys, ⟨_, _, Entry.leastAt_pair hat, ?_, List.map_append⟩, hrest⟩
    rw [List.map_append, List.map_cons]
    rfl

theorem exists_pushAll (h : InLine q l) (items : List (κ × α)) :
    ∃ q' l', PriorityQueue.pushAll q items = (q', none) ∧ InLine q' l' ∧
      l'.map Entry.pair = l.map Entry.pair ++ items := by
  induction items generalizing q l with
  | nil => exact ⟨q, l, rfl, h, (List.append_nil _).symm⟩
  | cons x items ih =>
    obtain ⟨q', l', hq, h', hl⟩ := ih (h.push x.1 x.2)
    refine ⟨q', l', hq, h', ?_⟩
    rw [hl, List.map_append, List.append_assoc]
    rfl

theorem exists_popMany (n : Nat) (h : InLine q l) (hn : l.length = n) :
    ∃ d, PriorityQueue.popMany n q = .ok d ∧ d.items = Line.sorted (l.map Entry.pair) ∧
      InLine d.rest [] := by
  induction n generalizing q l with
  | zero =>
    obtain rfl := List.length_eq_zero_iff.mp hn
    exact ⟨⟨[], [], q⟩, rfl, Line.sorted_nil.symm, h⟩
  | succ n ih =>
    obtain ⟨rfl, -⟩ | ⟨xs, x, ys, rest, rfl, hat, hsome, hrest⟩ := h.pop_cases
    · cases hn
    · rw [List.length_append, List.length_cons] at hn
      obtain ⟨d, hd, hitems, hdone⟩ := ih hrest (by rw [List.length_append]; omega)
      refine ⟨_, popMany_succ (congrArg Except.ok hsome) hd, ?_, hdone⟩
      show x.pair :: d.items = _
      rw [hitems, List.map_append, List.map_append, List.map_cons,
        Line.sorted_of_leastAt (Entry.leastAt_pair hat)]

end InLine

theorem peek_eq (q : Stable κ α) : q.peek = q.pop.map Popped.item := by
  obtain ⟨t, n⟩ := q
  cases t with
  | leaf => rfl
  | node k l x r => rfl

variable [Described (Stable κ α)]

theorem run_pop (q : Stable κ α) :
    ((.pop : Op κ α).run q).reply = .item (q.pop.map Popped.item) ∧
      ((.pop : Op κ α).run q).state = q.pop.elim q Popped.rest := by
  have hpop : PriorityQueue.pop q = .ok q.pop := rfl
  simp only [Op.run, hpop]
  cases q.pop with
  | none => exact ⟨rfl, rfl⟩
  | some top => exact ⟨rfl, rfl⟩

variable [Std.IsLinearPreorder κ]

theorem InLine.run_allows {q : Stable κ α} {l : List (Entry κ α)} (h : InLine q l) (op : Op κ α) :
    ∃ l', InLine (op.run q).state l' ∧
      Line.Allows (l.map Entry.pair) op (op.run q).reply (l'.map Entry.pair) := by
  cases op with
  | push p v => exact ⟨_, h.push p v, rfl, List.map_append⟩
  | pushAll items =>
    obtain ⟨q', l', hq, h', hl⟩ := h.exists_pushAll items
    refine ⟨l', ?_, ?_, hl⟩
    · simpa only [Op.run, hq] using h'
    · simp only [Op.run, hq]
  | pop =>
    obtain ⟨l', hserves, h'⟩ := h.exists_serves
    exact ⟨l', (run_pop q).2 ▸ h', _, hserves, (run_pop q).1⟩
  | peek =>
    obtain ⟨l', hserves, -⟩ := h.exists_serves
    exact ⟨l, h, _, _, hserves, congrArg Reply.item (peek_eq q), rfl⟩
  | drain =>
    obtain ⟨d, hd, hitems, hdone⟩ := h.exists_popMany _ rfl
    have hdrain : drain q = .ok d := by
      rw [← hd, ← List.length_map, ← h.size_eq]
      rfl
    refine ⟨[], ?_, ?_, rfl⟩
    · simpa only [Op.run, hdrain] using hdone
    · simp only [Op.run, hdrain, hitems]
  | size => exact ⟨l, h, congrArg Reply.count h.size_eq, rfl⟩
  | isEmpty =>
    refine ⟨l, h, congrArg Reply.flag ?_, rfl⟩
    show (q.size == 0) = _
    rw [h.size_eq]
    cases l with
    | nil => rfl
    | cons x l => rfl
  | describe style => exact ⟨l, h, ⟨_, rfl⟩, rfl⟩

/-- Operations one after the other are answered as on the pairs in the line, in any order. -/
theorem InLine.exists_runs {q : Stable κ α} {l : List (Entry κ α)} (h : InLine q l)
    (ops : List (Op κ α)) :
    ∃ l', InLine (after q ops) l' ∧ Runs q (l.map Entry.pair) ops (l'.map Entry.pair) := by
  induction ops generalizing q l with
  | nil => exact ⟨l, h, .nil h.size_eq⟩
  | cons op rest ih =>
    obtain ⟨l₁, h₁, hallows⟩ := h.run_allows op
    obtain ⟨l', h', hruns⟩ := ih h₁
    exact ⟨l', h', .cons h.size_eq hallows.unordered hruns⟩

/-- A stable queue serves in line, which is told by `held`: nothing at first, and after every further
    operation what the line is then. The queue counts what came in and has not come out yet. -/
structure ServesInOrder (q : Stable κ α) (held : List (Op κ α) → List (κ × α)) : Prop where
  start : held [] = []
  allows : ∀ ops op,
    Line.Allows (held ops) op (op.run (after q ops)).reply (held (ops ++ [op]))
  size_eq : ∀ ops, (after q ops).size = (held ops).length
  account : ∀ ops, (after q ops).size + (returned q ops).length = (pushed ops).length
  sorts : ∀ items, (Op.drain.run (after q [.pushAll items])).reply = .items (Line.sorted items)

/-- A new queue is stable, whatever is done with it: each pop takes out, among the elements that are in,
    the one pushed first of those of least priority, and nothing else comes or goes. -/
theorem new_servesInOrder : ∃ held, (Stable.empty : Stable κ α).ServesInOrder held := by
  have hempty : InLine (Stable.empty : Stable κ α) [] := .empty
  choose l hl hruns using hempty.exists_runs
  have hallows : ∀ ops op, Line.Allows ((l ops).map Entry.pair) op
      (op.run (after (Stable.empty : Stable κ α) ops)).reply ((l (ops ++ [op])).map Entry.pair) := by
    intro ops op
    obtain ⟨l', h', hop⟩ := (hl ops).run_allows op
    rw [← after_concat] at h'
    rwa [(hl (ops ++ [op])).unique h']
  have hstart : l [] = [] := (hl []).unique hempty
  refine ⟨fun ops => (l ops).map Entry.pair, congrArg _ hstart, hallows, fun ops => (hl ops).size_eq,
    ?_, ?_⟩
  · intro ops
    have hcard := congrArg Multiset.card (hruns ops).account
    rw [Multiset.card_add, Multiset.card_add, Multiset.coe_card, Multiset.coe_card, Multiset.coe_card,
      ← (hl ops).size_eq] at hcard
    exact (Nat.add_comm _ _).trans hcard
  · intro items
    have hpush : (l [.pushAll items]).map Entry.pair = (l []).map Entry.pair ++ items :=
      (hallows [] (.pushAll items)).2
    rw [hstart, List.map_nil, List.nil_append] at hpush
    have hdrain := (hallows [.pushAll items] .drain).1
    rwa [hpush] at hdrain

/-- Two ties, and priorities that fall below what came out. -/
theorem new_servesInOrder_ties :
    (replay Op.run (Stable.empty : Stable Nat String)
      [.push 5 "a", .push 3 "b", .push 5 "c", .push 3 "d", .pop, .push 1 "e", .pop, .drain, .pop]).map
        Answer.reply =
      [.done, .done, .done, .done, .item (some (3, "b")), .done, .item (some (1, "e")),
        .items [(3, "d"), (5, "a"), (5, "c")], .item none] ∧
    ∃ held, (Stable.empty : Stable Nat String).ServesInOrder held :=
  ⟨by rfl, new_servesInOrder⟩

end MonotoneQueue.Stable

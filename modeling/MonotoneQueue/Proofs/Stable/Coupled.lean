import Mathlib
import MonotoneQueue.Proofs.PriorityQueue.Coupled
import MonotoneQueue.Proofs.Stable.Line

/- Stable queues that agree up to a bound. Which entry comes out next is decided by priority and age alone,
   however the heap lies: in the list of the entries by age (`Lists`) it is the first least one. Entries
   above the bound are not listed and make no difference to the others, so it is enough that the lists of
   two queues match entry by entry. -/
namespace MonotoneQueue.Stable

variable {κ α : Type} [LE κ] [DecidableLE κ]

/-- The entries at or below a bound. -/
def upTo (most : κ) (M : Multiset (Entry κ α)) : Multiset (Entry κ α) :=
  M.filter fun x => x.priority ≤ most

theorem upTo_cons_of_le {most : κ} {x : Entry κ α} (hx : x.priority ≤ most)
    (M : Multiset (Entry κ α)) : upTo most (x ::ₘ M) = x ::ₘ upTo most M :=
  Multiset.filter_cons_of_pos _ hx

theorem upTo_cons_of_not_le {most : κ} {x : Entry κ α} (hx : ¬ x.priority ≤ most)
    (M : Multiset (Entry κ α)) : upTo most (x ::ₘ M) = upTo most M :=
  Multiset.filter_cons_of_neg _ hx

variable [Std.IsLinearPreorder κ]

/-- The entries at or below the bound, in the order of age. -/
structure Lists (most : κ) (q : Stable κ α) (l : List (Entry κ α)) : Prop where
  ordered : q.tree.Ordered
  entries_eq : upTo most q.tree.entries = l
  aged : l.Pairwise fun x y => x.seq < y.seq
  seq_lt : ∀ x ∈ l, x.seq < q.nextSeq

namespace Lists

variable {most p : κ} {q : Stable κ α} {l : List (Entry κ α)}

omit [Std.IsLinearPreorder κ] in
theorem empty (most : κ) : Lists most (Stable.empty : Stable κ α) [] :=
  ⟨trivial, rfl, .nil, nofun⟩

omit [Std.IsLinearPreorder κ] in
theorem toAged (h : Lists most q l) : Aged l q.nextSeq := ⟨h.aged, h.seq_lt⟩

theorem push_of_le (h : Lists most q l) (hp : p ≤ most) (v : α) :
    Lists most (q.push p v) (l ++ [⟨p, q.nextSeq, v⟩]) := by
  constructor
  case ordered => exact Tree.ordered_insert h.ordered _
  case entries_eq =>
    rw [push, Tree.entries_insert, upTo_cons_of_le hp, h.entries_eq, ← Multiset.coe_add, add_comm]
    rfl
  case aged => exact (h.toAged.concat p v).pairwise
  case seq_lt => exact (h.toAged.concat p v).lt

theorem push_of_not_le (h : Lists most q l) (hp : ¬ p ≤ most) (v : α) :
    Lists most (q.push p v) l := by
  refine ⟨Tree.ordered_insert h.ordered _, ?_, h.aged, fun x hx => Nat.lt_succ_of_lt (h.seq_lt x hx)⟩
  rw [push, Tree.entries_insert, upTo_cons_of_not_le hp, h.entries_eq]

theorem pop (h : Lists most q l) {top : Popped (Stable κ α) κ α} (hpop : q.pop = some top)
    (hle : top.priority ≤ most) :
    ∃ xs x ys, l = xs ++ x :: ys ∧ PriorityQueue.LeastAt Entry.priority xs x ys ∧
      top.item = x.pair ∧ Lists most top.rest (xs ++ ys) := by
  rcases exists_root h.ordered with ⟨-, hnone⟩ | ⟨x, rest, hsome, hentries, hordered, hseq, hleast⟩
  · exact nomatch hpop.symm.trans hnone
  obtain rfl := Option.some.inj (hpop.symm.trans hsome)
  have heq := h.entries_eq
  rw [hentries, upTo_cons_of_le hle] at heq
  have hmem : x ∈ l := by
    rw [← Multiset.mem_coe, ← heq]
    exact Multiset.mem_cons_self _ _
  -- every listed entry is in the queue, so the root precedes it
  have hprecedes : ∀ y ∈ l, x.precedes y = true := by
    intro y hy
    rw [← Multiset.mem_coe, ← h.entries_eq] at hy
    exact hleast y (Multiset.mem_of_mem_filter hy)
  obtain ⟨xs, ys, rfl, hat⟩ := h.toAged.exists_leastAt hmem hprecedes
  have hrest : Aged (xs ++ ys) q.nextSeq :=
    h.toAged.sublist ((List.sublist_cons_self x ys).append_left xs)
  refine ⟨xs, x, ys, rfl, hat, rfl, hordered, ?_, hrest.pairwise, hseq ▸ hrest.lt⟩
  rw [← Multiset.cons_inj_right x, heq, Multiset.cons_coe]
  exact Multiset.coe_eq_coe.mpr List.perm_middle

end Lists

/-- The entries have the same priority, and their values are related. -/
structure Entry.Like (R : α → α → Prop) (x y : Entry κ α) : Prop where
  priority_eq : x.priority = y.priority
  value : R x.value y.value

/-- Up to the bound the queues list entries that match. -/
def Couples (most : κ) (R : α → α → Prop) (q q' : Stable κ α) : Prop :=
  ∃ l l', Lists most q l ∧ Lists most q' l' ∧ List.Forall₂ (Entry.Like R) l l'

namespace Couples

variable {most p : κ} {R : α → α → Prop} {q q' : Stable κ α} {v v' : α}

theorem push_both (h : Couples most R q q') (hv : R v v') (p : κ) :
    Couples most R (q.push p v) (q'.push p v') := by
  obtain ⟨l, l', hl, hl', hmatch⟩ := h
  by_cases hp : p ≤ most
  · refine ⟨_, _, hl.push_of_le hp v, hl'.push_of_le hp v', ?_⟩
    exact List.rel_append hmatch (.cons ⟨rfl, hv⟩ .nil)
  · exact ⟨l, l', hl.push_of_not_le hp v, hl'.push_of_not_le hp v', hmatch⟩

theorem push_left (h : Couples most R q q') (hp : ¬ p ≤ most) (v : α) :
    Couples most R (q.push p v) q' := by
  obtain ⟨l, l', hl, hl', hmatch⟩ := h
  exact ⟨l, l', hl.push_of_not_le hp v, hl', hmatch⟩

theorem pop (h : Couples most R q q') {top : Popped (Stable κ α) κ α} (hq : q.pop = some top)
    (hle : top.priority ≤ most) :
    ∃ top', q'.pop = some top' ∧ top'.priority = top.priority ∧ R top.value top'.value ∧
      Couples most R top.rest top'.rest := by
  obtain ⟨l, l', hl, hl', hmatch⟩ := h
  obtain ⟨xs, x, ys, rfl, hx, htop, hrest⟩ := hl.pop hq hle
  obtain ⟨hpriority, hvalue⟩ : top.priority = x.priority ∧ top.value = x.value := Prod.ext_iff.mp htop
  -- an entry that matches is in the second queue, so what comes out there is not above the bound
  obtain ⟨y, hy, hxy⟩ := PriorityQueue.exists_match_left hmatch x (by simp)
  have hmem : y ∈ q'.tree.entries := by
    rw [← Multiset.mem_coe, ← hl'.entries_eq] at hy
    exact Multiset.mem_of_mem_filter hy
  rcases exists_root hl'.ordered with ⟨hzero, -⟩ | ⟨z, rest, hq', -, -, -, hleast⟩
  · rw [hzero] at hmem
    exact absurd hmem (Multiset.notMem_zero y)
  have hz : z.priority ≤ most := by
    apply Std.le_trans (Entry.precedes_iff.mp (hleast y hmem)).1
    rw [← hxy.priority_eq, ← hpriority]
    exact hle
  obtain ⟨xs', x', ys', rfl, hx', htop', hrest'⟩ := hl'.pop hq' hz
  obtain ⟨hpriority', hvalue'⟩ : z.priority = x'.priority ∧ z.value = x'.value :=
    Prod.ext_iff.mp htop'
  obtain ⟨hlike, hothers⟩ := hx.forall₂ hx' (fun _ _ hxy => hxy.priority_eq) hmatch
  refine ⟨_, hq', ?_, ?_, _, _, hrest, hrest', hothers⟩
  · rw [hpriority, hlike.priority_eq, ← hpriority']
  · rw [hvalue]
    show R x.value z.value
    rw [hvalue']
    exact hlike.value

end Couples

instance : PriorityQueue.Coupled (Stable κ α) where
  Couples := Couples
  couples_empty most _ := ⟨[], [], .empty most, .empty most, .nil⟩
  mono := by
    rintro most R R' q q' hR ⟨l, l', hl, hl', hmatch⟩
    exact ⟨l, l', hl, hl', hmatch.imp fun _ _ hxy => ⟨hxy.priority_eq, hR _ _ hxy.value⟩⟩
  push_both := by
    intro most R q q' q₁ p v v' h hv hq
    obtain rfl : q.push p v = q₁ := Except.ok.inj hq
    exact ⟨q'.push p v', rfl, h.push_both hv p⟩
  push_left := by
    intro most R q q' q₁ p v h hp hq
    obtain rfl : q.push p v = q₁ := Except.ok.inj hq
    exact h.push_left hp v
  pop := by
    intro most R q q' top h hq hle
    obtain ⟨top', hq', hrest⟩ := h.pop (Except.ok.inj hq) hle
    exact ⟨top', congrArg Except.ok hq', hrest⟩

end MonotoneQueue.Stable

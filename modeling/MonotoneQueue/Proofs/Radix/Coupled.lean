import Mathlib
import MonotoneQueue.Proofs.Radix.Bag
import MonotoneQueue.Proofs.Radix.Matched

/- Monotone queues that agree up to a bound. Without the items above the bound the bucket lists of a queue
   are bucket lists again (`Buckets.upTo`), and neither placing items nor a pop at or below the bound sees
   the difference: items are consed to their lists one by one, the first least item of a list is the
   first least one without those above it, and relinking goes along the list. So it is enough that the
   lists of two queues match item by item up to the bound (`Buckets.Twins`). -/
namespace MonotoneQueue.Radix

open PriorityQueue (exists_match_left)

variable {w : Nat} {α : Type} {S : Type → Type} [Storage S]

/-- The items have the same priority, and their values are related. -/
structure Item.Like (R : α → α → Prop) (x y : Item w α) : Prop where
  priority_eq : x.priority = y.priority
  value : R x.value y.value

variable {R : α → α → Prop}

namespace Buckets

/-! Without the items above a bound. -/

/-- The items at or below a bound, where they are. -/
def upTo (most : BitVec w) (B : Buckets w α) : Buckets w α :=
  { B with list := fun i => (B.list i).filter fun x => x.priority ≤ most }

variable {most : BitVec w} {B C B' C' : Buckets w α}

theorem upTo_list (most : BitVec w) (B : Buckets w α) (i : Fin (w + 1)) :
    (B.upTo most).list i = (B.list i).filter fun x => x.priority ≤ most := rfl

theorem ext_list (hfloor : B.floor = C.floor) (hlist : ∀ i, B.list i = C.list i) : B = C := by
  obtain ⟨m, f⟩ := B
  obtain rfl : m = C.floor := hfloor
  obtain rfl : f = C.list := funext hlist
  rfl

theorem upTo_set (B : Buckets w α) (i : Fin (w + 1)) (l : List (Item w α)) :
    (B.set i l).upTo most = (B.upTo most).set i (l.filter fun x => x.priority ≤ most) := by
  refine ext_list rfl ?_
  intro j
  rw [upTo_list, set_list, set_list, upTo_list]
  split <;> rfl

theorem upTo_lift (B : Buckets w α) (i : Fin (w + 1)) (m : BitVec w) :
    (B.lift i m).upTo most = (B.upTo most).lift i m := by
  refine ext_list rfl ?_
  intro j
  rw [upTo_list, lift_list, lift_list, upTo_list]
  split <;> rfl

theorem upTo_place_of_le (B : Buckets w α) {x : Item w α} (hx : x.priority ≤ most) :
    (B.place x).upTo most = (B.upTo most).place x := by
  rw [place, upTo_set, List.filter_cons_of_pos (by simpa using hx)]
  rfl

theorem upTo_place_of_not_le (B : Buckets w α) {x : Item w α} (hx : ¬ x.priority ≤ most) :
    (B.place x).upTo most = B.upTo most := by
  refine ext_list rfl ?_
  intro j
  rw [place, upTo_set, List.filter_cons_of_neg (by simpa using hx), set_list]
  split
  · next hj =>
    rw [hj]
    rfl
  · rfl

theorem upTo_foldl_place (l : List (Item w α)) (B : Buckets w α) :
    (l.foldl place B).upTo most =
      (l.filter fun x => x.priority ≤ most).foldl place (B.upTo most) := by
  induction l generalizing B with
  | nil => rfl
  | cons x rest ih =>
    rw [List.foldl_cons, ih]
    by_cases hx : x.priority ≤ most
    · rw [B.upTo_place_of_le hx, List.filter_cons_of_pos (by simpa using hx), List.foldl_cons]
    · rw [B.upTo_place_of_not_le hx, List.filter_cons_of_neg (by simpa using hx)]

/-- A pop at or below the bound is one without the items above it. -/
theorem Pops.upTo {x : Item w α} {n : Option (Notice (BitVec w))} (h : B.Pops x n B')
    (hx : x.priority ≤ most) : ∃ n', (B.upTo most).Pops x n' (B'.upTo most) := by
  cases h with
  | @exact _ rest h =>
    refine ⟨none, ?_⟩
    rw [upTo_set]
    apply Pops.exact
    rw [upTo_list, h, List.filter_cons_of_pos (by simpa using hx)]
  | @least i xs ys _ hi low h hm =>
    have hlow : ∀ j < i, (B.upTo most).list j = [] := by
      intro j hj
      rw [upTo_list, low j hj, List.filter_nil]
    have hlist : (B.upTo most).list i = (xs.filter fun x => x.priority ≤ most) ++
        x :: ys.filter fun x => x.priority ≤ most := by
      rw [upTo_list, h, List.filter_append, List.filter_cons_of_pos (by simpa using hx)]
    have hpops := Pops.least hi hlow hlist ⟨fun y hy => hm.lt_before y (List.mem_of_mem_filter hy),
      fun y hy => hm.le_after y (List.mem_of_mem_filter hy)⟩
    rw [upTo_foldl_place, upTo_lift, List.filter_append]
    exact ⟨_, hpops⟩

/-! Bucket lists that match. -/

/-- The floors are the same, and the lists match item by item. -/
structure Twins (R : α → α → Prop) (B C : Buckets w α) : Prop where
  floor_eq : B.floor = C.floor
  lists : ∀ i, List.Forall₂ (Item.Like R) (B.list i) (C.list i)

namespace Twins

theorem matched (h : Twins R B C) : Matches (Item.Like R) B C := ⟨h.floor_eq, h.lists⟩

theorem place (h : Twins R B C) {x y : Item w α} (hxy : Item.Like R x y) :
    Twins R (B.place x) (C.place y) := by
  obtain ⟨hfloor, hlists⟩ := h.matched.place (fun _ _ hlike => hlike.priority_eq) hxy
  exact ⟨hfloor, hlists⟩

theorem pops (h : Twins R B C) {x y : Item w α} {n n' : Option (Notice (BitVec w))}
    (hx : B.Pops x n B') (hy : C.Pops y n' C') : Item.Like R x y ∧ Twins R B' C' := by
  obtain ⟨hxy, -, hfloor, hlists⟩ := h.matched.pops (fun _ _ hlike => hlike.priority_eq) hx hy
  exact ⟨hxy, hfloor, hlists⟩

end Twins
end Buckets

/-! Queues. -/

/-- Up to the bound the queues stand for bucket lists that match. -/
def Couples (most : BitVec w) (R : α → α → Prop) (q q' : Radix w α S) : Prop :=
  ∃ B C, Stands q B ∧ Stands q' C ∧ Buckets.Twins R (B.upTo most) (C.upTo most)

theorem Stands.exists_place (hw : w ≤ 128) {q q₁ : Radix w α S} {B : Buckets w α} (h : Stands q B)
    {p : BitVec w} {v : α} (hq : q.push p v = .ok q₁) :
    B.floor ≤ p ∧ ∃ k, Stands q₁ (B.place ⟨k, p, v⟩) := by
  by_cases hp : B.floor ≤ p
  · obtain ⟨q', hq', h'⟩ := h.represents.exists_insert hw hp v
    rw [push, hq', Result.map_ok, Except.ok.injEq] at hq
    subst hq
    exact ⟨hp, _, h', h.placed.place hp⟩
  · rw [push, h.represents.insert_eq_error (BitVec.not_le.mp hp), Result.map_error] at hq
    exact nomatch hq

theorem Stands.exists_pops (hw : w ≤ 128) {q : Radix w α S} {B : Buckets w α} (h : Stands q B)
    (hB : B.items ≠ 0) : ∃ x n B' q', B.Pops x n B' ∧
      q.pop = .ok (some ⟨x.priority, x.value, q', n⟩) ∧ Stands q' B' := by
  rcases h.represents.exists_pop hw with ⟨hzero, -⟩ | ⟨x, n, B', q', hpop, hq, h'⟩
  · exact absurd hzero hB
  · exact ⟨x, n, B', q', hpop, hq, h', (h.placed.pops hpop).1⟩

namespace Couples

variable {most : BitVec w} {q q' q₁ : Radix w α S} {p : BitVec w} {v v' : α}

theorem push_both (hw : w ≤ 128) (h : Couples most R q q') (hv : R v v') (hq : q.push p v = .ok q₁) :
    ∃ q₁', q'.push p v' = .ok q₁' ∧ Couples most R q₁ q₁' := by
  obtain ⟨B, C, hB, hC, htwins⟩ := h
  obtain ⟨hp, k, hB₁⟩ := hB.exists_place hw hq
  have hfloor : B.floor = C.floor := htwins.floor_eq
  obtain ⟨q₁', hq', hC₁⟩ := hC.represents.exists_insert hw (hfloor ▸ hp) v'
  refine ⟨q₁', by rw [push, hq', Result.map_ok], _, _, hB₁, ⟨hC₁, hC.placed.place (hfloor ▸ hp)⟩, ?_⟩
  by_cases hle : p ≤ most
  · rw [B.upTo_place_of_le hle, C.upTo_place_of_le hle]
    exact htwins.place ⟨rfl, hv⟩
  · rw [B.upTo_place_of_not_le hle, C.upTo_place_of_not_le hle]
    exact htwins

theorem push_left (hw : w ≤ 128) (h : Couples most R q q') (hp : ¬ p ≤ most)
    (hq : q.push p v = .ok q₁) : Couples most R q₁ q' := by
  obtain ⟨B, C, hB, hC, htwins⟩ := h
  obtain ⟨-, k, hB₁⟩ := hB.exists_place hw hq
  refine ⟨_, C, hB₁, hC, ?_⟩
  rw [B.upTo_place_of_not_le hp]
  exact htwins

theorem pop (hw : w ≤ 128) (h : Couples most R q q') {top : Popped (Radix w α S) (BitVec w) α}
    (hq : q.pop = .ok (some top)) (hle : top.priority ≤ most) :
    ∃ top', q'.pop = .ok (some top') ∧ top'.priority = top.priority ∧ R top.value top'.value ∧
      Couples most R top.rest top'.rest := by
  obtain ⟨B, C, hB, hC, htwins⟩ := h
  rcases hB.represents.exists_pop hw with ⟨-, hq₁⟩ | ⟨x, n, B', q₁, hpop, hq₁, hB'⟩
  · exact nomatch hq.symm.trans hq₁
  obtain rfl := Option.some.inj (Except.ok.inj (hq.symm.trans hq₁))
  obtain ⟨m, hpops⟩ := hpop.upTo hle
  -- an item that matches is in the second queue, so what comes out there is not above the bound either
  have hmem : x ∈ (B.upTo most).items := by
    rw [hpops.items]
    exact Multiset.mem_cons_self _ _
  obtain ⟨i, hi⟩ := Buckets.mem_items.mp hmem
  obtain ⟨y, hy, hxy⟩ := exists_match_left (htwins.lists i) x hi
  have hyC : y ∈ C.items := Buckets.mem_items.mpr ⟨i, List.mem_of_mem_filter hy⟩
  have hne : C.items ≠ 0 := by
    intro hzero
    rw [hzero] at hyC
    exact Multiset.notMem_zero _ hyC
  obtain ⟨z, n', C', q₁', hpop', hq', hC'⟩ := hC.exists_pops hw hne
  have hz : z.priority ≤ most := by
    apply BitVec.le_trans ((hC.placed.pops hpop').2.2 y hyC)
    rw [← hxy.priority_eq]
    exact hle
  obtain ⟨m', hpops'⟩ := hpop'.upTo hz
  obtain ⟨hxz, htwins'⟩ := htwins.pops hpops hpops'
  exact ⟨_, hq', hxz.priority_eq.symm, hxz.value, B', C', ⟨hB', (hB.placed.pops hpop).1⟩, hC', htwins'⟩

end Couples

/-- Monotone queues over words that the mask has room for can be coupled. -/
@[reducible] def coupled (hw : w ≤ 128) : PriorityQueue.Coupled (Radix w α S) where
  Couples := Couples
  couples_empty _ _ := ⟨_, _, .emptyWithCapacity 0 _, .emptyWithCapacity 0 _, rfl, fun _ => .nil⟩
  mono := by
    rintro most R R' q q' hR ⟨B, C, hB, hC, htwins⟩
    refine ⟨B, C, hB, hC, htwins.floor_eq, ?_⟩
    intro i
    exact (htwins.lists i).imp fun _ _ hxy => ⟨hxy.priority_eq, hR _ _ hxy.value⟩
  push_both h := h.push_both hw
  push_left h := h.push_left hw
  pop h := h.pop hw

end MonotoneQueue.Radix

import Mathlib
import MonotoneQueue.PriorityQueue
import MonotoneQueue.Proofs.Bits.Difference
import MonotoneQueue.Proofs.Radix.Linked

/- The bucket lists of a monotone queue, without keys that link them and without a mask. Placing an
   item conses it to the list of its bucket; a pop (`Pops`) takes the head of bucket 0, or else the
   first least item of the lowest occupied bucket, whose other items are placed again over the new
   floor.

   What makes this a priority queue is that every item lies in the bucket to which its priority
   belongs (`Placed`). Placing and popping keep it: when the floor moves up to an item of the
   lowest occupied bucket, the items of higher buckets already lie where they belong. -/
namespace MonotoneQueue.Radix

variable {w : Nat} {α : Type}

/-- Bucket lists over a floor. -/
structure Buckets (w : Nat) (α : Type) where
  floor : BitVec w
  list : Fin (w + 1) → List (Item w α)

namespace Buckets

def empty : Buckets w α := ⟨0#w, fun _ => []⟩

/-- The bucket to which a priority belongs over a floor. -/
def indexOf (m p : BitVec w) : Fin (w + 1) :=
  ⟨bitLength (difference p m), Nat.lt_succ_of_le (bitLength_le _)⟩

/-- All items, in no order. -/
def items (B : Buckets w α) : Multiset (Item w α) := ∑ i, (B.list i : Multiset (Item w α))

/-- The priorities with their values, in no order. -/
def pairs (B : Buckets w α) : Multiset (BitVec w × α) := B.items.map Item.pair

/-- The same lists but for one. -/
def set (B : Buckets w α) (i : Fin (w + 1)) (l : List (Item w α)) : Buckets w α :=
  { B with list := Function.update B.list i l }

/-- Puts an item at the head of the bucket to which it belongs. -/
def place (B : Buckets w α) (x : Item w α) : Buckets w α :=
  B.set (indexOf B.floor x.priority) (x :: B.list (indexOf B.floor x.priority))

/-- Empties a bucket and moves the floor. -/
def lift (B : Buckets w α) (i : Fin (w + 1)) (m : BitVec w) : Buckets w α :=
  { B.set i [] with floor := m }

/-- A pop: the item that it takes out, what it tells, and what it leaves. -/
inductive Pops (B : Buckets w α) : Item w α → Option (Notice (BitVec w)) → Buckets w α → Prop
  | exact {x : Item w α} {rest : List (Item w α)} (h : B.list 0 = x :: rest) :
    Pops B x none (B.set 0 rest)
  | least {i : Fin (w + 1)} {xs ys : List (Item w α)} {m : Item w α} (hi : 0 < i)
    (low : ∀ j < i, B.list j = []) (h : B.list i = xs ++ m :: ys) (hm : FirstLeast xs m ys) :
    Pops B m (some ⟨i.val, m.priority, (xs ++ ys).length⟩)
      ((xs ++ ys).foldl place (B.lift i m.priority))

/-! Single lists. -/

@[simp] theorem set_floor (B : Buckets w α) (i : Fin (w + 1)) (l : List (Item w α)) :
    (B.set i l).floor = B.floor := rfl

@[simp] theorem place_floor (B : Buckets w α) (x : Item w α) : (B.place x).floor = B.floor := rfl

@[simp] theorem lift_floor (B : Buckets w α) (i : Fin (w + 1)) (m : BitVec w) :
    (B.lift i m).floor = m := rfl

theorem set_list (B : Buckets w α) (i j : Fin (w + 1)) (l : List (Item w α)) :
    (B.set i l).list j = if j = i then l else B.list j := by
  simp [set, Function.update_apply]

theorem lift_list (B : Buckets w α) (i j : Fin (w + 1)) (m : BitVec w) :
    (B.lift i m).list j = if j = i then [] else B.list j := B.set_list i j []

@[simp] theorem foldl_place_floor (l : List (Item w α)) (B : Buckets w α) :
    (l.foldl place B).floor = B.floor := by
  induction l generalizing B with
  | nil => rfl
  | cons x rest ih => exact (ih (B.place x)).trans rfl

theorem indexOf_eq_zero_iff {m p : BitVec w} : indexOf m p = 0 ↔ p = m := by
  rw [← bitLength_difference_eq_zero_iff, Fin.ext_iff]
  rfl

/-! Items. -/

theorem mem_items {B : Buckets w α} {x : Item w α} : x ∈ B.items ↔ ∃ i, x ∈ B.list i := by
  simp [items, Multiset.mem_sum]

@[simp] theorem items_empty : (empty : Buckets w α).items = 0 := by
  simp [items, empty]

theorem items_eq_zero_iff {B : Buckets w α} : B.items = 0 ↔ ∀ i, B.list i = [] := by
  simp [items]

theorem card_items (B : Buckets w α) : B.items.card = ∑ i, (B.list i).length := by
  simp [items]

theorem items_set (B : Buckets w α) (i : Fin (w + 1)) (l : List (Item w α)) :
    (B.set i l).items + (B.list i : Multiset (Item w α)) = B.items + (l : Multiset (Item w α)) := by
  have hrest : ∑ j ∈ Finset.univ.erase i, ((B.set i l).list j : Multiset (Item w α)) =
      ∑ j ∈ Finset.univ.erase i, (B.list j : Multiset (Item w α)) := by
    apply Finset.sum_congr rfl
    intro j hj
    rw [set_list, if_neg (Finset.ne_of_mem_erase hj)]
  rw [items, items, ← Finset.add_sum_erase _ _ (Finset.mem_univ i),
    ← Finset.add_sum_erase _ (fun j => (B.list j : Multiset (Item w α))) (Finset.mem_univ i), hrest,
    set_list, if_pos rfl]
  abel

theorem items_place (B : Buckets w α) (x : Item w α) : (B.place x).items = x ::ₘ B.items := by
  have h := B.items_set (indexOf B.floor x.priority) (x :: B.list (indexOf B.floor x.priority))
  rw [← Multiset.cons_coe, ← Multiset.singleton_add, ← add_assoc] at h
  rw [place, add_right_cancel h, add_comm, Multiset.singleton_add]

theorem items_foldl_place (l : List (Item w α)) (B : Buckets w α) :
    (l.foldl place B).items = (l : Multiset (Item w α)) + B.items := by
  induction l generalizing B with
  | nil => simp
  | cons x rest ih =>
    rw [List.foldl_cons, ih, items_place, Multiset.add_cons, ← Multiset.cons_coe,
      Multiset.cons_add]

theorem items_lift (B : Buckets w α) (i : Fin (w + 1)) (m : BitVec w) :
    (B.lift i m).items + (B.list i : Multiset (Item w α)) = B.items := by
  have h := B.items_set i []
  rwa [Multiset.coe_nil, add_zero] at h

theorem Pops.items {B B' : Buckets w α} {x : Item w α} {n : Option (Notice (BitVec w))}
    (h : B.Pops x n B') : B.items = x ::ₘ B'.items := by
  cases h with
  | @exact _ rest h =>
    have := B.items_set 0 rest
    rw [h, ← Multiset.cons_coe, Multiset.add_cons, ← Multiset.cons_add] at this
    exact (add_right_cancel this).symm
  | @least i xs ys _ hi low h hm =>
    rw [items_foldl_place, ← B.items_lift i x.priority, h, add_comm, ← Multiset.cons_add]
    congr 1
    exact Multiset.coe_eq_coe.mpr List.perm_middle

theorem Pops.pairs {B B' : Buckets w α} {x : Item w α} {n : Option (Notice (BitVec w))}
    (h : B.Pops x n B') : B.pairs = x.pair ::ₘ B'.pairs := by
  rw [Buckets.pairs, h.items, Multiset.map_cons]
  rfl

/-! Where items belong. -/

/-- No item is below the floor, and every item lies in the bucket to which it belongs. -/
structure Placed (B : Buckets w α) : Prop where
  floor_le : ∀ i, ∀ x ∈ B.list i, B.floor ≤ x.priority
  index : ∀ i, ∀ x ∈ B.list i, indexOf B.floor x.priority = i

theorem Placed.empty : (empty : Buckets w α).Placed := ⟨by simp [Buckets.empty], by simp [Buckets.empty]⟩

theorem Placed.place {B : Buckets w α} (hB : B.Placed) {x : Item w α}
    (hx : B.floor ≤ x.priority) : (B.place x).Placed := by
  have mem : ∀ {i y}, y ∈ (B.place x).list i →
      y ∈ B.list i ∨ y = x ∧ i = indexOf B.floor x.priority := by
    intro i y hy
    rw [Buckets.place, set_list] at hy
    split at hy
    · next e =>
      rcases List.mem_cons.mp hy with rfl | hy
      · exact Or.inr ⟨rfl, e⟩
      · exact Or.inl (e ▸ hy)
    · exact Or.inl hy
  constructor
  · intro i y hy
    rcases mem hy with hy | ⟨rfl, -⟩
    · exact hB.floor_le i y hy
    · exact hx
  · intro i y hy
    rcases mem hy with hy | ⟨rfl, rfl⟩
    · exact hB.index i y hy
    · rfl

theorem Placed.foldl_place {l : List (Item w α)} {B : Buckets w α} (hB : B.Placed)
    (hl : ∀ x ∈ l, B.floor ≤ x.priority) : (l.foldl Buckets.place B).Placed := by
  induction l generalizing B with
  | nil => exact hB
  | cons x rest ih =>
    exact ih (hB.place (hl x (by simp))) fun y hy => hl y (List.mem_cons_of_mem _ hy)

/-- An item of a lower bucket is smaller than one of a higher bucket. -/
theorem Placed.lt {B : Buckets w α} (hB : B.Placed) {i j : Fin (w + 1)} (hij : i < j)
    {x y : Item w α} (hx : x ∈ B.list i) (hy : y ∈ B.list j) : x.priority < y.priority := by
  have hi := Fin.ext_iff.mp (hB.index i x hx)
  have hj := Fin.ext_iff.mp (hB.index j y hy)
  simp only [indexOf] at hi hj
  apply lt_of_bitLength_difference_lt (hB.floor_le j y hy)
  rw [hi, hj]
  exact hij

/-- The lowest occupied bucket is emptied and the floor moves up to one of its items: the others
    lie where they belong. -/
theorem Placed.lift {B : Buckets w α} (hB : B.Placed) {i : Fin (w + 1)} {m : Item w α}
    (low : ∀ j < i, B.list j = []) (hm : m ∈ B.list i) : (B.lift i m.priority).Placed := by
  -- everything left lies in higher buckets
  have above : ∀ {j y}, y ∈ (B.lift i m.priority).list j → i < j ∧ y ∈ B.list j := by
    intro j y hy
    rw [lift_list] at hy
    split at hy
    · cases hy
    · next hne =>
      rcases lt_or_gt_of_ne hne with hlt | hgt
      · rw [low j hlt] at hy
        cases hy
      · exact ⟨hgt, hy⟩
  have hi := Fin.ext_iff.mp (hB.index i m hm)
  constructor
  · intro j y hy
    obtain ⟨hij, hy⟩ := above hy
    exact BitVec.le_of_lt (hB.lt hij hm hy)
  · intro j y hy
    obtain ⟨hij, hy⟩ := above hy
    have hj := Fin.ext_iff.mp (hB.index j y hy)
    simp only [indexOf] at hi hj
    apply Fin.ext
    show bitLength (difference y.priority m.priority) = j
    rw [← hj]
    apply bitLength_difference_of_lt
    rw [hi, hj]
    exact hij

/-- A pop takes out an item of least priority, moves the floor up to it, and leaves the others
    where they belong. -/
theorem Placed.pops {B B' : Buckets w α} {x : Item w α} {n : Option (Notice (BitVec w))}
    (hB : B.Placed) (h : B.Pops x n B') :
    B'.Placed ∧ B'.floor = x.priority ∧ ∀ y ∈ B.items, x.priority ≤ y.priority := by
  cases h with
  | @exact _ rest h =>
    have hx : x ∈ B.list 0 := by simp [h]
    have hfloor : x.priority = B.floor := indexOf_eq_zero_iff.mp (hB.index 0 x hx)
    have sub : ∀ {i y}, y ∈ (B.set 0 rest).list i → y ∈ B.list i := by
      intro i y hy
      rw [set_list] at hy
      split at hy
      · next e =>
        rw [e, h]
        exact List.mem_cons_of_mem _ hy
      · exact hy
    refine ⟨⟨fun i y hy => hB.floor_le i y (sub hy), fun i y hy => hB.index i y (sub hy)⟩,
      hfloor.symm, fun y hy => ?_⟩
    obtain ⟨i, hi⟩ := mem_items.mp hy
    rw [hfloor]
    exact hB.floor_le i y hi
  | @least i xs ys _ hi low h hm =>
    have hx : x ∈ B.list i := by simp [h]
    refine ⟨(hB.lift low hx).foldl_place fun y hy => ?_, by simp, fun y hy => ?_⟩
    · exact hm.le (by rcases List.mem_append.mp hy with hy | hy <;> simp [hy])
    · obtain ⟨j, hj⟩ := mem_items.mp hy
      rcases lt_trichotomy j i with hlt | rfl | hgt
      · rw [low j hlt] at hj
        cases hj
      · exact hm.le (h ▸ hj)
      · exact BitVec.le_of_lt (hB.lt hgt hx hj)

end Buckets
end MonotoneQueue.Radix

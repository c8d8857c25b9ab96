import Mathlib
import MonotoneQueue.Proofs.Radix.Bag

/- The order in which a monotone queue gives out equal priorities. They lie in one bucket, next to others
   perhaps, and the order in which they lie there (`Buckets.tied`) is all that counts. A push puts one in
   front. Linking the elements of an emptied bucket again, one after the other at the head of a list, turns
   their order around, and no pop of another element does anything else to it (`Pops.tied_of_ne`). At last
   the first of them comes out, which turns the others around once more; these lie in bucket 0 then, and
   come out as they lie (`Pops.tied_of_eq`). -/
namespace MonotoneQueue.Radix

variable {w : Nat} {α : Type} {S : Type → Type} [Storage S]

namespace Buckets

variable {B B' : Buckets w α} {p : BitVec w}

/-- The items of one priority in a list. -/
def atPriority (p : BitVec w) (l : List (Item w α)) : List (Item w α) :=
  l.filter fun x => x.priority = p

/-- The items of one priority, in the order in which they lie in their bucket. -/
def tied (B : Buckets w α) (p : BitVec w) : List (Item w α) :=
  atPriority p (B.list (indexOf B.floor p))

/-! Lists. -/

theorem atPriority_eq_nil_iff {l : List (Item w α)} :
    atPriority p l = [] ↔ ∀ x ∈ l, x.priority ≠ p := by
  simp [atPriority, List.filter_eq_nil_iff]

theorem atPriority_cons_of_eq {x : Item w α} (hx : x.priority = p) (l : List (Item w α)) :
    atPriority p (x :: l) = x :: atPriority p l :=
  List.filter_cons_of_pos (decide_eq_true hx)

theorem atPriority_cons_of_ne {x : Item w α} (hx : x.priority ≠ p) (l : List (Item w α)) :
    atPriority p (x :: l) = atPriority p l :=
  List.filter_cons_of_neg (by simpa using hx)

theorem atPriority_append (l l' : List (Item w α)) :
    atPriority p (l ++ l') = atPriority p l ++ atPriority p l' := List.filter_append l l'

/-! Linking. -/

theorem tied_empty (p : BitVec w) : (empty : Buckets w α).tied p = [] := rfl

/-- An item that is placed comes in front of those of its priority and leaves the others alone. -/
theorem tied_place (B : Buckets w α) (x : Item w α) (p : BitVec w) :
    (B.place x).tied p = atPriority p [x] ++ B.tied p := by
  rw [tied, place_floor, place, set_list, tied]
  by_cases hx : x.priority = p
  · rw [if_pos (by rw [hx]), atPriority_cons_of_eq hx, atPriority_cons_of_eq hx, hx]
    rfl
  · rw [atPriority_cons_of_ne hx]
    split
    · next e => rw [atPriority_cons_of_ne hx, e]; rfl
    · rfl

/-- Items placed one after the other are turned around. -/
theorem tied_foldl_place (l : List (Item w α)) (B : Buckets w α) (p : BitVec w) :
    (l.foldl place B).tied p = (atPriority p l).reverse ++ B.tied p := by
  induction l generalizing B with
  | nil => rfl
  | cons x rest ih =>
    rw [List.foldl_cons, ih, tied_place]
    by_cases hx : x.priority = p
    · rw [atPriority_cons_of_eq hx, atPriority_cons_of_eq hx, List.reverse_cons, List.append_assoc]
      rfl
    · rw [atPriority_cons_of_ne hx, atPriority_cons_of_ne hx]
      rfl

theorem Placed.atPriority_list (hB : B.Placed) (p : BitVec w) (i : Fin (w + 1)) :
    atPriority p (B.list i) = if i = indexOf B.floor p then B.tied p else [] := by
  split
  · next e => rw [e, tied]
  · next e =>
    rw [atPriority_eq_nil_iff]
    intro x hx hxp
    exact e (by rw [← hxp, hB.index i x hx])

theorem Placed.eq_indexOf (hB : B.Placed) {i : Fin (w + 1)} (hi : atPriority p (B.list i) ≠ []) :
    i = indexOf B.floor p := by
  by_contra hne
  exact hi (by rw [hB.atPriority_list, if_neg hne])

/-- Lists that have the same items of a priority in every bucket have them in the same order. -/
theorem Placed.tied_eq (hB : B.Placed) (hB' : B'.Placed)
    (h : ∀ i, atPriority p (B'.list i) = atPriority p (B.list i)) : B'.tied p = B.tied p := by
  have hi := h (indexOf B.floor p)
  have hi' := h (indexOf B'.floor p)
  rw [hB.atPriority_list, hB'.atPriority_list] at hi hi'
  by_cases e : indexOf B.floor p = indexOf B'.floor p
  · rwa [if_pos e, if_pos rfl] at hi
  · rw [if_neg e, if_pos rfl] at hi
    rw [if_pos rfl, if_neg (Ne.symm e)] at hi'
    rw [← hi, hi']

/-- An emptied bucket loses the items of a priority if it has any, and nothing else changes about them
    when the floor moves. -/
theorem Placed.tied_lift (hB : B.Placed) {i : Fin (w + 1)} {m : Item w α} (low : ∀ j < i, B.list j = [])
    (hm : m ∈ B.list i) (p : BitVec w) :
    (B.lift i m.priority).tied p = if atPriority p (B.list i) = [] then B.tied p else [] := by
  have hlift := hB.lift low hm
  split
  · next e =>
    apply hB.tied_eq hlift
    intro j
    rw [lift_list]
    split
    · next hj => rw [hj, e]; rfl
    · rfl
  · next e =>
    -- the items of that priority lay in the bucket that is empty now
    rw [tied, lift_list]
    split
    · rfl
    · next hj => rw [hB.atPriority_list, if_neg (hB.eq_indexOf e ▸ hj)]

/-! Popping. -/

/-- The bucket of this number, if there is one. -/
def bucket (B : Buckets w α) (i : Nat) : List (Item w α) :=
  if h : i < w + 1 then B.list ⟨i, h⟩ else []

theorem bucket_val (B : Buckets w α) (i : Fin (w + 1)) : B.bucket i.val = B.list i := dif_pos i.isLt

/-- What was told of a pop tells that it emptied a bucket with items of the priority. -/
def turns (B : Buckets w α) (p : BitVec w) (told : Option (Notice (BitVec w))) : Bool :=
  told.any fun n => (B.bucket n.bucket).any fun x => x.priority = p

theorem turns_some (B : Buckets w α) (p m : BitVec w) (i : Fin (w + 1)) (n : Nat) :
    B.turns p (some ⟨i.val, m, n⟩) = true ↔ atPriority p (B.list i) ≠ [] := by
  rw [Ne, atPriority_eq_nil_iff]
  simp [turns, bucket_val]

variable {x : Item w α} {told : Option (Notice (BitVec w))}

/-- A pop of another priority turns the items of a priority around if it empties their bucket, and leaves
    them as they are otherwise. -/
theorem Pops.tied_of_ne (hB : B.Placed) (h : B.Pops x told B') (hx : x.priority ≠ p) :
    B'.tied p = if B.turns p told then (B.tied p).reverse else B.tied p := by
  have hB' := (hB.pops h).1
  cases h with
  | @exact _ rest h =>
    show (B.set 0 rest).tied p = B.tied p
    apply hB.tied_eq hB'
    intro i
    rw [set_list]
    split
    · next e => rw [e, h, atPriority_cons_of_ne hx]
    · rfl
  | @least i xs ys _ _ low h _ =>
    have hothers : atPriority p (xs ++ ys) = atPriority p (B.list i) := by
      rw [h, atPriority_append, atPriority_append, atPriority_cons_of_ne hx]
    rw [tied_foldl_place, hB.tied_lift low (by simp [h]), hothers]
    split
    · next e =>
      rw [e, if_neg fun hturns => (B.turns_some p _ i _).mp hturns e]
      rfl
    · next e =>
      rw [if_pos ((B.turns_some p _ i _).mpr e), List.append_nil, hB.atPriority_list,
        if_pos (hB.eq_indexOf e)]

/-- A pop of a priority takes out the first item of it. The others stay as they are if the floor was there
    before, and are turned around if it moves there now. -/
theorem Pops.tied_of_eq (hB : B.Placed) (h : B.Pops x told B') (hx : x.priority = p) :
    B.tied p = x :: if B.floor = p then B'.tied p else (B'.tied p).reverse := by
  cases h with
  | @exact _ rest h =>
    have hfloor : p = B.floor := hx.symm.trans (indexOf_eq_zero_iff.mp (hB.index 0 x (by simp [h])))
    have hzero : indexOf B.floor p = 0 := indexOf_eq_zero_iff.mpr hfloor
    rw [if_pos hfloor.symm, tied, tied, set_floor, hzero, set_list, if_pos rfl, h,
      atPriority_cons_of_eq hx]
  | @least i xs ys _ hi low h hm =>
    have hmem : x ∈ B.list i := by simp [h]
    have hindex : indexOf B.floor p = i := hx ▸ hB.index i x hmem
    have hfloor : B.floor ≠ p := by
      intro e
      rw [indexOf_eq_zero_iff.mpr e.symm] at hindex
      exact hi.ne hindex
    have hbefore : atPriority p xs = [] := by
      rw [atPriority_eq_nil_iff]
      intro y hy hyp
      have := hm.lt_before y hy
      rw [hx, hyp] at this
      exact BitVec.lt_irrefl _ this
    have hitems : atPriority p (B.list i) = x :: atPriority p ys := by
      rw [h, atPriority_append, hbefore, atPriority_cons_of_eq hx, List.nil_append]
    have hothers : atPriority p (xs ++ ys) = atPriority p ys := by
      rw [atPriority_append, hbefore, List.nil_append]
    rw [if_neg hfloor, tied_foldl_place, hB.tied_lift low hmem, hitems, if_neg (List.cons_ne_nil _ _),
      List.append_nil, hothers, List.reverse_reverse, tied, hindex, hitems]

/-- As long as any item is at the floor, nothing else comes out. -/
theorem Pops.tied_floor (hB : B.Placed) (h : B.Pops x told B') (hx : x.priority ≠ B.floor) :
    B.tied B.floor = [] := by
  have hzero : indexOf B.floor B.floor = 0 := indexOf_eq_zero_iff.mpr rfl
  cases h with
  | exact h => exact absurd (indexOf_eq_zero_iff.mp (hB.index 0 x (by simp [h]))) hx
  | least hi low => rw [tied, hzero, low 0 hi]; rfl

end Buckets

/-! Stored queues. -/

/-- The elements of a bucket, in the order of its list. -/
def bucket (q : Radix w α S) (i : Nat) : List (Node w α) :=
  match chain q.nodes (Storage.size q.nodes) q.heads[i]?.join with
  | .ok l => l.map Prod.snd
  | .error _ => []

/-- The pop empties a bucket with elements of the priority. -/
def relinks (p : BitVec w) (q : Radix w α S) (top : Popped (Radix w α S) (BitVec w) α) : Bool :=
  top.notice.any fun n => (q.bucket n.bucket).any fun x => x.priority = p

/-- How many of the next `n` pops empty a bucket with elements of the priority, before the first of these
    elements comes out. -/
def relinkings (p : BitVec w) : Nat → Radix w α S → Nat
  | 0, _ => 0
  | n + 1, q =>
    match q.pop with
    | .ok (some top) =>
      if top.priority = p then 0 else (relinks p q top).toNat + relinkings p n top.rest
    | _ => 0

theorem relinkings_of_eq {p : BitVec w} {q : Radix w α S} {top : Popped (Radix w α S) (BitVec w) α}
    (hpop : q.pop = .ok (some top)) (hp : top.priority = p) (n : Nat) : relinkings p (n + 1) q = 0 := by
  simp only [relinkings, hpop, if_pos hp]

theorem relinkings_of_ne {p : BitVec w} {q : Radix w α S} {top : Popped (Radix w α S) (BitVec w) α}
    (hpop : q.pop = .ok (some top)) (hp : top.priority ≠ p) (n : Nat) :
    relinkings p (n + 1) q = (relinks p q top).toNat + relinkings p n top.rest := by
  simp only [relinkings, hpop, if_neg hp]

namespace Stands

variable {q : Radix w α S} {B : Buckets w α} {p : BitVec w}

theorem bucket_priorities (h : Stands q B) (i : Nat) :
    (q.bucket i).map Node.priority = (B.bucket i).map Item.priority := by
  by_cases hi : i < w + 1
  · have hhead : q.heads[i]?.join = firstKey none (B.list ⟨i, hi⟩) := by
      rw [← h.represents.head_eq, Vector.getElem?_eq_getElem hi, Vector.get_eq_getElem]
      rfl
    obtain ⟨c, hc, hitems⟩ := chain_linked (h.represents.linked ⟨i, hi⟩) (h.represents.length_le _)
    rw [bucket, hhead, hc, Buckets.bucket, dif_pos hi, ← hitems, List.map_map, List.map_map]
    rfl
  · have hhead : q.heads[i]? = none := by simpa using hi
    rw [bucket, hhead, Buckets.bucket, dif_neg hi]
    cases Storage.size q.nodes <;> rfl

theorem relinks_eq (h : Stands q B) (p : BitVec w) (top : Popped (Radix w α S) (BitVec w) α) :
    relinks p q top = B.turns p top.notice := by
  have hany : ∀ i, ((q.bucket i).any fun x => x.priority = p) =
      (B.bucket i).any fun x => x.priority = p := by
    intro i
    have hpriorities := congrArg (List.any · (· = p)) (h.bucket_priorities i)
    rwa [List.any_map, List.any_map] at hpriorities
  rw [relinks, Buckets.turns]
  simp only [hany]

end Stands

/-! Values. -/

/-- The values of one priority, in order. -/
def valuesAt (p : BitVec w) (items : List (BitVec w × α)) : List α :=
  (items.filter fun x => x.1 = p).map Prod.snd

/-- A list turned around so many times. -/
def turned (n : Nat) (l : List α) : List α := if n % 2 = 0 then l else l.reverse

/-- The first comes out, then the others, which are turned around when they are linked again. -/
def served : List α → List α
  | [] => []
  | v :: rest => v :: rest.reverse

theorem valuesAt_cons_of_eq {p : BitVec w} {x : BitVec w × α} (hx : x.1 = p)
    (items : List (BitVec w × α)) : valuesAt p (x :: items) = x.2 :: valuesAt p items := by
  simp [valuesAt, hx]

theorem valuesAt_cons_of_ne {p : BitVec w} {x : BitVec w × α} (hx : x.1 ≠ p)
    (items : List (BitVec w × α)) : valuesAt p (x :: items) = valuesAt p items := by
  simp [valuesAt, hx]

theorem turned_add (b : Bool) (n : Nat) (l : List α) :
    turned (b.toNat + n) l = turned n (if b then l.reverse else l) := by
  cases b with
  | false => simp [turned]
  | true =>
    simp only [turned, Bool.toNat_true, if_true, List.reverse_reverse]
    split
    · next h => rw [if_neg (by omega)]
    · next h => rw [if_pos (by omega)]

namespace Stands

variable {q : Radix w α S} {B : Buckets w α}

/-- The values of a priority come out as they lie if the floor is there, and otherwise as they lie when the
    first of them comes out. -/
theorem popMany_ties (hw : w ≤ 128) (p : BitVec w) (n : Nat) (h : Stands q B) (hn : B.pairs.card = n) :
    ∃ d, PriorityQueue.popMany n q = .ok d ∧
      valuesAt p d.items =
        if B.floor = p then (B.tied p).map Item.value
        else served (turned (relinkings p n q) ((B.tied p).map Item.value)) := by
  induction n generalizing q B with
  | zero =>
    rw [Buckets.pairs, Multiset.card_map, Multiset.card_eq_zero, Buckets.items_eq_zero_iff] at hn
    have hnone : B.tied p = [] := by rw [Buckets.tied, hn]; rfl
    refine ⟨⟨[], [], q⟩, rfl, ?_⟩
    rw [hnone]
    simp [turned, served, valuesAt]
  | succ n ih =>
    obtain ⟨hz, -⟩ | ⟨x, told, B', q', hpop, hq, hrest⟩ := h.represents.exists_pop hw
    · rw [Buckets.pairs, hz] at hn
      cases hn
    obtain ⟨hplaced, hfloor, -⟩ := h.placed.pops hpop
    have hcard : B'.pairs.card = n := by
      rw [hpop.pairs, Multiset.card_cons] at hn
      omega
    obtain ⟨d, hd, hvalues⟩ := ih ⟨hrest, hplaced⟩ hcard
    refine ⟨_, PriorityQueue.popMany_succ hq hd, ?_⟩
    show valuesAt p (x.pair :: d.items) = _
    by_cases hx : x.priority = p
    · -- the first of them comes out, and the floor is there from now on
      rw [if_pos (hfloor.trans hx)] at hvalues
      rw [valuesAt_cons_of_eq hx, hvalues, hpop.tied_of_eq h.placed hx, relinkings_of_eq hq hx]
      split
      · rfl
      · rw [List.map_cons, List.map_reverse]
        exact congrArg (x.value :: ·) (List.reverse_reverse _).symm
    · rw [if_neg (hfloor ▸ hx)] at hvalues
      rw [valuesAt_cons_of_ne hx, hvalues, hpop.tied_of_ne h.placed hx]
      by_cases hp : B.floor = p
      · have hnone : B.tied p = [] := hp ▸ hpop.tied_floor h.placed (hp ▸ hx)
        rw [if_pos hp, hnone]
        simp [turned, served]
      · rw [if_neg hp, relinkings_of_ne hq hx, turned_add, h.relinks_eq]
        split
        · rw [List.map_reverse]
        · rfl

/-- Pushed values of a priority lie in their bucket in reverse, in front of those that were there. -/
theorem exists_pushAll_ties (hw : w ≤ 128) (h : Stands q B) (items : List (BitVec w × α))
    (hitems : ∀ x ∈ items, B.floor ≤ x.1) :
    ∃ q' B', PriorityQueue.pushAll q items = (q', none) ∧ Stands q' B' ∧ B'.floor = B.floor ∧
      ∀ p, (B'.tied p).map Item.value =
        (valuesAt p items).reverse ++ (B.tied p).map Item.value := by
  induction items generalizing q B with
  | nil => exact ⟨q, B, rfl, h, rfl, fun _ => rfl⟩
  | cons x rest ih =>
    have hx := hitems x List.mem_cons_self
    obtain ⟨q₁, hinsert, h₁⟩ := h.represents.exists_insert hw hx x.2
    have hpush : PriorityQueue.push q x.1 x.2 = .ok q₁ := by
      show (·.2) <$> q.insert x.1 x.2 = .ok q₁
      rw [hinsert, Result.map_ok]
    obtain ⟨q', B', hall, h', hfloor, hvalues⟩ := ih ⟨h₁, h.placed.place hx⟩
      fun y hy => hitems y (List.mem_cons_of_mem _ hy)
    refine ⟨q', B', ?_, h', hfloor, fun p => ?_⟩
    · simp only [PriorityQueue.pushAll, hpush, hall]
    · rw [hvalues, Buckets.tied_place, List.map_append]
      by_cases hp : x.1 = p
      · rw [valuesAt_cons_of_eq hp, Buckets.atPriority_cons_of_eq hp, List.reverse_cons,
          List.append_assoc]
        rfl
      · rw [valuesAt_cons_of_ne hp, Buckets.atPriority_cons_of_ne hp]
        rfl

end Stands

/-- How values come out that were pushed in the order of `vs` and are linked again so many times before the
    first of them comes out: after an even number the last one and then the others as they were pushed,
    after an odd number the first one and then the others in reverse. -/
def tieOrder (relinkings : Nat) (vs : List α) : List α :=
  if relinkings % 2 = 0 then vs.getLast?.toList ++ vs.dropLast else vs.head?.toList ++ vs.tail.reverse

theorem served_eq (l : List α) : served l = l.head?.toList ++ l.tail.reverse := by
  cases l with
  | nil => rfl
  | cons v rest => rfl

theorem served_turned_reverse (n : Nat) (vs : List α) : served (turned n vs.reverse) = tieOrder n vs := by
  rw [served_eq, turned, tieOrder]
  split
  · rw [List.head?_reverse, List.tail_reverse, List.reverse_reverse]
  · rw [List.reverse_reverse]

/-- The queue takes the items in and is drained then. Of the values of one priority, those at zero come out
    last in, first out, and those at any other priority as is told by how many times they are linked again
    before. -/
def OrdersTies (new : Radix w α S) (items : List (BitVec w × α)) : Prop :=
  ∃ q d, PriorityQueue.pushAll new items = (q, none) ∧ PriorityQueue.drain q = .ok d ∧
    ∀ p, valuesAt p d.items =
      if p = 0#w then (valuesAt p items).reverse
      else tieOrder (relinkings p q.size q) (valuesAt p items)

/-- A new queue takes in whatever is pushed, and orders the ties. -/
theorem new_ordersTies (hw : w ≤ 128) (n : Nat) (g : Gauge) (items : List (BitVec w × α)) :
    OrdersTies (emptyWithCapacity n g : Radix w α S) items := by
  have hzero : ∀ x ∈ items, (Buckets.empty : Buckets w α).floor ≤ x.1 := by
    intro x _
    rw [BitVec.le_def, Buckets.empty, BitVec.toNat_zero]
    exact Nat.zero_le _
  obtain ⟨q, B, hpush, h, hfloor, hpushed⟩ :=
    Stands.exists_pushAll_ties (S := S) hw (.emptyWithCapacity n g) items hzero
  obtain ⟨d, -, hd, -⟩ := h.exists_drain hw
  refine ⟨q, d, hpush, hd, fun p => ?_⟩
  obtain ⟨d', hd', hvalues⟩ := h.popMany_ties hw p _ h.size_eq.symm
  obtain rfl : d = d' := Except.ok.inj (hd.symm.trans hd')
  rw [hvalues, hfloor, hpushed, Buckets.tied_empty, List.map_nil, List.append_nil, served_turned_reverse]
  exact if_congr eq_comm rfl rfl

/-- Fives are linked again once, when four comes out, and sevens a second time, when six does. -/
theorem new_ordersTies_counted :
    let items : List (BitVec 8 × String) :=
      [(7, "a"), (0, "b"), (5, "c"), (7, "d"), (6, "e"), (4, "f"), (5, "g"), (0, "h"), (7, "i"), (5, "j")]
    let q := (PriorityQueue.pushAll (Radix.empty : Radix 8 String) items).1
    relinkings 5 q.size q = 1 ∧ tieOrder 1 (valuesAt 5 items) = ["c", "j", "g"] ∧
    relinkings 7 q.size q = 2 ∧ tieOrder 2 (valuesAt 7 items) = ["i", "a", "d"] ∧
    OrdersTies (Radix.empty : Radix 8 String) items :=
  ⟨by rfl, by rfl, by rfl, by rfl, new_ordersTies (by decide) 0 .leadingZeros _⟩

end MonotoneQueue.Radix

import Mathlib
import MonotoneQueue.Proofs.Radix.Acts
import MonotoneQueue.Proofs.Radix.Contents

/- What a pop does to the elements that it leaves behind. Out of bucket 0 it takes the head and nothing else
   changes place. Out of a bucket above 0 it takes the first least element, and the other elements of that
   bucket are linked again (`relinked`): over the new floor they belong to lower buckets. All others stay where
   they are, although the floor has moved (`Buckets.Parts`). -/
namespace MonotoneQueue.Radix

variable {w : Nat} {α : Type} {S : Type → Type} [Storage S]

/-- The keys that a pop links again. -/
def relinked (q : Radix w α S) : List Key :=
  match q.extract with
  | .ok (some e) => e.moved
  | _ => []

theorem Extracts.relinked_none {q : Radix w α S} (h : q.Extracts none) : q.relinked = [] := by
  rw [relinked, h.extract_eq]

theorem Extracts.relinked_some {q : Radix w α S} {e : Extracted w α S} (h : q.Extracts (some e)) :
    q.relinked = e.moved := by
  rw [relinked, h.extract_eq]

/-! Bucket lists. -/

namespace Buckets

/-- A pop takes `x` out of bucket lists, moves the other items of its bucket and keeps those of other
    buckets. -/
structure Parts (B : Buckets w α) (x : Item w α) (moved : List (Item w α)) (kept : Multiset (Item w α))
    (told : Option (Notice (BitVec w))) (B' : Buckets w α) : Prop where
  items_eq : B.items = x ::ₘ (moved + kept)
  rest_eq : B'.items = moved + kept
  floor_eq : B'.floor = x.priority
  floor_le : B.floor ≤ x.priority
  least : ∀ y ∈ B.items, x.priority ≤ y.priority
  /-- What moves lay next to what comes out, and comes to lie below. -/
  moved_index : ∀ y ∈ moved, indexOf B.floor y.priority = indexOf B.floor x.priority
  moved_lt : ∀ y ∈ moved, indexOf B'.floor y.priority < indexOf B.floor x.priority
  kept_index : ∀ y ∈ kept, indexOf B'.floor y.priority = indexOf B.floor y.priority
  kept_ne : B.floor < x.priority → ∀ y ∈ kept, indexOf B.floor y.priority ≠ indexOf B.floor x.priority
  told_eq : told = if B.floor < x.priority
    then some ⟨(indexOf B.floor x.priority).val, x.priority, moved.length⟩ else none

theorem Parts.moved_eq_nil {B B' : Buckets w α} {x : Item w α} {moved : List (Item w α)}
    {kept : Multiset (Item w α)} {told : Option (Notice (BitVec w))} (h : B.Parts x moved kept told B')
    (hx : ¬ B.floor < x.priority) : moved = [] := by
  have hfloor : x.priority = B.floor := BitVec.le_antisymm (BitVec.not_lt.mp hx) h.floor_le
  apply List.eq_nil_iff_forall_not_mem.mpr
  intro y hy
  have hlt := h.moved_lt y hy
  rw [indexOf_eq_zero_iff.mpr hfloor] at hlt
  exact Fin.not_lt_zero _ hlt

theorem Placed.parts_exact {B : Buckets w α} (hB : B.Placed) {x : Item w α} {rest : List (Item w α)}
    (h : B.list 0 = x :: rest) : B.Parts x [] (B.set 0 rest).items none (B.set 0 rest) := by
  obtain ⟨-, hfloor, hle⟩ := hB.pops (.exact h)
  have hfloor : B.floor = x.priority := hfloor
  constructor
  case items_eq =>
    rw [Multiset.coe_nil, zero_add]
    exact (Pops.exact h).items
  case rest_eq => rw [Multiset.coe_nil, zero_add]
  case floor_eq => exact hfloor
  case floor_le => exact BitVec.le_of_eq hfloor
  case least => exact hle
  case moved_index => exact fun y hy => absurd hy List.not_mem_nil
  case moved_lt => exact fun y hy => absurd hy List.not_mem_nil
  case kept_index => exact fun _ _ => rfl
  case kept_ne => exact fun hlt => absurd hlt (hfloor ▸ BitVec.lt_irrefl _)
  case told_eq => rw [if_neg (hfloor ▸ BitVec.lt_irrefl _)]

theorem Placed.parts_least {B : Buckets w α} (hB : B.Placed) {i : Fin (w + 1)} {xs ys : List (Item w α)}
    {m : Item w α} (hi : 0 < i) (low : ∀ j < i, B.list j = []) (h : B.list i = xs ++ m :: ys)
    (hm : FirstLeast xs m ys) :
    B.Parts m (xs ++ ys) (B.lift i m.priority).items
      (some ⟨i.val, m.priority, (xs ++ ys).length⟩) ((xs ++ ys).foldl Buckets.place (B.lift i m.priority)) := by
  have hpops := Pops.least hi low h hm
  obtain ⟨-, -, hle⟩ := hB.pops hpops
  have hmem : m ∈ B.list i := by simp [h]
  have hindex : indexOf B.floor m.priority = i := hB.index i m hmem
  have hfloor : B.floor ≤ m.priority := hB.floor_le i m hmem
  have hlength : bitLength (difference m.priority B.floor) ≠ 0 := by
    intro e
    have hzero : indexOf B.floor m.priority = 0 := Fin.ext e
    rw [hindex] at hzero
    exact hi.ne' hzero
  have hlt : B.floor < m.priority := by
    apply BitVec.lt_of_le_ne hfloor
    rintro e
    exact hlength (bitLength_difference_eq_zero_iff.mpr e.symm)
  -- the others of the bucket
  have hothers : ∀ y ∈ xs ++ ys, y ∈ B.list i := by
    intro y hy
    rw [h]
    exact ((List.sublist_cons_self m ys).append_left xs).mem hy
  -- an item of another bucket
  have hkept : ∀ y ∈ (B.lift i m.priority).items, ∃ j, j ≠ i ∧ indexOf B.floor y.priority = j ∧
      indexOf m.priority y.priority = j := by
    intro y hy
    obtain ⟨j, hj⟩ := mem_items.mp hy
    have hj' := hj
    rw [lift_list] at hj'
    split at hj'
    · cases hj'
    · next hne => exact ⟨j, hne, hB.index j y hj', (hB.lift low hmem).index j y hj⟩
  constructor
  case items_eq =>
    rw [← items_foldl_place]
    exact hpops.items
  case rest_eq => rw [items_foldl_place]
  case floor_eq => rw [foldl_place_floor, lift_floor]
  case floor_le => exact hfloor
  case least => exact hle
  case moved_index =>
    intro y hy
    rw [hindex, hB.index i y (hothers y hy)]
  case moved_lt =>
    intro y hy
    rw [foldl_place_floor, lift_floor]
    have hsame := Fin.ext_iff.mp ((hB.index i y (hothers y hy)).trans hindex.symm)
    exact bitLength_difference_lt hfloor (hm.le (h ▸ hothers y hy)) hlength hsame
  case kept_index =>
    intro y hy
    obtain ⟨j, -, hj, hj'⟩ := hkept y hy
    rw [foldl_place_floor, lift_floor, hj, hj']
  case kept_ne =>
    intro _ y hy
    obtain ⟨j, hne, hj, -⟩ := hkept y hy
    rw [hj, hindex]
    exact hne
  case told_eq => rw [if_pos hlt, hindex]

end Buckets

/-! Sound queues. -/

namespace Stands

variable {q : Radix w α S} {B : Buckets w α}

/-- A pop of a sound queue finds nothing and links nothing again, or parts its elements. -/
theorem pop_parts (hw : w ≤ 128) (h : Stands q B) :
    (B.items = 0 ∧ q.pop = .ok none ∧ q.relinked = []) ∨
      ∃ x moved kept B' top, q.pop = .ok (some top) ∧ top.item = x.pair ∧ Stands top.rest B' ∧
        q.relinked = moved.map Item.key ∧ B.Parts x moved kept top.notice B' := by
  obtain ⟨hzero, hq⟩ | ⟨x, rest, q', hl, hq, h'⟩ | ⟨i, xs, m, ys, q', hi, hlow, hsplit, hm, hq, h'⟩ :=
    h.represents.extract_cases hw
  · exact Or.inl ⟨hzero, hq.pop_eq, hq.relinked_none⟩
  · exact Or.inr ⟨x, [], _, _, _, hq.pop_eq, rfl, ⟨h', (h.placed.pops (.exact hl)).1⟩, hq.relinked_some,
      h.placed.parts_exact hl⟩
  · exact Or.inr ⟨m, xs ++ ys, _, _, _, hq.pop_eq, rfl,
      ⟨h', (h.placed.pops (.least hi hlow hsplit hm)).1⟩, hq.relinked_some,
      h.placed.parts_least hi hlow hsplit hm⟩

theorem parts_of_pop (hw : w ≤ 128) (h : Stands q B) {top : Popped (Radix w α S) (BitVec w) α}
    (hq : q.pop = .ok (some top)) :
    ∃ x moved kept B', Stands top.rest B' ∧ q.relinked = moved.map Item.key ∧
      B.Parts x moved kept top.notice B' := by
  obtain ⟨-, hnone, -⟩ | ⟨x, moved, kept, B', top', hq', -, h', hrelinked, hparts⟩ := h.pop_parts hw
  · cases hnone.symm.trans hq
  · cases hq'.symm.trans hq
    exact ⟨x, moved, kept, B', h', hrelinked, hparts⟩

end Stands
end MonotoneQueue.Radix

import Mathlib
import MonotoneQueue.Proofs.Radix.Acts
import MonotoneQueue.Proofs.Radix.Represents

/- A pop of a stored queue is a pop of its bucket lists (`exists_pop`). The head of bucket 0 is
   taken out of the storage and the next element told; or else the mask names the lowest occupied
   bucket, whose first least element is cut out of its list, whose other elements become loose
   (`exists_detach`), and these are linked again one after the other (`exists_relink`). -/
namespace MonotoneQueue.Radix.Represents

variable {w : Nat} {α : Type} {S : Type → Type} [Storage S]
  {q : Radix w α S} {B : Buckets w α} {loose : List (Item w α)}

/-- An item has gone from the storage, and nothing else has: what is stored are the other items. -/
theorem stored_of_cut (h : Represents q B []) {m : Item w α} {B' : Buckets w α}
    {l : List (Item w α)} (hitems : B.items = m ::ₘ (B'.items + (l : Multiset (Item w α))))
    {nodes : S (Node w α)}
    (hstored : ∀ k n, Storage.get? nodes k = some n → k ≠ m.key ∧ ∃ n', Storage.get? q.nodes k = some n')
    (hsize : Storage.size nodes + 1 = Storage.size q.nodes) :
    ((B'.items + (l : Multiset (Item w α))).map Item.key).Nodup ∧
      (∀ k n, Storage.get? nodes k = some n → k ∈ (B'.items + (l : Multiset (Item w α))).map Item.key) ∧
      Storage.size nodes = (B'.items + (l : Multiset (Item w α))).card := by
  have hd := h.nodup
  have hs := h.size_eq
  rw [Multiset.coe_nil, add_zero, hitems, Multiset.map_cons] at hd
  rw [Multiset.coe_nil, add_zero, hitems, Multiset.card_cons] at hs
  refine ⟨(Multiset.nodup_cons.mp hd).2, ?_, by omega⟩
  intro k n hk
  obtain ⟨hne, n', hk'⟩ := hstored k n hk
  have hm := h.mem_of_stored k n' hk'
  rw [Multiset.coe_nil, add_zero, hitems, Multiset.map_cons] at hm
  exact (Multiset.mem_cons.mp hm).resolve_left hne

theorem exists_popFloor (h : Represents q B []) {x : Item w α} {rest : List (Item w α)}
    (hl : B.list 0 = x :: rest) :
    ∃ q', q.popFloor x.key = .ok ⟨⟨x.priority, x.value, q', none⟩, []⟩ ∧
      Represents q' (B.set 0 rest) [] := by
  have hlinked : Linked q.nodes none none ([] ++ x :: rest) := hl ▸ h.linked 0
  have hd := h.list_nodup 0
  rw [hl] at hd
  obtain ⟨nodes₁, nodes₂, nodes, ht, hu₂, hu, hrest, hkeep, hstored, hsize⟩ :=
    hlinked.exists_cut hd
  cases hu₂
  have hitems : B.items = x ::ₘ ((B.set 0 rest).items + (([] : List (Item w α)) : Multiset _)) := by
    rw [Multiset.coe_nil, add_zero]
    exact (Buckets.Pops.exact hl).items
  obtain ⟨hnodup, hmem, hcard⟩ := h.stored_of_cut hitems hstored hsize
  refine ⟨{ q with nodes, heads := q.heads.set 0 (firstKey none rest) }, ?_, ?_⟩
  · simp only [lastKey] at hu
    simp only [popFloor, ht, Result.ok_bind, Item.node, hu]
  constructor
  case floor_eq => exact h.floor_eq
  case head_eq =>
    intro j
    rw [get_set_zero, Buckets.set_list]
    split
    · rfl
    · exact h.head_eq j
  case linked =>
    intro j
    rw [Buckets.set_list]
    split
    · exact hrest
    · next hj =>
      apply (h.linked j).frame
      intro k hk
      exact hkeep k (hl ▸ h.list_disjoint hj hk)
  case loose_linked => exact ⟨none, trivial⟩
  case nodup => exact hnodup
  case mem_of_stored => exact hmem
  case size_eq => exact hcard
  case mask_iff =>
    intro j hj
    rw [Buckets.set_list, if_neg hj]
    exact h.mask_iff j hj
  case lt_of_mask => exact h.lt_of_mask

theorem mask_lift (hw : w ≤ 128) (h : Represents q B loose) {i : Fin (w + 1)} (hi : i ≠ 0)
    (m : BitVec w) :
    (∀ j : Fin (w + 1), j ≠ 0 → ((q.mask &&& ~~~(1#128 <<< (w - i.val))).getLsbD (w - j) = true ↔
        (B.lift i m).list j ≠ [])) ∧
      ∀ j, (q.mask &&& ~~~(1#128 <<< (w - i.val))).getLsbD j = true → j < w := by
  have hbit : ∀ j, (q.mask &&& ~~~(1#128 <<< (w - i.val))).getLsbD j = true ↔
      q.mask.getLsbD j = true ∧ j ≠ w - i.val := by
    intro j
    rw [BitVec.getLsbD_and, BitVec.getLsbD_not, getLsbD_maskBit hw hi]
    simp only [Bool.and_eq_true, decide_eq_true_eq, Bool.not_eq_true', decide_eq_false_iff_not]
    refine ⟨fun ⟨hj, _, hne⟩ => ⟨hj, hne⟩, fun ⟨hj, hne⟩ => ⟨hj, ?_, hne⟩⟩
    have := h.lt_of_mask j hj
    omega
  refine ⟨fun j hj => ?_, fun j hj => h.lt_of_mask j ((hbit j).mp hj).1⟩
  rw [hbit, h.mask_iff j hj, Buckets.lift_list]
  split
  · next e => simp [e]
  · next e =>
    have : j.val ≠ i.val := fun q => e (Fin.ext q)
    exact ⟨fun hl => hl.1, fun hl => ⟨hl, by omega⟩⟩

/-- The first least element of an occupied bucket comes out, and the others become loose. -/
theorem exists_detach (hw : w ≤ 128) (h : Represents q B []) {i : Fin (w + 1)} (hi : i ≠ 0)
    (hl : B.list i ≠ []) :
    ∃ xs m ys p n q', B.list i = xs ++ m :: ys ∧ FirstLeast xs m ys ∧
      q.detach i = .ok ⟨m.node p n, firstKey none (xs ++ ys), q'⟩ ∧
      Represents q' (B.lift i m.priority) (xs ++ ys) := by
  obtain ⟨head, hhead⟩ := exists_firstKey hl
  have hheadOf : q.headOf i = .ok head := by simp [headOf, h.head_eq, hhead]
  obtain ⟨xs, m, ys, hsplit, hm, hleast⟩ := leastFrom_linked (h.linked i) hhead (h.length_le i)
  have hlinked := h.linked i
  have hd := h.list_nodup i
  rw [hsplit] at hlinked hd hhead
  obtain ⟨nodes₁, nodes₂, nodes, ht, hu₂, hu₃, hothers, hkeep, hstored, hsize⟩ :=
    hlinked.exists_cut hd
  -- what is left starts at the old head, unless that was the least
  have hrest : (if (lastKey none xs).isNone then firstKey none ys else some head) =
      firstKey none (xs ++ ys) := by
    cases xs with
    | nil => rfl
    | cons x xs =>
      rw [if_neg (by simp [lastKey_ne_none])]
      exact hhead.symm
  have hitems : B.items =
      m ::ₘ ((B.lift i m.priority).items + ((xs ++ ys : List (Item w α)) : Multiset _)) := by
    rw [← Multiset.add_cons, Multiset.cons_coe, ← Multiset.coe_eq_coe.mpr List.perm_middle,
      ← hsplit, B.items_lift]
  obtain ⟨hnodup, hmem, hcard⟩ := h.stored_of_cut hitems hstored hsize
  obtain ⟨hmask, hlt⟩ := h.mask_lift hw hi m.priority
  refine ⟨xs, m, ys, lastKey none xs, firstKey none ys,
    { q with
      nodes
      heads := q.heads.setIfInBounds i.val none
      mask := q.mask &&& ~~~(1#128 <<< (w - i.val))
      floor := m.priority }, hsplit, hm, ?_, ?_⟩
  · simp only [detach, maskBit_eq hw hi, Result.ok_bind, hheadOf, hleast, ht, Item.node, hu₂, hu₃,
      hrest]
  constructor
  case floor_eq => rfl
  case head_eq =>
    intro j
    rw [get_setIfInBounds, Buckets.lift_list]
    split
    · rfl
    · exact h.head_eq j
  case linked =>
    intro j
    rw [Buckets.lift_list]
    split
    · trivial
    · next hj =>
      apply (h.linked j).frame
      intro k hk
      exact hkeep k (hsplit ▸ h.list_disjoint hj hk)
  case loose_linked => exact ⟨none, hothers⟩
  case nodup => exact hnodup
  case mem_of_stored => exact hmem
  case size_eq => exact hcard
  case mask_iff => exact hmask
  case lt_of_mask => exact hlt

theorem length_loose_le (h : Represents q B loose) : loose.length ≤ q.size := by
  rw [Radix.size, h.size_eq, Multiset.card_add, Multiset.coe_card]
  exact Nat.le_add_left _ _

/-- Loose items are linked in order, each at the head of its bucket. -/
theorem exists_relink (hw : w ≤ 128) (h : Represents q B loose) {n : Nat} (hn : loose.length ≤ n) :
    ∃ q', relink n (firstKey none loose) q = .ok (loose.map Item.key, q') ∧
      Represents q' (loose.foldl Buckets.place B) [] := by
  induction loose generalizing q B n with
  | nil => exact ⟨q, by cases n <;> rfl, h⟩
  | cons x rest ih =>
    obtain ⟨n, rfl⟩ : ∃ m, n = m + 1 := Nat.exists_eq_add_one_of_ne_zero (by simp at hn; omega)
    -- where the rest starts is read off the first item, and the rest is not touched by linking it
    obtain ⟨before, hx, -⟩ := h.loose_linked
    obtain ⟨q₁, hl, h₁⟩ := h.exists_link hw
    obtain ⟨q₂, hr, h₂⟩ := ih h₁ (Nat.le_of_succ_le_succ hn)
    refine ⟨q₂, ?_, h₂⟩
    have hnext : (x.node before (firstKey none rest)).next = firstKey none rest := rfl
    rw [firstKey, relink, fetch_ok hx, Result.ok_bind, hl, Result.ok_bind, hnext, hr]
    rfl

/-- An occupied bucket is emptied: its first least item comes out, and the others are placed again. -/
theorem exists_popBucket (hw : w ≤ 128) (h : Represents q B []) {i : Fin (w + 1)} (hi : i ≠ 0)
    (hl : B.list i ≠ []) :
    ∃ xs m ys q', B.list i = xs ++ m :: ys ∧ FirstLeast xs m ys ∧
      q.popBucket i = .ok ⟨⟨m.priority, m.value, q', some ⟨i.val, m.priority, (xs ++ ys).length⟩⟩,
        (xs ++ ys).map Item.key⟩ ∧
      Represents q' ((xs ++ ys).foldl Buckets.place (B.lift i m.priority)) [] := by
  obtain ⟨xs, m, ys, p, n, q₁, hsplit, hm, hd, h₁⟩ := h.exists_detach hw hi hl
  obtain ⟨q₂, hr, h₂⟩ := h₁.exists_relink hw h₁.length_loose_le
  refine ⟨xs, m, ys, q₂, hsplit, hm, ?_, h₂⟩
  simp only [popBucket, hd, hr, Item.node, Result.ok_bind, List.length_map]

/-- The mask tells of the lowest bucket above 0 that is occupied. -/
theorem lowestOccupied_cases (h : Represents q B loose) :
    (q.lowestOccupied = .ok none ∧ ∀ i, i ≠ 0 → B.list i = []) ∨
      ∃ i, q.lowestOccupied = .ok (some i) ∧ i ≠ 0 ∧ B.list i ≠ [] ∧
        ∀ j < i, j ≠ 0 → B.list j = [] := by
  by_cases hz : q.mask = 0#128
  · refine Or.inl ⟨by rw [lowestOccupied, if_pos hz], fun i hi => ?_⟩
    by_contra hne
    have := (h.mask_iff i hi).mpr hne
    simp [hz] at this
  · -- the highest bit of the mask is that of the lowest bucket
    have htop := getLsbD_bitLength hz
    have hlt := h.lt_of_mask _ htop
    have hpos : bitLength q.mask ≠ 0 := fun e => hz ((bitLength_eq_zero_iff _).mp e)
    have hn : 0 < bitLength q.mask ∧ bitLength q.mask ≤ w + 1 := by omega
    refine Or.inr ⟨⟨w + 1 - bitLength q.mask, by omega⟩, ?_, ?_, ?_, fun j hj hj0 => ?_⟩
    · simp only [lowestOccupied, if_neg hz, Gauge.length_eq, hn, and_self, dif_pos]
    · intro e
      have := Fin.ext_iff.mp e
      simp at this
      omega
    · refine (h.mask_iff _ ?_).mp ?_
      · intro e
        have := Fin.ext_iff.mp e
        simp at this
        omega
      · rwa [show w - (w + 1 - bitLength q.mask) = bitLength q.mask - 1 by omega]
    · by_contra hne
      have hbit := (h.mask_iff j hj0).mpr hne
      have hj : j.val < w + 1 - bitLength q.mask := hj
      rw [getLsbD_of_bitLength_le (by omega)] at hbit
      cases hbit

/-- A pop finds all buckets empty, or takes the head of bucket 0, or empties the lowest occupied bucket and
    links its other items again. No step of it fails. -/
theorem extract_cases (hw : w ≤ 128) (h : Represents q B []) :
    (B.items = 0 ∧ q.Extracts none) ∨
      (∃ x rest q', B.list 0 = x :: rest ∧ q.Extracts (some ⟨⟨x.priority, x.value, q', none⟩, []⟩) ∧
        Represents q' (B.set 0 rest) []) ∨
      ∃ i xs m ys q', 0 < i ∧ (∀ j < i, B.list j = []) ∧ B.list i = xs ++ m :: ys ∧ FirstLeast xs m ys ∧
        q.Extracts (some ⟨⟨m.priority, m.value, q', some ⟨i.val, m.priority, (xs ++ ys).length⟩⟩,
          (xs ++ ys).map Item.key⟩) ∧
        Represents q' ((xs ++ ys).foldl Buckets.place (B.lift i m.priority)) [] := by
  have hfirst : q.heads.get 0 = firstKey none (B.list 0) := h.head_eq 0
  cases hl : B.list 0 with
  | cons x rest =>
    obtain ⟨q', hq, h'⟩ := h.exists_popFloor hl
    rw [hl] at hfirst
    exact Or.inr (Or.inl ⟨x, rest, q', rfl, .floor hfirst hq, h'⟩)
  | nil =>
    rw [hl] at hfirst
    rcases h.lowestOccupied_cases with ⟨hlow, hnil⟩ | ⟨i, hlow, hi, hne, hbelow⟩
    · refine Or.inl ⟨Buckets.items_eq_zero_iff.mpr fun i => ?_, .nothing hfirst hlow⟩
      by_cases hi : i = 0
      · rw [hi, hl]
      · exact hnil i hi
    · obtain ⟨xs, m, ys, q', hsplit, hm, hq, h'⟩ := h.exists_popBucket hw hi hne
      have hlow' : ∀ j < i, B.list j = [] := by
        intro j hj
        by_cases hj0 : j = 0
        · rw [hj0, hl]
        · exact hbelow j hj hj0
      exact Or.inr (Or.inr ⟨i, xs, m, ys, q', Fin.pos_of_ne_zero hi, hlow', hsplit, hm,
        .bucket hfirst hlow hq, h'⟩)

/-- A pop finds nothing when there is nothing, and otherwise is a pop of the bucket lists. -/
theorem exists_pop (hw : w ≤ 128) (h : Represents q B []) :
    (B.items = 0 ∧ q.pop = .ok none) ∨
      ∃ x n B' q', B.Pops x n B' ∧ q.pop = .ok (some ⟨x.priority, x.value, q', n⟩) ∧
        Represents q' B' [] := by
  obtain ⟨hzero, hq⟩ | ⟨x, rest, q', hl, hq, h'⟩ | ⟨i, xs, m, ys, q', hi, hlow, hsplit, hm, hq, h'⟩ :=
    h.extract_cases hw
  · exact Or.inl ⟨hzero, hq.pop_eq⟩
  · exact Or.inr ⟨x, none, _, q', .exact hl, hq.pop_eq, h'⟩
  · exact Or.inr ⟨m, _, _, q', .least hi hlow hsplit hm, hq.pop_eq, h'⟩

end MonotoneQueue.Radix.Represents

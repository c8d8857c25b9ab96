import Mathlib
import MonotoneQueue.Proofs.Radix.Buckets
import MonotoneQueue.Radix

/- When a stored queue stands for bucket lists. `Represents q B loose` says that the heads, links
   and mask of `q` are those of `B`, and that the storage holds the items of `B`, the loose ones, and
   nothing else. Loose items are stored but in no list of a bucket: a pushed one before it is linked, and
   in a pop those of the emptied bucket that still wait for their new place and name each other in order.

   Every step of an operation is a fact about this relation. Here are the steps of a push: storing
   makes an item loose, and linking places it (`exists_link`). -/
namespace MonotoneQueue.Radix

variable {w : Nat} {α : Type} {S : Type → Type} [Storage S]

/-- The queue holds the lists of `B` and, apart from them, the loose items. -/
structure Represents (q : Radix w α S) (B : Buckets w α) (loose : List (Item w α)) : Prop where
  floor_eq : q.floor = B.floor
  head_eq : ∀ i, q.heads.get i = firstKey none (B.list i)
  linked : ∀ i, Linked q.nodes none none (B.list i)
  loose_linked : ∃ before, Linked q.nodes none before loose
  nodup : ((B.items + loose).map Item.key).Nodup
  mem_of_stored : ∀ k n, Storage.get? q.nodes k = some n → k ∈ (B.items + loose).map Item.key
  size_eq : Storage.size q.nodes = (B.items + loose).card
  mask_iff : ∀ i : Fin (w + 1), i ≠ 0 → (q.mask.getLsbD (w - i) = true ↔ B.list i ≠ [])
  lt_of_mask : ∀ j, q.mask.getLsbD j = true → j < w

/-! Heads, bucket numbers and mask bits. -/

theorem get_setIfInBounds {β : Type} {n : Nat} (v : Vector β n) (i j : Fin n) (b : β) :
    (v.setIfInBounds i.val b).get j = if j = i then b else v.get j := by
  simp only [Vector.get_eq_getElem, Vector.getElem_setIfInBounds]
  simp [Fin.ext_iff, eq_comm]

theorem get_set_zero {β : Type} {n : Nat} (v : Vector β (n + 1)) (j : Fin (n + 1)) (b : β) :
    (v.set 0 b (Nat.succ_pos n)).get j = if j = 0 then b else v.get j := by
  rw [Vector.get_eq_getElem, Vector.get_eq_getElem, Vector.getElem_set]
  by_cases h : j = 0
  · rw [h]
    rfl
  · rw [if_neg h, if_neg fun e => h (Fin.ext e.symm)]

omit [Storage S] in
theorem bucketOf_eq (q : Radix w α S) (p : BitVec w) :
    q.bucketOf p = .ok (Buckets.indexOf q.floor p) := by
  have h : bitLength (difference p q.floor) < w + 1 := Nat.lt_succ_of_le (bitLength_le _)
  simp only [bucketOf, Buckets.indexOf, Gauge.length_eq, h, dif_pos]

theorem maskBit_eq (hw : w ≤ 128) {i : Fin (w + 1)} (hi : i ≠ 0) :
    maskBit i = .ok (1#128 <<< (w - i.val)) := by
  have : i.val ≠ 0 := fun e => hi (Fin.ext e)
  rw [maskBit, if_pos (by omega)]

theorem getLsbD_maskBit (hw : w ≤ 128) {i : Fin (w + 1)} (hi : i ≠ 0) (j : Nat) :
    (1#128 <<< (w - i.val)).getLsbD j = decide (j = w - i.val) := by
  have : i.val ≠ 0 := fun e => hi (Fin.ext e)
  rw [← BitVec.twoPow_eq, BitVec.getLsbD_twoPow, decide_eq_true (by omega : w - i.val < 128),
    Bool.true_and]
  simp [eq_comm]

namespace Represents

variable {q : Radix w α S} {B : Buckets w α} {loose : List (Item w α)}

theorem list_nodup (h : Represents q B loose) (i : Fin (w + 1)) :
    ((B.list i).map Item.key).Nodup := by
  have hd := h.nodup
  rw [← B.items_lift i B.floor, Multiset.map_add, Multiset.map_add] at hd
  have := (Multiset.nodup_add.mp (Multiset.nodup_add.mp hd).1).2.1
  rwa [Multiset.map_coe, Multiset.coe_nodup] at this

theorem list_disjoint (h : Represents q B loose) {i j : Fin (w + 1)} (hij : i ≠ j) {k : Key}
    (hi : k ∈ (B.list i).map Item.key) : k ∉ (B.list j).map Item.key := by
  intro hj
  have hd := h.nodup
  rw [← B.items_lift i B.floor, Multiset.map_add, Multiset.map_add] at hd
  refine Multiset.disjoint_left.mp (Multiset.nodup_add.mp (Multiset.nodup_add.mp hd).1).2.2 ?_
    (by simpa using hi)
  obtain ⟨y, hy, rfl⟩ := List.mem_map.mp hj
  refine Multiset.mem_map_of_mem _ (Buckets.mem_items.mpr ⟨j, ?_⟩)
  rwa [Buckets.lift_list, if_neg hij.symm]

theorem loose_disjoint (h : Represents q B loose) {x : Item w α} (hx : x ∈ loose)
    (i : Fin (w + 1)) : x.key ∉ (B.list i).map Item.key := by
  intro hi
  have hd := h.nodup
  rw [Multiset.map_add] at hd
  refine Multiset.disjoint_left.mp (Multiset.nodup_add.mp hd).2.2 ?_
    (Multiset.mem_map_of_mem Item.key (Multiset.mem_coe.mpr hx))
  obtain ⟨y, hy, hk⟩ := List.mem_map.mp hi
  exact hk ▸ Multiset.mem_map_of_mem _ (Buckets.mem_items.mpr ⟨i, hy⟩)

theorem length_le (h : Represents q B loose) (i : Fin (w + 1)) :
    (B.list i).length ≤ Storage.size q.nodes := by
  rw [h.size_eq, ← B.items_lift i B.floor, Multiset.card_add, Multiset.card_add,
    Multiset.coe_card]
  omega

theorem get?_eq (h : Represents q B loose) {i : Fin (w + 1)} {x : Item w α} (hx : x ∈ B.list i) :
    ∃ p n, Storage.get? q.nodes x.key = some (x.node p n) := (h.linked i).stored hx

/-- What is stored under a key, if nothing is loose, is an item of a list. -/
theorem exists_item (h : Represents q B []) {k : Key} {n : Node w α}
    (hk : Storage.get? q.nodes k = some n) : ∃ i, Item.of k n ∈ B.list i := by
  have hm := h.mem_of_stored k n hk
  rw [Multiset.coe_nil, add_zero] at hm
  obtain ⟨x, hx, rfl⟩ := Multiset.mem_map.mp hm
  obtain ⟨i, hi⟩ := Buckets.mem_items.mp hx
  obtain ⟨p, m, hg⟩ := h.get?_eq hi
  rw [hg] at hk
  cases hk
  exact ⟨i, hi⟩

theorem mem_items_iff (h : Represents q B []) {x : Item w α} :
    x ∈ B.items ↔ ∃ p n, Storage.get? q.nodes x.key = some (x.node p n) := by
  constructor
  · intro hx
    obtain ⟨i, hi⟩ := Buckets.mem_items.mp hx
    exact h.get?_eq hi
  · rintro ⟨p, n, hk⟩
    obtain ⟨i, hi⟩ := h.exists_item hk
    exact Buckets.mem_items.mpr ⟨i, hi⟩

theorem items_unique (h : Represents q B []) {B' : Buckets w α} (h' : Represents q B' []) :
    B.items = B'.items := by
  have hd := h.nodup
  have hd' := h'.nodup
  rw [Multiset.coe_nil, add_zero] at hd hd'
  apply (Multiset.Nodup.ext (hd.of_map _) (hd'.of_map _)).mpr
  intro x
  rw [h.mem_items_iff, h'.mem_items_iff]

/-! Nothing stored. -/

theorem of_empty {q : Radix w α S} (hfloor : q.floor = 0#w)
    (hheads : ∀ i, q.heads.get i = none) (hnodes : ∀ k, Storage.get? q.nodes k = none)
    (hsize : Storage.size q.nodes = 0) (hmask : q.mask = 0#128) : Represents q Buckets.empty [] where
  floor_eq := hfloor
  head_eq := hheads
  linked _ := trivial
  loose_linked := ⟨none, trivial⟩
  nodup := by simp
  mem_of_stored k n hk := by simp [hnodes] at hk
  size_eq := by simp [hsize]
  mask_iff i _ := by simp [hmask, Buckets.empty]
  lt_of_mask j hj := by simp [hmask] at hj

theorem emptyWithCapacity (n : Nat) (g : Gauge) :
    Represents (Radix.emptyWithCapacity n g : Radix w α S) Buckets.empty [] :=
  of_empty rfl (by simp [Radix.emptyWithCapacity, Vector.get_eq_getElem])
    (Storage.get?_emptyWithCapacity n) (Storage.size_emptyWithCapacity n) rfl

theorem clear (q : Radix w α S) : Represents q.clear Buckets.empty [] :=
  of_empty rfl (by simp [Radix.clear, Vector.get_eq_getElem]) (Storage.get?_clear q.nodes)
    (Storage.size_clear q.nodes) rfl

/-! Pushing. -/

/-- A new value is stored but not linked. -/
theorem insert (h : Represents q B []) (p : BitVec w) (v : α) :
    Represents { q with nodes := Storage.insert q.nodes ⟨v, p, none, none⟩ } B
      [⟨Storage.nextKey q.nodes, p, v⟩] := by
  -- every item is stored, and nothing is under the next key
  have hfresh : Storage.nextKey q.nodes ∉ B.items.map Item.key := by
    intro hm
    obtain ⟨x, hx, hk⟩ := Multiset.mem_map.mp hm
    obtain ⟨i, hi⟩ := Buckets.mem_items.mp hx
    obtain ⟨p, n, hg⟩ := h.get?_eq hi
    rw [hk, Storage.get?_nextKey] at hg
    cases hg
  have hframe : ∀ k ∈ B.items.map Item.key,
      Storage.get? (Storage.insert q.nodes ⟨v, p, none, none⟩) k = Storage.get? q.nodes k := by
    intro k hk
    have hne : k ≠ Storage.nextKey q.nodes := fun e => hfresh (e ▸ hk)
    rw [Storage.get?_insert, if_neg hne]
  have hitems : ∀ i, ∀ k ∈ (B.list i).map Item.key, k ∈ B.items.map Item.key := by
    intro i k hk
    obtain ⟨x, hx, rfl⟩ := List.mem_map.mp hk
    exact Multiset.mem_map_of_mem _ (Buckets.mem_items.mpr ⟨i, hx⟩)
  have hd := h.nodup
  rw [Multiset.coe_nil, add_zero] at hd
  exact
    { h with
      linked := fun i => (h.linked i).frame fun k hk => hframe k (hitems i k hk)
      loose_linked := by
        refine ⟨none, ?_, trivial⟩
        rw [Storage.get?_insert, if_pos rfl]
        rfl
      nodup := by
        rw [Multiset.coe_singleton, add_comm, Multiset.singleton_add, Multiset.map_cons]
        exact Multiset.nodup_cons.mpr ⟨hfresh, hd⟩
      mem_of_stored := by
        intro k n hk
        rw [Multiset.coe_singleton, add_comm, Multiset.singleton_add, Multiset.map_cons,
          Multiset.mem_cons]
        rw [Storage.get?_insert] at hk
        split at hk
        · next e => exact Or.inl e
        · have := h.mem_of_stored k n hk
          rw [Multiset.coe_nil, add_zero] at this
          exact Or.inr this
      size_eq := by
        have := h.size_eq
        simp only [Multiset.coe_nil, add_zero, Multiset.coe_singleton, Multiset.card_add,
          Multiset.card_singleton, Storage.size_insert] at this ⊢
        rw [this] }

theorem exists_mask (hw : w ≤ 128) (h : Represents q B loose) (x : Item w α) :
    ∃ mask, (if (Buckets.indexOf B.floor x.priority).val = 0 then Except.ok q.mask
        else (q.mask ||| ·) <$> maskBit (Buckets.indexOf B.floor x.priority)) =
          (.ok mask : Result (BitVec 128)) ∧
      (∀ j : Fin (w + 1), j ≠ 0 → (mask.getLsbD (w - j) = true ↔ (B.place x).list j ≠ [])) ∧
      ∀ j, mask.getLsbD j = true → j < w := by
  generalize hi : Buckets.indexOf B.floor x.priority = i
  have hlist : ∀ j, (B.place x).list j = if j = i then x :: B.list i else B.list j := by
    intro j
    rw [Buckets.place, hi, Buckets.set_list]
  by_cases hz : i = 0
  · -- bucket 0 has no bit
    refine ⟨q.mask, by simp [hz], fun j hj => ?_, h.lt_of_mask⟩
    rw [hlist, if_neg fun e => hj (e.trans hz)]
    exact h.mask_iff j hj
  · refine ⟨q.mask ||| 1#128 <<< (w - i.val), ?_, fun j hj => ?_, fun j hj => ?_⟩
    · have hne : ¬ i.val = 0 := fun e => hz (Fin.ext e)
      rw [if_neg hne, maskBit_eq hw hz, Result.map_ok]
    · rw [BitVec.getLsbD_or, getLsbD_maskBit hw hz, Bool.or_eq_true, decide_eq_true_eq,
        h.mask_iff j hj, hlist]
      split
      · next e => simp [e]
      · next e =>
        have : j.val ≠ i.val := fun q => e (Fin.ext q)
        have : ¬ w - j.val = w - i.val := by omega
        simp [this]
    · rw [BitVec.getLsbD_or, getLsbD_maskBit hw hz, Bool.or_eq_true, decide_eq_true_eq] at hj
      have : i.val ≠ 0 := fun e => hz (Fin.ext e)
      rcases hj with hj | hj
      · exact h.lt_of_mask j hj
      · omega

theorem exists_link (hw : w ≤ 128) {x : Item w α} (h : Represents q B (x :: loose)) :
    ∃ q', link q x.key = .ok q' ∧ Represents q' (B.place x) loose := by
  obtain ⟨mask, hmask, hiff, hlt⟩ := h.exists_mask hw x
  obtain ⟨before, hx, hrest⟩ := h.loose_linked
  have hxl : ∀ j, x.key ∉ (B.list j).map Item.key := h.loose_disjoint (by simp)
  have hitems : (B.place x).items + (loose : Multiset (Item w α)) =
      B.items + ((x :: loose : List (Item w α)) : Multiset (Item w α)) := by
    rw [Buckets.items_place, ← Multiset.cons_coe, Multiset.cons_add, Multiset.add_cons]
  have hlist : ∀ j, (B.place x).list j =
      if j = Buckets.indexOf B.floor x.priority then x :: B.list j else B.list j := by
    intro j
    rw [Buckets.place, Buckets.set_list]
    split
    · next e => rw [e]
    · rfl
  generalize hi : Buckets.indexOf B.floor x.priority = i at hmask hlist
  obtain ⟨nodes₁, nodes₂, hu₁, hu₂, hcons, hkeep, hback, hsize⟩ :=
    (h.linked i).exists_cons (h.list_nodup i) hx (hxl i)
  refine ⟨{ q with nodes := nodes₂, heads := q.heads.setIfInBounds i.val (some x.key), mask }, ?_, ?_⟩
  · simp only [link, fetch_ok hx, Result.ok_bind, bucketOf_eq, h.floor_eq, Item.node, hi, h.head_eq,
      hu₁, hu₂]
    split at hmask
    · next hz =>
      cases hmask
      rw [if_pos hz]
    · next hz => rw [if_neg hz, hmask, Result.ok_bind]
  have hxn : x.key ∉ (B.items + (loose : Multiset (Item w α))).map Item.key := by
    have hd := h.nodup
    rw [← Multiset.cons_coe, Multiset.add_cons, Multiset.map_cons] at hd
    exact (Multiset.nodup_cons.mp hd).1
  constructor
  case floor_eq => exact h.floor_eq
  case head_eq =>
    intro j
    rw [get_setIfInBounds, hlist]
    split
    · rfl
    · exact h.head_eq j
  case linked =>
    intro j
    rw [hlist]
    split
    · next e =>
      rw [e]
      exact hcons
    · next e =>
      -- another bucket has neither `x` nor the old head
      apply (h.linked j).frame
      intro k hk
      exact hkeep k (fun e => hxl j (e ▸ hk)) (h.list_disjoint e hk)
  case loose_linked =>
    -- the other loose items are not touched, so they still name each other
    refine ⟨some x.key, hrest.frame ?_⟩
    intro k hk
    obtain ⟨y, hy, rfl⟩ := List.mem_map.mp hk
    have hne : y.key ≠ x.key := fun e =>
      hxn (e ▸ Multiset.mem_map_of_mem _ (Multiset.mem_add.mpr (Or.inr hy)))
    exact hkeep _ hne (h.loose_disjoint (List.mem_cons_of_mem _ hy) i)
  case nodup => rw [hitems]; exact h.nodup
  case mem_of_stored =>
    intro k m hk
    obtain ⟨m, hm⟩ := hback k m hk
    rw [hitems]
    exact h.mem_of_stored k m hm
  case size_eq =>
    rw [hitems, ← h.size_eq]
    exact hsize
  case mask_iff => exact hiff
  case lt_of_mask => exact hlt

/-- Pushing at or above the floor places the value under a fresh key. -/
theorem exists_insert (hw : w ≤ 128) (h : Represents q B []) {p : BitVec w} (hp : B.floor ≤ p)
    (v : α) :
    ∃ q', q.insert p v = .ok (Storage.nextKey q.nodes, q') ∧
      Represents q' (B.place ⟨Storage.nextKey q.nodes, p, v⟩) [] := by
  obtain ⟨q', hl, hr⟩ := (h.insert p v).exists_link hw
  refine ⟨q', ?_, hr⟩
  have hp' : ¬ p < q.floor := by
    rw [h.floor_eq]
    exact BitVec.not_lt.mpr hp
  simp only [Radix.insert, if_neg hp', hl, Result.ok_bind]

theorem insert_eq_error (h : Represents q B loose) {p : BitVec w} (hp : p < B.floor) (v : α) :
    q.insert p v = .error .belowFloor := by
  rw [Radix.insert, h.floor_eq, if_pos hp]

end Represents
end MonotoneQueue.Radix

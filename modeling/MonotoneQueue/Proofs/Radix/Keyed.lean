import Mathlib
import MonotoneQueue.Proofs.Radix.Bag
import MonotoneQueue.Proofs.Radix.Issued

/- What becomes of elements, told by their keys. A push brings in one element under a key that was never
   issued before (`Adds`), and a pop takes out the element of one key (`Loses`). Wherever the others are
   moved to, their keys name what they named, and no key that was issued before is issued again. -/
namespace MonotoneQueue.Radix

variable {w : Nat} {α : Type} {S : Type → Type} [Storage S]

/-- An element came in under a key that was never issued before. -/
structure Adds (q q' : Radix w α S) (k : Key) (x : BitVec w × α) : Prop where
  before : Storage.Before q.nodes q'.nodes
  fresh : ¬ Storage.Issued q.nodes k
  get?_eq : ∀ l, q'.get? l = if l = k then some x else q.get? l

/-- Every key issued so far names what it named. -/
structure Keeps (q q' : Radix w α S) : Prop where
  before : Storage.Before q.nodes q'.nodes
  get?_eq : ∀ l, Storage.Issued q.nodes l → q'.get? l = q.get? l

/-- The elements that these keys named are gone, and nothing else is. -/
structure Loses (q q' : Radix w α S) (ks : List Key) (xs : List (BitVec w × α)) : Prop where
  before : Storage.Before q.nodes q'.nodes
  named : ks.map q.get? = xs.map some
  get?_eq : ∀ l, q'.get? l = if l ∈ ks then none else q.get? l

theorem issued_of_get? {q : Radix w α S} {k : Key} {x : BitVec w × α} (h : q.get? k = some x) :
    Storage.Issued q.nodes k := by
  obtain ⟨n, hn, -⟩ := Option.map_eq_some_iff.mp h
  exact Storage.issued_of_get? hn

theorem contains_eq_isSome (q : Radix w α S) (k : Key) : q.contains k = (q.get? k).isSome := by
  rw [contains, get?, Option.isSome_map]

theorem Keeps.refl (q : Radix w α S) : q.Keeps q := ⟨.refl _, fun _ _ => rfl⟩

theorem Keeps.trans {q q₁ q₂ : Radix w α S} (h : q.Keeps q₁) (h' : q₁.Keeps q₂) : q.Keeps q₂ := by
  refine ⟨h.before.trans h'.before, ?_⟩
  intro l hl
  rw [h'.get?_eq l (h.before l hl), h.get?_eq l hl]

theorem Adds.keeps {q q' : Radix w α S} {k : Key} {x : BitVec w × α} (h : q.Adds q' k x) :
    q.Keeps q' := by
  refine ⟨h.before, ?_⟩
  intro l hl
  have hne : l ≠ k := fun e => h.fresh (e ▸ hl)
  rw [h.get?_eq, if_neg hne]

theorem Adds.get?_self {q q' : Radix w α S} {k : Key} {x : BitVec w × α} (h : q.Adds q' k x) :
    q'.get? k = some x := by
  rw [h.get?_eq, if_pos rfl]

theorem Loses.refl (q : Radix w α S) : q.Loses q [] [] := ⟨.refl _, rfl, fun l => by simp⟩

theorem Loses.trans {q q₁ q₂ : Radix w α S} {ks ks' : List Key} {xs xs' : List (BitVec w × α)}
    (h : q.Loses q₁ ks xs) (h' : q₁.Loses q₂ ks' xs') : q.Loses q₂ (ks ++ ks') (xs ++ xs') := by
  -- what goes later was there before
  have hkeep : ∀ l ∈ ks', q₁.get? l = q.get? l := by
    intro l hl
    have hmem : q₁.get? l ∈ xs'.map some := h'.named ▸ List.mem_map_of_mem hl
    obtain ⟨x, -, hx⟩ := List.mem_map.mp hmem
    have hl' := h.get?_eq l
    split at hl'
    · rw [← hx] at hl'
      exact nomatch hl'
    · exact hl'
  constructor
  case before => exact h.before.trans h'.before
  case named =>
    rw [List.map_append, List.map_append, h.named, ← List.map_congr_left hkeep, h'.named]
  case get?_eq =>
    intro l
    rw [h'.get?_eq, h.get?_eq]
    by_cases hl : l ∈ ks <;> by_cases hl' : l ∈ ks' <;> simp [hl, hl']

/-! Pushes and pops. -/

theorem Represents.get?_eq_some_iff {q : Radix w α S} {B : Buckets w α} (h : Represents q B [])
    {k : Key} {x : BitVec w × α} : q.get? k = some x ↔ (⟨k, x.1, x.2⟩ : Item w α) ∈ B.items := by
  rw [h.mem_items_iff, get?, Option.map_eq_some_iff]
  constructor
  · rintro ⟨⟨v, p, prev, next⟩, hk, rfl⟩
    exact ⟨prev, next, hk⟩
  · rintro ⟨prev, next, hk⟩
    exact ⟨_, hk, rfl⟩

namespace Stands

variable {q : Radix w α S} {B : Buckets w α}

theorem get?_eq_none (h : Stands q B) (hB : B.pairs = 0) (k : Key) : q.get? k = none := by
  rw [Buckets.pairs, Multiset.map_eq_zero] at hB
  apply Option.eq_none_iff_forall_ne_some.mpr
  intro x hx
  rw [h.represents.get?_eq_some_iff, hB] at hx
  exact Multiset.notMem_zero _ hx

theorem issued_key (h : Stands q B) {x : Item w α} (hx : x ∈ B.items) : Storage.Issued q.nodes x.key := by
  have hget : q.get? x.key = some x.pair := h.represents.get?_eq_some_iff.mpr hx
  exact issued_of_get? hget

theorem insert_adds (hw : w ≤ 128) (h : Stands q B) {p : BitVec w} {v : α} {k : Key}
    {q' : Radix w α S} (hq : q.insert p v = .ok (k, q')) : q.Adds q' k (p, v) := by
  by_cases hp : B.floor ≤ p
  · obtain ⟨q₁, hq₁, h₁⟩ := h.represents.exists_insert hw hp v
    have hbefore := before_of_insert hq
    rw [hq₁] at hq
    cases hq
    refine ⟨hbefore, Storage.not_issued_nextKey q.nodes, ?_⟩
    intro l
    apply Option.ext
    intro x
    rw [h₁.get?_eq_some_iff, Buckets.items_place, Multiset.mem_cons, Item.mk.injEq,
      ← h.represents.get?_eq_some_iff]
    split
    · next hl =>
      rw [hl, get?, Storage.get?_nextKey]
      simp [Prod.ext_iff, eq_comm]
    · next hl => simp [hl]
  · rw [h.represents.insert_eq_error (BitVec.not_le.mp hp)] at hq
    exact nomatch hq

theorem pop_loses (hw : w ≤ 128) (h : Stands q B) {top : Popped (Radix w α S) (BitVec w) α}
    (hq : q.pop = .ok (some top)) : ∃ k, q.Loses top.rest [k] [top.item] := by
  have hbefore := before_of_pop hq
  rcases h.represents.exists_pop hw with ⟨-, hq₁⟩ | ⟨x, n, B', q', hpop, hq₁, h'⟩
  · rw [hq₁] at hq
    exact nomatch hq
  rw [hq₁] at hq
  cases hq
  have hitems := hpop.items
  have hkeys := h.represents.nodup
  rw [Multiset.coe_nil, add_zero, hitems, Multiset.map_cons, Multiset.nodup_cons] at hkeys
  refine ⟨x.key, hbefore, ?_, ?_⟩
  · have hx : q.get? x.key = some x.pair := by
      rw [h.represents.get?_eq_some_iff, hitems]
      exact Multiset.mem_cons_self _ _
    rw [List.map_singleton, hx]
    rfl
  · intro l
    apply Option.ext
    intro y
    rw [h'.get?_eq_some_iff]
    split
    · next hl =>
      -- no other item has the key
      have hgone : (⟨l, y.1, y.2⟩ : Item w α) ∉ B'.items :=
        fun hmem => hkeys.1 (List.mem_singleton.mp hl ▸ Multiset.mem_map_of_mem Item.key hmem)
      simp [hgone]
    · next hl =>
      have hne : (⟨l, y.1, y.2⟩ : Item w α) ≠ x := by
        rintro rfl
        exact hl List.mem_cons_self
      rw [h.represents.get?_eq_some_iff, hitems, Multiset.mem_cons, or_iff_right hne]

theorem pushAll_keeps (hw : w ≤ 128) (h : Stands q B) (items : List (BitVec w × α)) :
    q.Keeps (PriorityQueue.pushAll q items).1 := by
  induction items generalizing q B with
  | nil => exact .refl q
  | cons x rest ih =>
    have hpush : PriorityQueue.push q x.1 x.2 = (·.2) <$> q.insert x.1 x.2 := rfl
    rcases h.insert_cases hw x.1 x.2 with ⟨-, k, q₁, B₁, hq, h₁, -⟩ | ⟨-, hq⟩
    · rw [hq, Result.map_ok] at hpush
      simp only [PriorityQueue.pushAll, hpush]
      exact (h.insert_adds hw hq).keeps.trans (ih h₁)
    · rw [hq, Result.map_error] at hpush
      simp only [PriorityQueue.pushAll, hpush]
      exact .refl q

theorem popMany_loses (hw : w ≤ 128) (h : Stands q B) {n : Nat}
    {d : PriorityQueue.Drained (Radix w α S) (BitVec w) α} (hd : PriorityQueue.popMany n q = .ok d) :
    ∃ ks, q.Loses d.rest ks d.items := by
  induction n generalizing q B d with
  | zero =>
    obtain rfl := Except.ok.inj hd
    exact ⟨[], .refl q⟩
  | succ n ih =>
    obtain ⟨found, hpop, hd⟩ := Result.bind_eq_ok.mp hd
    cases found with
    | none =>
      obtain rfl := Except.ok.inj hd
      exact ⟨[], .refl q⟩
    | some top =>
      obtain ⟨d', hd', hd⟩ := Result.bind_eq_ok.mp hd
      obtain rfl := Except.ok.inj hd
      rcases h.exists_pop hw with ⟨-, hq⟩ | ⟨top', B', hq, h', -⟩
      · exact nomatch hpop.symm.trans hq
      obtain rfl : top = top' := Option.some.inj (Except.ok.inj (hpop.symm.trans hq))
      obtain ⟨k, hk⟩ := h.pop_loses hw hq
      obtain ⟨ks, hks⟩ := ih h' hd'
      exact ⟨k :: ks, hk.trans hks⟩

end Stands

end MonotoneQueue.Radix

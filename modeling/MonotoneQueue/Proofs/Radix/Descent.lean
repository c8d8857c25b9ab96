import Mathlib
import MonotoneQueue.Proofs.Radix.Passes

/- Elements only go down. What a pop links again comes to lie in a lower bucket, and everything else stays
   in its bucket or is gone (`Stands.pop_fate`). So an element goes down with every time that it is linked
   again: over a run these times and the number of its last bucket together are at most the number of its
   first one (`Passes.count_add_depth_le`). The element that comes out of a bucket above 0 pays for the pop
   itself, hence a run tells of no more than what is charged (`Passes.sum_add_fall_le`). -/
namespace MonotoneQueue.Radix

variable {w : Nat} {α : Type} {S : Type → Type} [Storage S]

/-- The number of the bucket of the element that a key names, and zero if there is none. -/
def depth (q : Radix w α S) (k : Key) : Nat :=
  match q.get? k with
  | some x => bitLength (difference x.1 q.floor)
  | none => 0

/-- How far all elements can go down together. -/
def Bag.fall (b : Bag w α) : Nat := (b.items.map fun x => bitLength (difference x.1 b.floor)).sum

theorem Bag.fall_cons (x : BitVec w × α) (M : Multiset (BitVec w × α)) (m : BitVec w) :
    Bag.fall ⟨x ::ₘ M, m⟩ = bitLength (difference x.1 m) + Bag.fall ⟨M, m⟩ := by
  rw [Bag.fall, Multiset.map_cons, Multiset.sum_cons]
  rfl

theorem Buckets.fall_empty (w : Nat) (α : Type) : (empty : Buckets w α).bag.fall = 0 := by
  rw [Bag.fall, bag, pairs, items_empty]
  rfl

theorem depth_of_some {q : Radix w α S} {k : Key} {x : BitVec w × α} (h : q.get? k = some x) :
    q.depth k = bitLength (difference x.1 q.floor) := by
  simp only [depth, h]

theorem depth_of_none {q : Radix w α S} {k : Key} (h : q.get? k = none) : q.depth k = 0 := by
  simp only [depth, h]

/-! Single pushes and pops. -/

namespace Stands

variable {q q' : Radix w α S} {B : Buckets w α}

/-- What becomes of an element in a pop: it is linked again, once, and comes to lie in a lower bucket, or
    else it is gone or stays in its bucket. -/
theorem pop_fate (hw : w ≤ 128) (h : Stands q B) {top : Popped (Radix w α S) (BitVec w) α}
    (hq : q.pop = .ok (some top)) (k : Key) :
    (q.relinked.count k = 1 ∧ ∃ x, q.get? k = some x ∧ top.rest.get? k = some x ∧
      Buckets.indexOf top.rest.floor x.1 < Buckets.indexOf q.floor x.1) ∨
    (q.relinked.count k = 0 ∧ (top.rest.get? k = none ∨ ∃ x, q.get? k = some x ∧ top.rest.get? k = some x ∧
      Buckets.indexOf top.rest.floor x.1 = Buckets.indexOf q.floor x.1)) := by
  obtain ⟨x, moved, kept, B', h', hrelinked, hparts⟩ := h.parts_of_pop hw hq
  have hnodup : (moved.map Item.key).Nodup := by
    have hkeys := h.represents.nodup
    rw [Multiset.coe_nil, add_zero, hparts.items_eq, Multiset.map_cons, Multiset.map_add,
      Multiset.map_coe] at hkeys
    exact Multiset.coe_nodup.mp (Multiset.nodup_add.mp (Multiset.nodup_cons.mp hkeys).2).1
  -- what is left was there before
  have hbefore : ∀ y ∈ B'.items, y ∈ B.items := by
    intro y hy
    rw [hparts.items_eq, ← hparts.rest_eq]
    exact Multiset.mem_cons_of_mem hy
  rw [hrelinked, h.represents.floor_eq, h'.represents.floor_eq]
  simp only [h.represents.get?_eq_some_iff, h'.represents.get?_eq_some_iff]
  by_cases hk : k ∈ moved.map Item.key
  · obtain ⟨y, hy, rfl⟩ := List.mem_map.mp hk
    have hmem : y ∈ B'.items := by
      rw [hparts.rest_eq]
      exact Multiset.mem_add.mpr (Or.inl hy)
    refine Or.inl ⟨List.count_eq_one_of_mem hnodup hk, y.pair, hbefore y hmem, hmem, ?_⟩
    show Buckets.indexOf B'.floor y.priority < Buckets.indexOf B.floor y.priority
    rw [hparts.moved_index y hy]
    exact hparts.moved_lt y hy
  · refine Or.inr ⟨List.count_eq_zero_of_not_mem hk, ?_⟩
    cases hget : top.rest.get? k with
    | none => exact Or.inl rfl
    | some y =>
      have hmem := h'.represents.get?_eq_some_iff.mp hget
      refine Or.inr ⟨y, hbefore _ hmem, hmem, hparts.kept_index ⟨k, y.1, y.2⟩ ?_⟩
      rw [hparts.rest_eq] at hmem
      exact (Multiset.mem_add.mp hmem).resolve_left fun hy => hk (List.mem_map_of_mem hy)

end Stands

/-- The elements that move go down by at least one bucket each, and what comes out of a bucket above 0 had to go
    down as well. -/
theorem Buckets.Parts.fall_le {B B' : Buckets w α} {x : Item w α} {moved : List (Item w α)}
    {kept : Multiset (Item w α)} {told : Option (Notice (BitVec w))} (h : B.Parts x moved kept told B') :
    (told.toList.map fun n => n.relinked + 1).sum + B'.bag.fall ≤ B.bag.fall := by
  have hfall : ∀ C : Buckets w α,
      C.bag.fall = (C.items.map fun y => (indexOf C.floor y.priority).val).sum := by
    intro C
    rw [Bag.fall, bag, pairs, Multiset.map_map]
    rfl
  have hkept : (kept.map fun y => (indexOf B'.floor y.priority).val) =
      kept.map fun y => (indexOf B.floor y.priority).val :=
    Multiset.map_congr rfl fun y hy => congrArg Fin.val (h.kept_index y hy)
  have hmoved : (moved.map fun y => (indexOf B'.floor y.priority).val + 1).sum ≤
      (moved.map fun y => (indexOf B.floor y.priority).val).sum := by
    apply List.sum_le_sum
    intro y hy
    have hlt := Fin.lt_def.mp (h.moved_lt y hy)
    rw [← h.moved_index y hy] at hlt
    exact hlt
  have htold : (told.toList.map fun n => n.relinked + 1).sum ≤
      moved.length + (indexOf B.floor x.priority).val := by
    rw [h.told_eq]
    split
    · next hlt =>
      have hpos : (indexOf B.floor x.priority).val ≠ 0 := by
        intro e
        rw [indexOf_eq_zero_iff.mp (Fin.ext e)] at hlt
        exact BitVec.lt_irrefl _ hlt
      simp only [Option.toList_some, List.map_singleton, List.sum_singleton]
      omega
    · exact Nat.zero_le _
  rw [hfall, hfall, h.items_eq, h.rest_eq, Multiset.map_cons, Multiset.sum_cons, Multiset.map_add,
    Multiset.map_add, Multiset.sum_add, Multiset.sum_add, hkept, Multiset.map_coe, Multiset.map_coe,
    Multiset.sum_coe, Multiset.sum_coe]
  rw [List.sum_map_add, List.map_const', List.sum_replicate, smul_eq_mul, mul_one] at hmoved
  omega

/-! Runs. -/

namespace Passes

variable {q q' : Radix w α S} {B : Buckets w α} {cs : List Nat} {ns : List (Notice (BitVec w))} {ks : List Key}

theorem sum_relinked (hw : w ≤ 128) (h : Passes q cs ns ks q') (hB : Stands q B) :
    (ns.map Notice.relinked).sum = ks.length := by
  induction h generalizing B with
  | stay => rfl
  | push hq _ ih =>
    obtain ⟨-, B', hB', -⟩ := hB.of_insert hw hq
    exact ih hB'
  | pop hq _ ih =>
    obtain ⟨x, moved, kept, B', hB', hrelinked, hparts⟩ := hB.parts_of_pop hw hq
    rw [List.map_append, List.sum_append, List.length_append, ih hB', hrelinked, List.length_map,
      hparts.told_eq]
    split
    · rfl
    · next hx => rw [hparts.moved_eq_nil hx]; rfl
  | clear _ ih => exact ih ⟨.clear _, .empty⟩

/-- An element goes down with every time that it is linked again. -/
theorem count_add_depth_le (hw : w ≤ 128) (h : Passes q cs ns ks q') (hB : Stands q B) {k : Key}
    (hk : Storage.Issued q.nodes k) : ks.count k + q'.depth k ≤ q.depth k := by
  induction h generalizing B with
  | stay => exact Nat.le_of_eq (Nat.zero_add _)
  | @push q q₁ _ _ _ _ _ _ _ hq _ ih =>
    obtain ⟨-, B', hB', -⟩ := hB.of_insert hw hq
    have hkeeps := (hB.insert_adds hw hq).keeps
    have hdepth : q₁.depth k = q.depth k := by
      rw [depth, depth, hkeeps.get?_eq k hk, hB.floor_of_insert hw hq]
    rw [← hdepth]
    exact ih hB' (hkeeps.before k hk)
  | @pop q _ top _ _ _ hq _ ih =>
    obtain ⟨-, -, -, B', hB', -⟩ := hB.parts_of_pop hw hq
    have hrest := ih hB' (before_of_pop hq k hk)
    rw [List.count_append]
    obtain ⟨hcount, x, hx, hx', hlt⟩ | ⟨hcount, hnone | ⟨x, hx, hx', heq⟩⟩ := hB.pop_fate hw hq k
    · rw [depth_of_some hx'] at hrest
      rw [depth_of_some hx, hcount]
      have hlt := Fin.lt_def.mp hlt
      simp only [Buckets.indexOf] at hlt
      omega
    · rw [depth_of_none hnone] at hrest
      omega
    · rw [depth_of_some hx'] at hrest
      rw [depth_of_some hx, hcount]
      have heq := Fin.ext_iff.mp heq
      simp only [Buckets.indexOf] at heq
      omega
  | @clear q _ _ _ _ _ ih =>
    have hnone : q.clear.get? k = none := by simp [Radix.get?, Radix.clear]
    have hrest := ih ⟨.clear _, .empty⟩ (Storage.issued_clear hk)
    rw [depth_of_none hnone] at hrest
    omega

/-- A run tells of no more than what is charged and what its elements could go down before. -/
theorem sum_add_fall_le (hw : w ≤ 128) (h : Passes q cs ns ks q') (hB : Stands q B) :
    ∃ B', Stands q' B' ∧ (ns.map fun n => n.relinked + 1).sum + B'.bag.fall ≤ B.bag.fall + cs.sum := by
  induction h generalizing B with
  | stay => exact ⟨B, hB, by simp⟩
  | push hq _ ih =>
    obtain ⟨-, B₁, hB₁, hbag⟩ := hB.of_insert hw hq
    obtain ⟨B', hB', hle⟩ := ih hB₁
    refine ⟨B', hB', ?_⟩
    rw [hbag, Bag.fall_cons, add_assoc, add_left_comm] at hle
    rw [List.sum_cons, hB.represents.floor_eq]
    exact hle
  | pop hq _ ih =>
    obtain ⟨x, moved, kept, B₁, hB₁, -, hparts⟩ := hB.parts_of_pop hw hq
    obtain ⟨B', hB', hle⟩ := ih hB₁
    refine ⟨B', hB', ?_⟩
    have hfall := hparts.fall_le
    rw [List.map_append, List.sum_append]
    omega
  | @clear q _ _ _ _ _ ih =>
    obtain ⟨B', hB', hle⟩ := ih ⟨.clear q, .empty⟩
    refine ⟨B', hB', ?_⟩
    have hzero := Buckets.fall_empty w α
    omega

end Passes

/-! Sessions. -/

namespace Session

theorem after_pops (hw : w ≤ 128) {s : Session w α S} {B : Buckets w α} (h : Stands s.heap B) {n : Nat}
    (hn : B.pairs.card = n) :
    ∃ d, PriorityQueue.popMany n s.heap = .ok d ∧
      s.after (List.replicate n (.queue .pop)) = { s with heap := d.rest } ∧
      s.relinked (List.replicate n (.queue .pop)) = s.heap.relinkedIn n := by
  induction n generalizing s B with
  | zero => exact ⟨⟨[], [], s.heap⟩, rfl, rfl, rfl⟩
  | succ n ih =>
    obtain ⟨hzero, -⟩ | ⟨top, B', hq, h', -, hitems, -⟩ := h.exists_pop hw
    · simp [hzero] at hn
    have hcard : B.pairs.card = B'.pairs.card + 1 := by
      rw [show B.pairs = _ from hitems, Multiset.card_cons]
      rfl
    have hpop : PriorityQueue.pop s.heap = .ok (some top) := hq
    have hstate : (s.run (.queue .pop)).state = { s with heap := top.rest } := by
      rw [(Acts.pop .pop hq).run_eq]
    obtain ⟨d, hd, hafter, hrelinked⟩ := ih (s := { s with heap := top.rest }) h' (by omega)
    refine ⟨_, PriorityQueue.popMany_succ hpop hd, ?_, ?_⟩
    · show (s.run (.queue .pop)).state.after (List.replicate n (.queue .pop)) = _
      rw [hstate, hafter]
    · show s.heap.relinked ++ (s.run (.queue .pop)).state.relinked (List.replicate n (.queue .pop)) = _
      rw [hstate, hrelinked]
      simp only [relinkedIn, hq]

/-- Where the elements go that pops link again, whatever is done next. -/
structure Descends (s : Session w α S) : Prop where
  /-- The notices of a run count the elements that are linked again. -/
  told : ∀ ops, ((s.notices ops).map Notice.relinked).sum = (s.relinked ops).length
  /-- A drain is one pop after the other. -/
  drain : s.after [.queue .drain] = s.after (List.replicate s.heap.size (.queue .pop)) ∧
    s.relinked [.queue .drain] = s.relinked (List.replicate s.heap.size (.queue .pop))
  /-- What a pop links again leaves its bucket for a lower one. -/
  lower : ∀ top, s.heap.pop = .ok (some top) → ∀ k ∈ s.heap.relinked,
    ∃ i j, k ∈ s.heap.keysIn i ∧ k ∈ top.rest.keysIn j ∧ j < i
  /-- Everything else in a bucket stays there or is gone. -/
  stays : ∀ top, s.heap.pop = .ok (some top) → ∀ i, ∀ k ∈ s.heap.keysIn i, k ∉ s.heap.relinked →
    k ∈ top.rest.keysIn i ∨ top.rest.get? k = none
  /-- An element in bucket 0 is never linked again: it is there until it is gone. -/
  rests : ∀ ops, ∀ k ∈ s.heap.keysIn 0, k ∉ s.relinked ops ∧
    (k ∈ (s.after ops).heap.keysIn 0 ∨ (s.after ops).heap.get? k = none)
  /-- An element that is pushed now is linked again no more often than it is charged. -/
  seldom : ∀ p v k q, s.heap.insert p v = .ok (k, q) → ∀ issued ops,
    ((⟨q, issued⟩ : Session w α S).relinked ops).count k ≤ bitLength (difference p s.heap.floor)

theorem descends (hw : w ≤ 128) {s : Session w α S} {B : Buckets w α} (h : Stands s.heap B) : s.Descends := by
  constructor
  case told => exact fun ops => (after_passes hw h ops).sum_relinked hw h
  case drain =>
    obtain ⟨d, hd, hafter, hrelinked⟩ := after_pops hw h h.size_eq.symm
    constructor
    · rw [hafter]
      show (s.run (.queue .drain)).state = _
      rw [(Acts.drain hd).run_eq]
    · rw [hrelinked]
      exact List.append_nil _
  case lower =>
    intro top hq k hk
    obtain ⟨-, -, -, B', h', -⟩ := h.parts_of_pop hw hq
    obtain ⟨-, x, hx, hx', hlt⟩ | ⟨hcount, -⟩ := h.pop_fate hw hq k
    · exact ⟨_, _, h.mem_keysIn_iff.mpr ⟨x, hx, rfl⟩, h'.mem_keysIn_iff.mpr ⟨x, hx', rfl⟩, hlt⟩
    · exact absurd hk (List.count_eq_zero.mp hcount)
  case stays =>
    intro top hq i k hi hk
    obtain ⟨-, -, -, B', h', -⟩ := h.parts_of_pop hw hq
    obtain ⟨y, hy, hindex⟩ := h.mem_keysIn_iff.mp hi
    obtain ⟨hcount, -⟩ | ⟨-, hnone | ⟨x, hx, hx', heq⟩⟩ := h.pop_fate hw hq k
    · rw [List.count_eq_zero.mpr hk] at hcount
      cases hcount
    · exact Or.inr hnone
    · obtain rfl : x = y := Option.some.inj (hx.symm.trans hy)
      exact Or.inl (h'.mem_keysIn_iff.mpr ⟨x, hx', heq.trans hindex⟩)
  case rests =>
    intro ops k hk
    obtain ⟨B', h'⟩ := exists_stands hw h ops
    obtain ⟨x, hx, hindex⟩ := h.mem_keysIn_iff.mp hk
    have hle := (after_passes hw h ops).count_add_depth_le hw h (issued_of_get? hx)
    have hzero : s.heap.depth k = 0 := (depth_of_some hx).trans (Fin.ext_iff.mp hindex)
    refine ⟨List.count_eq_zero.mp (by omega), ?_⟩
    cases hget : (s.after ops).heap.get? k with
    | none => exact Or.inr rfl
    | some y =>
      refine Or.inl (h'.mem_keysIn_iff.mpr ⟨y, hget, Fin.ext ?_⟩)
      have hdepth := depth_of_some hget
      show bitLength (difference y.1 (s.after ops).heap.floor) = 0
      omega
  case seldom =>
    intro p v k q hq issued ops
    obtain ⟨-, B', h', -⟩ := h.of_insert hw hq
    have hself := (h.insert_adds hw hq).get?_self
    have hle := (after_passes hw (s := ⟨q, issued⟩) h' ops).count_add_depth_le hw h' (issued_of_get? hself)
    rw [depth_of_some hself, h.floor_of_insert hw hq] at hle
    exact (Nat.le_add_right _ _).trans hle

/-- Whatever was done with a queue from the beginning on, its elements only go down, and no run tells of more
    emptied buckets and elements linked again than what its pushes are charged. -/
theorem after_descends (hw : w ≤ 128) (n : Nat) (g : Gauge) (ops : List (Op w α)) :
    let s : Session w α S := ofHeap (emptyWithCapacity n g)
    (s.after ops).Descends ∧ ((s.notices ops).map fun n => n.relinked + 1).sum ≤ (s.charges ops).sum := by
  intro s
  have hstart : Stands s.heap Buckets.empty := .emptyWithCapacity n g
  obtain ⟨B, h⟩ := exists_stands hw hstart ops
  refine ⟨descends hw h, ?_⟩
  obtain ⟨B', -, hle⟩ := (after_passes hw hstart ops).sum_add_fall_le hw hstart
  have hzero := Buckets.fall_empty w α
  omega

/-- The element with priority 14 that was pushed first goes down through buckets 4, 3, 2 and 0. -/
theorem after_descends_bytes : 8 ≤ 128 ∧
    let s : Session 8 Nat := ofHeap (emptyWithCapacity 0 .leadingZeros)
    let ops : List (Op 8 Nat) := [.tryPush 5 0, .tryPush 9 1, .queue (.pushAll [(12, 2), (9, 3), (14, 4)]),
      .queue .pop, .pushHandle 14 5, .tryPop, .queue .drain, .clear, .queue (.push 3 6), .tryPop]
    ((s.after ops).Descends ∧ ((s.notices ops).map fun n => n.relinked + 1).sum ≤ (s.charges ops).sum) ∧
      (s.notices ops).map Notice.relinked = [0, 4, 2, 1, 0] ∧ s.charges ops = [3, 4, 4, 4, 4, 4, 2] ∧
      (s.relinked ops).count ⟨4, 0⟩ = 3 :=
  ⟨by decide, after_descends (by decide) 0 .leadingZeros _, by decide +kernel, by decide +kernel,
    by decide +kernel⟩

end Session
end MonotoneQueue.Radix

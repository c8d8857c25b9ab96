import Mathlib
import MonotoneQueue.Proofs.PriorityQueue.Coupled
import MonotoneQueue.Proofs.Radix.Buckets

/- Bucket lists that match item by item. Where an item is placed is a matter of its priority and of the floor,
   and which one comes out is a matter of priorities and of places in the lists. So if items that match have the
   same priority, lists that match still match when items that match are placed in them (`Matches.place`), and
   what pops take out of them matches as well (`Matches.pops`). -/
namespace MonotoneQueue.Radix

open PriorityQueue (LeastAt exists_match_left)

variable {w : Nat} {α : Type}

theorem FirstLeast.leastAt {xs ys : List (Item w α)} {m : Item w α} (h : FirstLeast xs m ys) :
    LeastAt Item.priority xs m ys :=
  ⟨fun x hx => BitVec.not_le.mpr (h.lt_before x hx), h.le_after⟩

namespace Buckets

/-- The floors are the same, and the lists match item by item. -/
structure Matches (S : Item w α → Item w α → Prop) (B C : Buckets w α) : Prop where
  floor_eq : B.floor = C.floor
  lists : ∀ i, List.Forall₂ S (B.list i) (C.list i)

namespace Matches

variable {S S' : Item w α → Item w α → Prop} {B C B' C' : Buckets w α}

theorem empty : Matches S Buckets.empty (Buckets.empty : Buckets w α) := ⟨rfl, fun _ => .nil⟩

/-- What is true of all items that match may be added to how they match. -/
theorem imp (h : Matches S B C) (hS : ∀ x ∈ B.items, ∀ y ∈ C.items, S x y → S' x y) :
    Matches S' B C := by
  refine ⟨h.floor_eq, ?_⟩
  intro i
  obtain ⟨hlength, hzip⟩ := List.forall₂_iff_zip.mp (h.lists i)
  refine List.forall₂_iff_zip.mpr ⟨hlength, ?_⟩
  intro x y hxy
  obtain ⟨hx, hy⟩ := List.of_mem_zip hxy
  exact hS x (mem_items.mpr ⟨i, hx⟩) y (mem_items.mpr ⟨i, hy⟩) (hzip hxy)

theorem symm (h : Matches S B C) : Matches (flip S) C B :=
  ⟨h.floor_eq.symm, fun i => (h.lists i).flip⟩

theorem exists_item (h : Matches S B C) {x : Item w α} (hx : x ∈ B.items) : ∃ y ∈ C.items, S x y := by
  obtain ⟨i, hi⟩ := mem_items.mp hx
  obtain ⟨y, hy, hxy⟩ := exists_match_left (h.lists i) x hi
  exact ⟨y, mem_items.mpr ⟨i, hy⟩, hxy⟩

/-- What items that match have in common, the bucket lists have in common. -/
theorem map_items {β : Type} {f : Item w α → β} (h : Matches S B C) (hf : ∀ x y, S x y → f x = f y) :
    B.items.map f = C.items.map f := by
  rw [items, items, ← Multiset.coe_mapAddMonoidHom, map_sum, map_sum]
  apply Finset.sum_congr rfl
  intro i _
  rw [Multiset.coe_mapAddMonoidHom, Multiset.map_coe, Multiset.map_coe]
  apply congrArg
  rw [← List.forall₂_eq_eq_eq, List.forall₂_map_left_iff, List.forall₂_map_right_iff]
  exact (h.lists i).imp hf

theorem eq_nil_iff (h : Matches S B C) (i : Fin (w + 1)) : B.list i = [] ↔ C.list i = [] := by
  rw [← List.length_eq_zero_iff, ← List.length_eq_zero_iff, (h.lists i).length_eq]

theorem items_eq_zero_iff (h : Matches S B C) : B.items = 0 ↔ C.items = 0 := by
  rw [Buckets.items_eq_zero_iff, Buckets.items_eq_zero_iff]
  exact forall_congr' h.eq_nil_iff

theorem set (h : Matches S B C) (i : Fin (w + 1)) {l l' : List (Item w α)} (hl : List.Forall₂ S l l') :
    Matches S (B.set i l) (C.set i l') := by
  refine ⟨h.floor_eq, ?_⟩
  intro j
  rw [set_list, set_list]
  split
  · exact hl
  · exact h.lists j

/-! Items that match have the same priority. -/

variable (hS : ∀ x y, S x y → x.priority = y.priority)
include hS

theorem place (h : Matches S B C) {x y : Item w α} (hxy : S x y) : Matches S (B.place x) (C.place y) := by
  rw [Buckets.place, Buckets.place, ← hS x y hxy, ← h.floor_eq]
  exact h.set _ (.cons hxy (h.lists _))

theorem foldl_place {l l' : List (Item w α)} (hl : List.Forall₂ S l l') (h : Matches S B C) :
    Matches S (l.foldl Buckets.place B) (l'.foldl Buckets.place C) := by
  induction hl generalizing B C with
  | nil => exact h
  | cons hxy _ ih => exact ih (h.place hS hxy)

/-- Pops take out items that match, tell the same, and leave bucket lists that match. -/
theorem pops (h : Matches S B C) {x y : Item w α} {n n' : Option (Notice (BitVec w))} (hx : B.Pops x n B')
    (hy : C.Pops y n' C') : S x y ∧ n = n' ∧ Matches S B' C' := by
  have hzero := h.eq_nil_iff 0
  cases hx with
  | @exact _ rest hB =>
    cases hy with
    | @exact _ rest' hC =>
      have hlist := h.lists 0
      rw [hB, hC] at hlist
      obtain ⟨hxy, hrest⟩ := List.forall₂_cons.mp hlist
      exact ⟨hxy, rfl, h.set 0 hrest⟩
    | least hi low =>
      rw [hB, low 0 hi] at hzero
      cases hzero.mpr rfl
  | @least i xs ys _ hi low hB hm =>
    cases hy with
    | exact hC =>
      rw [hC, low 0 hi] at hzero
      cases hzero.mp rfl
    | @least i' xs' ys' _ hi' low' hC hm' =>
      -- the lowest occupied buckets are the same
      obtain rfl : i = i' := by
        rcases lt_trichotomy i i' with hlt | heq | hgt
        · have hnil := (h.eq_nil_iff i).mpr (low' i hlt)
          simp [hB] at hnil
        · exact heq
        · have hnil := (h.eq_nil_iff i').mp (low i' hgt)
          simp [hC] at hnil
      have hlist := h.lists i
      rw [hB, hC] at hlist
      obtain ⟨hxy, hothers⟩ := hm.leastAt.forall₂ hm'.leastAt hS hlist
      refine ⟨hxy, ?_, foldl_place hS hothers ?_⟩
      · rw [hS x y hxy, hothers.length_eq]
      · have hset : Matches S (B.set i []) (C.set i []) := h.set i .nil
        exact ⟨hS x y hxy, hset.lists⟩

end Matches
end Buckets
end MonotoneQueue.Radix

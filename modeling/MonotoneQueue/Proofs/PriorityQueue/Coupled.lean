import Mathlib
import MonotoneQueue.PriorityQueue

/- Two queues that agree up to a bound. One of them may hold more than the other, but only above the bound,
   and this makes no difference to what comes out at or below it: the same priorities in the same order,
   also among equal ones, for values that stand for each other. -/
namespace MonotoneQueue.PriorityQueue

/-! Lists of elements that match one by one. -/

section Lists

variable {κ β γ : Type} {S : β → γ → Prop}

theorem exists_match_left {l : List β} {l' : List γ} (h : List.Forall₂ S l l') :
    ∀ x ∈ l, ∃ y ∈ l', S x y := by
  induction h with
  | nil => exact nofun
  | cons hlike _ ih =>
    intro x hx
    rcases List.mem_cons.mp hx with rfl | hx
    · exact ⟨_, List.mem_cons_self, hlike⟩
    · obtain ⟨y, hy, hxy⟩ := ih x hx
      exact ⟨y, List.mem_cons_of_mem _ hy, hxy⟩

theorem exists_match_right {l : List β} {l' : List γ} (h : List.Forall₂ S l l') :
    ∀ y ∈ l', ∃ x ∈ l, S x y := exists_match_left (List.Forall₂.flip h)

variable [LE κ]

/-- Between `xs` and `ys`, the element `m` is the first one of least priority. -/
structure LeastAt (priority : β → κ) (xs : List β) (m : β) (ys : List β) : Prop where
  not_le_before : ∀ x ∈ xs, ¬ priority x ≤ priority m
  le_after : ∀ y ∈ ys, priority m ≤ priority y

/-- In lists that match, also in priority, the first least elements are at the same place. -/
theorem LeastAt.forall₂ {priority : β → κ} {priority' : γ → κ} {xs ys : List β} {xs' ys' : List γ}
    {m : β} {m' : γ} (hm : LeastAt priority xs m ys) (hm' : LeastAt priority' xs' m' ys')
    (hS : ∀ x y, S x y → priority x = priority' y)
    (h : List.Forall₂ S (xs ++ m :: ys) (xs' ++ m' :: ys')) :
    S m m' ∧ List.Forall₂ S (xs ++ ys) (xs' ++ ys') := by
  induction xs generalizing xs' with
  | nil =>
    cases xs' with
    | nil => exact List.forall₂_cons.mp h
    | cons x' xs' =>
      -- the least element of the second list would match one behind that of the first
      obtain ⟨hmatch, hrest⟩ := List.forall₂_cons.mp h
      obtain ⟨y, hy, hymatch⟩ := exists_match_right hrest m' (by simp)
      have hle := hm.le_after y hy
      rw [hS _ _ hmatch, hS _ _ hymatch] at hle
      exact absurd hle (hm'.not_le_before x' List.mem_cons_self)
  | cons x xs ih =>
    cases xs' with
    | nil =>
      obtain ⟨hmatch, hrest⟩ := List.forall₂_cons.mp h
      obtain ⟨y, hy, hymatch⟩ := exists_match_left hrest m (by simp)
      have hle := hm'.le_after y hy
      rw [← hS _ _ hmatch, ← hS _ _ hymatch] at hle
      exact absurd hle (hm.not_le_before x List.mem_cons_self)
    | cons x' xs' =>
      obtain ⟨hmatch, hrest⟩ := List.forall₂_cons.mp h
      obtain ⟨hleast, hothers⟩ := ih
        ⟨fun y hy => hm.not_le_before y (List.mem_cons_of_mem _ hy), hm.le_after⟩
        ⟨fun y hy => hm'.not_le_before y (List.mem_cons_of_mem _ hy), hm'.le_after⟩ hrest
      exact ⟨hleast, .cons hmatch hothers⟩

end Lists

/-! Queues. -/

/-- A queue type whose states can be coupled up to a bound, over a relation of their values. -/
class Coupled (Q : Type) {κ α : outParam Type} [LE κ] [PriorityQueue Q κ α] where
  Couples : κ → (α → α → Prop) → Q → Q → Prop
  couples_empty : ∀ most R, Couples most R empty empty
  mono : ∀ {most R R' q q'}, (∀ v v', R v v' → R' v v') → Couples most R q q' → Couples most R' q q'
  /-- Related values may be pushed into both under one priority. -/
  push_both : ∀ {most R q q' q₁ p v v'}, Couples most R q q' → R v v' → push q p v = .ok q₁ →
    ∃ q₁', push q' p v' = .ok q₁' ∧ Couples most R q₁ q₁'
  /-- Anything may be pushed into the first alone above the bound. -/
  push_left : ∀ {most R q q' q₁ p v}, Couples most R q q' → ¬ p ≤ most → push q p v = .ok q₁ →
    Couples most R q₁ q'
  /-- What comes out of the first at or below the bound comes out of the second as well. -/
  pop : ∀ {most R q q' top}, Couples most R q q' → pop q = .ok (some top) → top.priority ≤ most →
    ∃ top', pop q' = .ok (some top') ∧ top'.priority = top.priority ∧ R top.value top'.value ∧
      Couples most R top.rest top'.rest

end MonotoneQueue.PriorityQueue

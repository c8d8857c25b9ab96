import Mathlib
import MonotoneQueue.Proofs.PriorityQueue.Contents
import MonotoneQueue.Proofs.PriorityQueue.Coupled

/- A stable queue as its user sees it: the pairs stand in line in the order in which they came, and the
   first among the least is served. Nothing is left open (`Line.Allows`), and who asks for all pairs is
   given them sorted, equal priorities in the order of the line (`sorted_of_leastAt`). -/
namespace MonotoneQueue.PriorityQueue

/-- What is inserted comes after all that it does not precede, if it precedes all the rest. -/
theorem orderedInsert_append {β : Type} {precedes : β → β → Bool} {a : β} {l₁ l₂ : List β}
    (h₁ : ∀ b ∈ l₁, ¬ precedes a b = true) (h₂ : ∀ b ∈ l₂, precedes a b = true) :
    (l₁ ++ l₂).orderedInsert (precedes · ·) a = l₁ ++ a :: l₂ := by
  induction l₁ with
  | nil =>
    cases l₂ with
    | nil => rfl
    | cons b l₂ => exact if_pos (h₂ b List.mem_cons_self)
  | cons b l₁ ih =>
    rw [List.cons_append, List.orderedInsert_cons, if_neg (h₁ b List.mem_cons_self),
      ih fun c hc => h₁ c (List.mem_cons_of_mem _ hc), List.cons_append]

theorem LeastAt.le {β κ : Type} [LE κ] [Std.IsLinearPreorder κ] {priority : β → κ} {xs ys : List β}
    {m x : β} (h : LeastAt priority xs m ys) (hx : x ∈ xs ++ m :: ys) : priority m ≤ priority x := by
  rw [List.mem_append, List.mem_cons] at hx
  obtain hx | rfl | hx := hx
  · exact Std.le_of_not_ge (h.not_le_before x hx)
  · exact Std.le_refl _
  · exact h.le_after x hx

namespace Line

variable {κ α : Type} [LE κ]

/-- The first least pair leaves the line, or there is none. -/
def Serves (l l' : List (κ × α)) : Option (κ × α) → Prop
  | none => l = [] ∧ l' = []
  | some x => ∃ xs ys, LeastAt Prod.fst xs x ys ∧ l = xs ++ x :: ys ∧ l' = xs ++ ys

theorem Serves.takes [Std.IsLinearPreorder κ] {l l' : List (κ × α)} {found : Option (κ × α)}
    (h : Serves l l' found) : Takes (l : Multiset (κ × α)) l' found := by
  cases found with
  | none =>
    obtain ⟨rfl, rfl⟩ := h
    exact ⟨rfl, rfl⟩
  | some x =>
    obtain ⟨xs, ys, hleast, rfl, rfl⟩ := h
    refine ⟨?_, fun y hy => hleast.le (Multiset.mem_coe.mp hy)⟩
    rw [Multiset.cons_coe]
    exact Multiset.coe_eq_coe.mpr List.perm_middle

variable [DecidableLE κ]

/-- The priority of the first is not above that of the second. -/
def notAbove (x y : κ × α) : Bool := x.1 ≤ y.1

/-- A line by priority. Merge sort is stable. -/
def sorted (l : List (κ × α)) : List (κ × α) := l.mergeSort notAbove

/-- What an operation answers on a line, and what it leaves. -/
def Allows (l : List (κ × α)) (op : Op κ α) (r : Reply κ α) (l' : List (κ × α)) : Prop :=
  match op with
  | .push p v => r = .done ∧ l' = l ++ [(p, v)]
  | .pushAll items => r = .done ∧ l' = l ++ items
  | .pop => ∃ found, Serves l l' found ∧ r = .item found
  | .peek => ∃ found rest, Serves l rest found ∧ r = .item found ∧ l' = l
  | .drain => r = .items (sorted l) ∧ l' = []
  | .size => r = .count l.length ∧ l' = l
  | .isEmpty => r = .flag l.isEmpty ∧ l' = l
  | .describe _ => (∃ description, r = .text description) ∧ l' = l

theorem notAbove_iff {x y : κ × α} : notAbove x y = true ↔ x.1 ≤ y.1 := decide_eq_true_iff

@[simp] theorem sorted_nil : sorted ([] : List (κ × α)) = [] := List.mergeSort_nil

theorem sorted_perm (l : List (κ × α)) : (sorted l).Perm l := List.mergeSort_perm _ _

variable [Std.IsLinearPreorder κ]

theorem notAbove_trans (x y z : κ × α) (hxy : notAbove x y = true) (hyz : notAbove y z = true) :
    notAbove x z = true := by
  rw [notAbove_iff] at *
  exact Std.le_trans hxy hyz

theorem notAbove_total (x y : κ × α) : (notAbove x y || notAbove y x) = true := by
  rw [Bool.or_eq_true, notAbove_iff, notAbove_iff]
  exact Std.le_total

theorem sorted_pairwise (l : List (κ × α)) : (sorted l).Pairwise fun x y => notAbove x y = true :=
  List.pairwise_mergeSort notAbove_trans notAbove_total l

/-- Who stands at the front comes before all others that are not below. -/
theorem sorted_cons (a : κ × α) (l : List (κ × α)) :
    sorted (a :: l) = (sorted l).orderedInsert (notAbove · ·) a := by
  obtain ⟨l₁, l₂, hcons, hrest, hbelow⟩ := List.mergeSort_cons notAbove_trans notAbove_total a l
  have hsorted := sorted_pairwise (a :: l)
  rw [sorted, hcons, List.pairwise_append, List.pairwise_cons] at hsorted
  rw [sorted, sorted, hcons, hrest, orderedInsert_append]
  · intro b hb
    simpa using hbelow b hb
  · exact hsorted.2.1.1

/-- The first least pair comes first in the sorted line, and the others follow sorted. -/
theorem sorted_of_leastAt {xs ys : List (κ × α)} {m : κ × α} (h : LeastAt Prod.fst xs m ys) :
    sorted (xs ++ m :: ys) = m :: sorted (xs ++ ys) := by
  induction xs with
  | nil =>
    rw [List.nil_append, sorted_cons]
    show ([] ++ sorted ys).orderedInsert _ m = [] ++ m :: sorted ys
    apply orderedInsert_append
    · exact fun b hb => absurd hb List.not_mem_nil
    · intro b hb
      exact notAbove_iff.mpr (h.le_after b ((sorted_perm ys).mem_iff.mp hb))
  | cons a xs ih =>
    have ham : ¬ notAbove a m = true := fun ham =>
      h.not_le_before a List.mem_cons_self (notAbove_iff.mp ham)
    calc sorted (a :: (xs ++ m :: ys))
        = (sorted (xs ++ m :: ys)).orderedInsert (notAbove · ·) a := sorted_cons a _
      _ = (m :: sorted (xs ++ ys)).orderedInsert (notAbove · ·) a := by
        rw [ih ⟨fun x hx => h.not_le_before x (List.mem_cons_of_mem _ hx), h.le_after⟩]
      _ = m :: (sorted (xs ++ ys)).orderedInsert (notAbove · ·) a := if_neg ham
      _ = m :: sorted (a :: (xs ++ ys)) := by rw [sorted_cons]

theorem Allows.unordered {l l' : List (κ × α)} {op : Op κ α} {r : Reply κ α} (h : Allows l op r l') :
    op.Allows (l : Multiset (κ × α)) r l' := by
  cases op with
  | push p v =>
    obtain ⟨rfl, rfl⟩ := h
    refine ⟨rfl, ?_⟩
    rw [Multiset.cons_coe]
    exact Multiset.coe_eq_coe.mpr (List.perm_append_singleton _ _)
  | pushAll items =>
    obtain ⟨rfl, rfl⟩ := h
    exact ⟨rfl, (Multiset.coe_eq_coe.mpr List.perm_append_comm).trans (Multiset.coe_add _ _).symm⟩
  | pop =>
    obtain ⟨found, hserves, rfl⟩ := h
    exact ⟨found, hserves.takes, rfl⟩
  | peek =>
    obtain ⟨found, rest, hserves, rfl, rfl⟩ := h
    exact ⟨found, rest, hserves.takes, rfl, rfl⟩
  | drain =>
    obtain ⟨rfl, rfl⟩ := h
    refine ⟨sorted l, Multiset.coe_eq_coe.mpr (sorted_perm l), ?_, rfl, rfl⟩
    exact (sorted_pairwise l).imp notAbove_iff.mp
  | size =>
    obtain ⟨rfl, rfl⟩ := h
    exact ⟨rfl, rfl⟩
  | isEmpty =>
    obtain ⟨rfl, rfl⟩ := h
    exact ⟨⟨_, rfl, List.isEmpty_iff.trans (Multiset.coe_eq_zero _).symm⟩, rfl⟩
  | describe style =>
    obtain ⟨hr, rfl⟩ := h
    exact ⟨hr, rfl⟩

end Line
end MonotoneQueue.PriorityQueue

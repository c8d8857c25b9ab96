import Mathlib
import MonotoneQueue.Cost

/- Costs by the integers that they stand for. -/
namespace MonotoneQueue

/-- The integer is within the budget, if there is one. -/
def Affordable {κ : Type} [LE κ] [Cost κ] (budget : Option κ) (c : Int) : Prop :=
  ∀ most ∈ budget, c ≤ Cost.value most

namespace Cost

variable {κ : Type} [LE κ] [Cost κ]

instance : Std.IsLinearPreorder κ where
  le_refl a := (le_iff_value_le a a).mpr (Int.le_refl _)
  le_trans a b c hab hbc := by
    rw [le_iff_value_le] at *
    exact Int.le_trans hab hbc
  le_total a b := by
    rw [le_iff_value_le a, le_iff_value_le b]
    exact Int.le_total _ _

/-- A sum stands for the sum, or the type has no cost that does. -/
theorem sum_cases (a b : κ) :
    (sum a b = .error .costOverflow ∧ ∀ c : κ, value c ≠ value a + value b) ∨
      ∃ c, sum a b = .ok c ∧ value c = value a + value b := by
  cases h : add? a b with
  | none =>
    refine Or.inl ⟨by rw [sum, h], ?_⟩
    intro c hc
    rw [(add?_eq_some_iff a b c).mpr hc] at h
    exact nomatch h
  | some c => exact Or.inr ⟨c, by rw [sum, h], (add?_eq_some_iff a b c).mp h⟩

theorem sum_eq_ok_iff {a b c : κ} : sum a b = .ok c ↔ value c = value a + value b := by
  rw [← add?_eq_some_iff, sum]
  cases add? a b <;> simp

theorem within_iff [DecidableLE κ] {budget : Option κ} {c : κ} :
    within budget c = true ↔ Affordable budget (value c) := by
  cases budget with
  | none => simp [within, Affordable]
  | some most => simp [within, Affordable, le_iff_value_le]

theorem value_nonneg {w : Nat} (a : BitVec w) : 0 ≤ value a := Int.natCast_nonneg a.toNat

end Cost

theorem affordable_some {κ : Type} [LE κ] [Cost κ] {most : κ} {c : Int} :
    Affordable (some most) c ↔ c ≤ Cost.value most := by
  simp [Affordable]

theorem Affordable.mono {κ : Type} [LE κ] [Cost κ] {budget : Option κ} {c d : Int}
    (h : Affordable budget d) (hcd : c ≤ d) : Affordable budget c :=
  fun most hm => Int.le_trans hcd (h most hm)

end MonotoneQueue

import MonotoneQueue.Failure

/- What a search adds up along a route. A cost stands for an integer (`value`); costs are compared
   and added as those integers are, except that a sum outside the type is refused. The instances
   are the words of any width, read as unsigned, and the signed words of 64 bits.

   Correspondence with `Cost`: `default` ↔ `zero`, `add` ↔ `sum`, `within_budget` ↔ `within`. -/
namespace MonotoneQueue

/-- Ordered numbers of a bounded type, with a checked sum. -/
class Cost (κ : Type) [LE κ] where
  zero : κ
  /-- The sum, if the type has it. -/
  add? : κ → κ → Option κ
  /-- The integer that a cost stands for. -/
  value : κ → Int
  value_zero : value zero = 0
  value_injective : ∀ a b, value a = value b → a = b
  le_iff_value_le : ∀ a b, a ≤ b ↔ value a ≤ value b
  add?_eq_some_iff : ∀ a b c, add? a b = some c ↔ value c = value a + value b
  /-- The costs have no gaps. -/
  exists_value_eq : ∀ (a b : κ) (n : Int), value a ≤ n → n ≤ value b → ∃ c, value c = n

namespace Cost

variable {κ : Type} [LE κ] [Cost κ]

/-- The sum, or the failure to have one. -/
def sum (a b : κ) : Result κ :=
  match add? a b with
  | some c => .ok c
  | none => .error .costOverflow

/-- A cost is within a budget, if there is one. -/
def within [DecidableLE κ] (budget : Option κ) (cost : κ) : Bool :=
  match budget with
  | some most => cost ≤ most
  | none => true

end Cost

instance {w : Nat} : Cost (BitVec w) where
  zero := 0#w
  add? a b := if a.uaddOverflow b then none else some (a + b)
  value a := a.toNat
  value_zero := by simp
  value_injective a b h := BitVec.eq_of_toNat_eq (by omega)
  le_iff_value_le a b := by rw [BitVec.le_def]; omega
  add?_eq_some_iff a b c := by
    have hc := c.isLt
    split
    · next h =>
      have := of_decide_eq_true h
      simp
      omega
    · next h =>
      have := of_decide_eq_false (Bool.not_eq_true _ ▸ h)
      rw [Option.some.injEq, ← BitVec.toNat_inj, BitVec.toNat_add, Nat.mod_eq_of_lt (by omega)]
      omega
  exists_value_eq a b n ha hb :=
    ⟨BitVec.ofNat w n.toNat, by
      have := b.isLt
      rw [BitVec.toNat_ofNat, Nat.mod_eq_of_lt (by omega)]
      omega⟩

instance : Cost Int64 where
  zero := 0
  add? a b :=
    if Int64.minValue.toInt ≤ a.toInt + b.toInt ∧ a.toInt + b.toInt ≤ Int64.maxValue.toInt then
      some (a + b)
    else none
  value := Int64.toInt
  value_zero := rfl
  value_injective a b h := Int64.toInt_inj.mp h
  le_iff_value_le a b := Int64.le_iff_toInt_le
  add?_eq_some_iff a b c := by
    have lo := Int64.minValue_le_toInt c
    have hi := Int64.toInt_le c
    split
    · next h =>
      rw [Option.some.injEq, ← Int64.toInt_inj, Int64.toInt_add,
        Int.bmod_eq_of_le h.1 (Int.lt_of_le_of_lt h.2 (by decide))]
      exact eq_comm
    · next h =>
      refine ⟨(nomatch ·), fun e => ?_⟩
      rw [e] at lo hi
      exact absurd ⟨lo, hi⟩ h
  exists_value_eq a b n ha hb :=
    ⟨Int64.ofInt n, Int64.toInt_ofInt_of_le (Int.le_trans (Int64.le_toInt a) ha)
      (Int.lt_of_le_of_lt hb (Int64.toInt_lt b))⟩

end MonotoneQueue

import Mathlib
import MonotoneQueue.Bits

/- The length of a word is the only number between whose powers of two the word lies
   (`eq_bitLength_iff`). Halving a word takes one off its length, so counting the halvings gives the
   same number (`shiftLength_eq_bitLength`), and either gauge measures it (`Gauge.length_eq`). After
   so many halvings, and no sooner, nothing is left (`half_iterate_eq_zero_iff`). -/
namespace MonotoneQueue

theorem bitLength_le {w : Nat} (x : BitVec w) : bitLength x ≤ w := Nat.sub_le _ _

theorem toNat_lt_two_pow_bitLength {w : Nat} (x : BitVec w) : x.toNat < 2 ^ bitLength x :=
  BitVec.toNat_lt_two_pow_sub_clz

@[simp] theorem bitLength_zero (w : Nat) : bitLength (0#w) = 0 := by
  have h : (0#w).clz = (w : BitVec w) := BitVec.clz_eq_iff_eq_zero.mpr rfl
  simp [bitLength, h]

theorem two_pow_le_toNat {w : Nat} {x : BitVec w} (h : x ≠ 0#w) :
    2 ^ (bitLength x - 1) ≤ x.toNat := by
  have hw : 0 < w := by
    rcases Nat.eq_zero_or_pos w with rfl | hw
    · exact absurd (BitVec.of_length_zero) h
    · exact hw
  have := BitVec.two_pow_sub_clz_le_toNat_of_ne_zero hw h
  rwa [Nat.sub_right_comm] at this

theorem bitLength_eq_zero_iff {w : Nat} (x : BitVec w) : bitLength x = 0 ↔ x = 0#w := by
  constructor
  · intro h
    have := toNat_lt_two_pow_bitLength x
    rw [h] at this
    exact BitVec.eq_of_toNat_eq (by simp; omega)
  · rintro rfl
    exact bitLength_zero w

/-- The length is the only number between whose neighbouring powers of two the word lies. -/
theorem eq_bitLength {w : Nat} {x : BitVec w} {n : Nat} (hi : x.toNat < 2 ^ n)
    (lo : n = 0 ∨ 2 ^ (n - 1) ≤ x.toNat) : n = bitLength x := by
  by_cases hx : x = 0#w
  · subst hx
    rcases lo with rfl | lo
    · simp
    · have := Nat.two_pow_pos (n - 1)
      simp at lo
  · have h₁ := toNat_lt_two_pow_bitLength x
    have h₂ := two_pow_le_toNat hx
    have hpos : bitLength x ≠ 0 := fun h => hx ((bitLength_eq_zero_iff x).mp h)
    rcases lo with rfl | lo
    · exact absurd (BitVec.eq_of_toNat_eq (by simp; omega)) hx
    · have a := (Nat.pow_lt_pow_iff_right (a := 2) (by omega)).mp (Nat.lt_of_le_of_lt lo h₁)
      have b := (Nat.pow_lt_pow_iff_right (a := 2) (by omega)).mp (Nat.lt_of_le_of_lt h₂ hi)
      omega

theorem eq_bitLength_iff {w : Nat} {x : BitVec w} {n : Nat} :
    n = bitLength x ↔ x.toNat < 2 ^ n ∧ (n = 0 ∨ 2 ^ (n - 1) ≤ x.toNat) := by
  constructor
  · rintro rfl
    refine ⟨toNat_lt_two_pow_bitLength x, ?_⟩
    by_cases hx : x = 0#w
    · exact Or.inl ((bitLength_eq_zero_iff x).mpr hx)
    · exact Or.inr (two_pow_le_toNat hx)
  · rintro ⟨hi, lo⟩
    exact eq_bitLength hi lo

theorem bitLength_half {w : Nat} {x : BitVec w} (h : x ≠ 0#w) :
    bitLength x = bitLength (half x) + 1 := by
  symm
  apply eq_bitLength
  · have := toNat_lt_two_pow_bitLength (half x)
    rw [toNat_half] at this
    rw [Nat.pow_succ]
    omega
  · refine Or.inr ?_
    rw [Nat.add_sub_cancel]
    by_cases hx : half x = 0#w
    · have : x.toNat ≠ 0 := fun e => h (BitVec.eq_of_toNat_eq (by simpa using e))
      rw [hx, bitLength_zero]
      omega
    · have hpos : bitLength (half x) ≠ 0 := fun e => hx ((bitLength_eq_zero_iff _).mp e)
      have := two_pow_le_toNat hx
      rw [toNat_half] at this
      have e : 2 ^ bitLength (half x) = 2 ^ (bitLength (half x) - 1) * 2 := by
        rw [← Nat.pow_succ]; congr 1; omega
      omega

theorem shiftLength_eq_bitLength {w : Nat} (x : BitVec w) : shiftLength x = bitLength x := by
  fun_induction shiftLength x with
  | case1 => simp
  | case2 x h ih => rw [ih, bitLength_half h]

/-- The halvings that are counted are those up to the first that leaves nothing. -/
theorem half_iterate_eq_zero_iff {w : Nat} {x : BitVec w} {k : Nat} :
    half^[k] x = 0#w ↔ shiftLength x ≤ k := by
  fun_induction shiftLength x generalizing k with
  | case1 =>
    have hzero : half (0#w) = 0#w := BitVec.eq_of_toNat_eq (by simp [toNat_half])
    simp [Function.iterate_fixed hzero]
  | case2 x h ih =>
    cases k with
    | zero => simp [h]
    | succ k => rw [Function.iterate_succ_apply, ih, Nat.add_le_add_iff_right]

@[simp] theorem Gauge.length_eq {w : Nat} (g : Gauge) (x : BitVec w) :
    g.length x = bitLength x := by
  cases g
  · rfl
  · exact shiftLength_eq_bitLength x

end MonotoneQueue

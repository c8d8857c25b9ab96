import Mathlib
import MonotoneQueue.Bits.Length

/- How far apart two words are, measured by the length of their difference. The length is at most
   `n` exactly when the words agree above their lowest `n` bits (`bitLength_difference_le_iff`), and
   everything else follows by comparing quotients by powers of two: at or above a common floor the
   shorter difference belongs to the smaller word (`lt_of_bitLength_difference_lt`), and when the
   floor moves up by a difference of length `k`, longer differences keep their length while those of
   length `k` get shorter. This is why a bucket queue may leave all buckets but one alone
   (`Gauge.length_sorts`). -/
namespace MonotoneQueue

variable {w : Nat}

theorem bitLength_le_iff {n : Nat} {x : BitVec w} : bitLength x ≤ n ↔ x.toNat < 2 ^ n := by
  constructor
  · intro h
    exact Nat.lt_of_lt_of_le (toNat_lt_two_pow_bitLength x) (Nat.pow_le_pow_right (by omega) h)
  · intro h
    by_cases hx : x = 0#w
    · subst hx
      simp
    · have := (Nat.pow_lt_pow_iff_right (a := 2) (by omega)).mp
        (Nat.lt_of_le_of_lt (two_pow_le_toNat hx) h)
      omega

/-! The highest bit of a word. -/

theorem getLsbD_bitLength {x : BitVec w} (h : x ≠ 0#w) : x.getLsbD (bitLength x - 1) = true := by
  have hpos : bitLength x ≠ 0 := fun e => h ((bitLength_eq_zero_iff x).mp e)
  apply Nat.testBit_of_two_pow_le_and_two_pow_add_one_gt (two_pow_le_toNat h)
  rw [Nat.sub_add_cancel (by omega)]
  exact toNat_lt_two_pow_bitLength x

theorem getLsbD_of_bitLength_le {x : BitVec w} {i : Nat} (h : bitLength x ≤ i) :
    x.getLsbD i = false :=
  Nat.testBit_lt_two_pow (bitLength_le_iff.mp h)

/-! Differences. -/

theorem bitLength_difference_le_iff {n : Nat} {x y : BitVec w} :
    bitLength (difference x y) ≤ n ↔ x.toNat / 2 ^ n = y.toNat / 2 ^ n := by
  rw [bitLength_le_iff, difference, BitVec.toNat_xor, ← Nat.div_eq_zero_iff_lt (Nat.two_pow_pos n),
    Nat.xor_div_two_pow, Nat.xor_eq_zero_iff]

theorem bitLength_difference_eq_zero_iff {x y : BitVec w} :
    bitLength (difference x y) = 0 ↔ x = y := by
  rw [bitLength_eq_zero_iff, difference, BitVec.xor_eq_zero_iff]

/-- At or above a floor, the word whose difference to the floor is shorter is the smaller one. -/
theorem lt_of_bitLength_difference_lt {m p q : BitVec w} (hq : m ≤ q)
    (h : bitLength (difference p m) < bitLength (difference q m)) : p < q := by
  have hp : p.toNat / 2 ^ bitLength (difference p m) = m.toNat / 2 ^ bitLength (difference p m) :=
    bitLength_difference_le_iff.mp (Nat.le_refl _)
  have hne : q.toNat / 2 ^ bitLength (difference p m) ≠ m.toNat / 2 ^ bitLength (difference p m) :=
    fun e => absurd (bitLength_difference_le_iff.mpr e) (by omega)
  have hle : m.toNat / 2 ^ bitLength (difference p m) ≤ q.toNat / 2 ^ bitLength (difference p m) :=
    Nat.div_le_div_right (BitVec.le_def.mp hq)
  rw [BitVec.lt_def]
  by_contra hlt
  have := Nat.div_le_div_right (c := 2 ^ bitLength (difference p m)) (Nat.le_of_not_lt hlt)
  omega

/-- A difference longer than that between the two floors does not notice the move. -/
theorem bitLength_difference_of_lt {m m' q : BitVec w}
    (h : bitLength (difference m' m) < bitLength (difference q m)) :
    bitLength (difference q m') = bitLength (difference q m) := by
  have key : ∀ n, bitLength (difference m' m) ≤ n →
      (bitLength (difference q m') ≤ n ↔ bitLength (difference q m) ≤ n) := by
    intro n hn
    rw [bitLength_difference_le_iff, bitLength_difference_le_iff,
      bitLength_difference_le_iff.mp hn]
  have h₁ := (key _ (Nat.le_of_lt h)).mpr (Nat.le_refl _)
  have h₂ : bitLength (difference m' m) < bitLength (difference q m') := by
    by_contra hn
    have := (key _ (Nat.le_refl _)).mp (by omega)
    omega
  have h₃ := (key _ (Nat.le_of_lt h₂)).mp (Nat.le_refl _)
  omega

/-- Above the old floor and at or above the new one, a difference as long as that between the
    floors gets shorter. -/
theorem bitLength_difference_lt {m m' q : BitVec w} (hm : m ≤ m') (hq : m' ≤ q)
    (hk : bitLength (difference m' m) ≠ 0)
    (h : bitLength (difference q m) = bitLength (difference m' m)) :
    bitLength (difference q m') < bitLength (difference m' m) := by
  obtain ⟨n, hn⟩ := Nat.exists_eq_add_one_of_ne_zero hk
  suffices q.toNat / 2 ^ n = m'.toNat / 2 ^ n by
    have := bitLength_difference_le_iff.mpr this
    omega
  -- All three agree above bit `n`; below that bit `m` leaves both others, upwards.
  have above : ∀ {x : BitVec w}, m ≤ x → bitLength (difference x m) = n + 1 →
      x.toNat / 2 ^ n / 2 = m.toNat / 2 ^ n / 2 ∧ m.toNat / 2 ^ n < x.toNat / 2 ^ n := by
    intro x hx hl
    have e : x.toNat / 2 ^ (n + 1) = m.toNat / 2 ^ (n + 1) :=
      bitLength_difference_le_iff.mp (Nat.le_of_eq hl)
    have hne : x.toNat / 2 ^ n ≠ m.toNat / 2 ^ n :=
      fun e => absurd (bitLength_difference_le_iff.mpr e) (by omega)
    have hle := Nat.div_le_div_right (c := 2 ^ n) (BitVec.le_def.mp hx)
    rw [Nat.pow_succ, ← Nat.div_div_eq_div_mul, ← Nat.div_div_eq_div_mul] at e
    exact ⟨e, by omega⟩
  have hm' := above hm hn
  have hq' := above (BitVec.le_trans hm hq) (h.trans hn)
  omega

/-! Words sorted by their difference to a floor. -/

/-- Above a floor `m` the lengths of the differences go by the order of the words. When the floor moves up to
    a word `m'` whose difference has some length, words with longer differences keep theirs, words with
    differences as long get shorter ones, and the new floor alone has none. -/
theorem Gauge.length_sorts (g : Gauge) :
    (∀ m p q : BitVec w, m ≤ p → m ≤ q →
      g.length (difference p m) < g.length (difference q m) → p < q) ∧
    ∀ m m' q : BitVec w, m ≤ m' → 1 ≤ g.length (difference m' m) → m' ≤ q →
      (g.length (difference m' m) < g.length (difference q m) →
        g.length (difference q m') = g.length (difference q m)) ∧
      (g.length (difference q m) = g.length (difference m' m) →
        g.length (difference q m') < g.length (difference m' m)) ∧
      (g.length (difference q m') = 0 ↔ q = m') := by
  simp only [Gauge.length_eq]
  constructor
  · intro m p q _ hq hlt
    exact lt_of_bitLength_difference_lt hq hlt
  · intro m m' q hm hk hq
    refine ⟨bitLength_difference_of_lt, ?_, bitLength_difference_eq_zero_iff⟩
    exact bitLength_difference_lt hm hq (Nat.one_le_iff_ne_zero.mp hk)

/-- The floor moves from 4 to 6, whose difference has length 2, as has that of 7; that of 9 is longer. -/
theorem Gauge.length_sorts_bytes :
    let b := fun x y : BitVec 8 => Gauge.leadingZeros.length (difference x y)
    (b 7 4 = 2 ∧ b 9 4 = 4 ∧ (7 : BitVec 8) < 9) ∧
    (b 6 4 = 2 ∧ b 9 6 = b 9 4 ∧ b 7 6 < b 6 4 ∧ (b 7 6 = 0 ↔ (7 : BitVec 8) = 6)) := by
  have hsorts := Gauge.length_sorts (w := 8) .leadingZeros
  have hseven := hsorts.2 4 6 7 (by decide) (by decide) (by decide)
  have hnine := hsorts.2 4 6 9 (by decide) (by decide) (by decide)
  refine ⟨⟨by decide, by decide, ?_⟩, by decide, hnine.1 (by decide), hseven.2.1 (by decide), hseven.2.2⟩
  exact hsorts.1 4 7 9 (by decide) (by decide) (by decide)

end MonotoneQueue

/- How many bits a word takes to write down. Two computations are kept: one counts the leading
   zeros of the word (`bitLength`), the other halves the word until nothing is left
   (`shiftLength`). A `Gauge` says which of the two a queue uses; `Bits/Length` proves that the
   choice makes no difference.

   Correspondence with `RadixKey`:
     `bitxor`, `shr_one`     ↔ `difference`, `half`
     `bit_length`            ↔ `bitLength`
     `bit_length_portable`   ↔ `shiftLength`
     `msb_set`               ↔ `Gauge.length`; `portable-bit-length` asks for `Gauge.shifts` -/
namespace MonotoneQueue

/-! Words: bit vectors of a fixed width, read as natural numbers. -/

/-- The bits in which two words differ. -/
def difference {w : Nat} (x y : BitVec w) : BitVec w := x ^^^ y

/-- A word without its lowest bit. -/
def half {w : Nat} (x : BitVec w) : BitVec w := x >>> 1

theorem toNat_half {w : Nat} (x : BitVec w) : (half x).toNat = x.toNat / 2 := by
  simp [half, Nat.shiftRight_eq_div_pow]

/-! The two computations of the length. -/

/-- The number of bits below the leading zeros of `x`: zero for zero, otherwise one more than the
    position of the highest set bit. -/
def bitLength {w : Nat} (x : BitVec w) : Nat := w - x.clz.toNat

/-- The number of times `x` can be halved before it is zero. -/
def shiftLength {w : Nat} (x : BitVec w) : Nat :=
  if x = 0#w then 0 else shiftLength (half x) + 1
termination_by x.toNat
decreasing_by
  rename_i h
  have : x.toNat ≠ 0 := fun e => h (BitVec.eq_of_toNat_eq (by simpa using e))
  rw [toNat_half]
  omega

/-! The choice between them. -/

/-- Which computation of the length is used. -/
inductive Gauge where
  | leadingZeros
  | shifts
  deriving DecidableEq, Repr

/-- The length of a word, computed as the gauge says. -/
def Gauge.length {w : Nat} (g : Gauge) (x : BitVec w) : Nat :=
  match g with
  | .leadingZeros => bitLength x
  | .shifts => shiftLength x

end MonotoneQueue

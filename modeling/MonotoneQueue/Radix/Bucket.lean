import MonotoneQueue.Arena.Issued
import MonotoneQueue.Bits
import MonotoneQueue.Radix.Node

/- A monotone queue over words of `w` bits as it is laid out. An element lies in the bucket whose
   number is the length of the difference between its priority and the floor: bucket 0 holds the
   floor itself, and a lower bucket holds lower priorities, since the highest bit in which two
   words at or above the floor leave it decides between them.

   The elements of a bucket form a list, of which the queue knows the first. The buckets above 0
   that hold elements have a bit set in a mask, the lowest bucket the highest bit, so the length of
   the mask finds the lowest occupied one.

   Correspondence:
     `RadixHeap`, its fields   ↔ `Radix`; `buckets` are the `heads`, `minimum` is the `floor`
     `bucket_index`            ↔ `bucketOf`
     `mask_bit`                ↔ `maskBit`
     `lowest_occupied_bucket`  ↔ `lowestOccupied` -/
namespace MonotoneQueue

/-- A monotone priority queue. Its elements are kept in an arena unless another storage is named. -/
structure Radix (w : Nat) (α : Type) (S : Type → Type := Arena) where
  /-- How bucket numbers are computed. -/
  gauge : Gauge
  nodes : S (Radix.Node w α)
  /-- The first element of every bucket. -/
  heads : Vector (Option Key) (w + 1)
  /-- Bit `w - i` is set when bucket `i` above 0 holds elements. Words have at most 128 bits. -/
  mask : BitVec 128
  /-- The priority last taken out, or zero. -/
  floor : BitVec w

namespace Radix

variable {w : Nat} {α : Type} {S : Type → Type}

/-- The bucket of a priority: zero for the floor itself, otherwise the length of the difference. -/
def bucketOf (q : Radix w α S) (p : BitVec w) : Result (Fin (w + 1)) :=
  let i := q.gauge.length (difference p q.floor)
  if h : i < w + 1 then .ok ⟨i, h⟩ else .error (.defect (.bucketRange i))

/-- The bit of a bucket above 0 in the mask. -/
def maskBit (i : Fin (w + 1)) : Result (BitVec 128) :=
  if 1 ≤ i.val ∧ w - i.val < 128 then .ok (1#128 <<< (w - i.val))
  else .error (.defect (.maskRange i.val))

/-- The lowest bucket above 0 that holds elements, as the mask tells. -/
def lowestOccupied (q : Radix w α S) : Result (Option (Fin (w + 1))) :=
  if q.mask = 0#128 then .ok none
  else
    let n := q.gauge.length q.mask
    if h : 0 < n ∧ n ≤ w + 1 then .ok (some ⟨w + 1 - n, by omega⟩)
    else .error (.defect (.maskRange n))

/-- The first element of a bucket that the mask calls occupied. -/
def headOf (q : Radix w α S) (i : Fin (w + 1)) : Result Key :=
  match q.heads.get i with
  | some k => .ok k
  | none => .error (.defect (.emptyBucket i.val))

end Radix
end MonotoneQueue

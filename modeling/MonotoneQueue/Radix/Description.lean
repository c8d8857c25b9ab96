import MonotoneQueue.Radix
import MonotoneQueue.PriorityQueue.Op

/- The description of a monotone queue: the number of its elements, its floor, and the numbers of
   the buckets that hold elements, bucket 0 included, in ascending order. `layout` is what the `Debug` of
   `RadixHeap` writes. -/
namespace MonotoneQueue.Radix

open Text

variable {w : Nat} {α : Type} {S : Type → Type} [Storage S]

/-- The buckets that hold elements, in ascending order. -/
def occupied (q : Radix w α S) : List Nat :=
  (List.finRange (w + 1)).filterMap fun i => if (q.heads.get i).isSome then some i.val else none

def layout (q : Radix w α S) : Layout :=
  .record "RadixHeap"
    [.field "len" (.number q.size),
     .field "minimum" (.atom (shown q.floor)),
     .field "occupied_buckets" (.list (q.occupied.map .number))]

def describe (style : Style) (q : Radix w α S) : String := q.layout.render style

instance : Described (Radix w α S) := ⟨fun style q => some (q.describe style)⟩

end MonotoneQueue.Radix

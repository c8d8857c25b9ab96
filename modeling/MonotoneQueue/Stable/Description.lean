import MonotoneQueue.Stable
import MonotoneQueue.PriorityQueue.Op

/- The description of a stable queue with at most two elements: its entries, the next to come out
   first, and the number of pushes so far. The order in which a larger heap stores its entries is
   its own affair, so it has no description. `layout` is what the `Debug` of `SimpleBinaryHeap` writes. -/
namespace MonotoneQueue.Stable

open Text

variable {κ α : Type} [Shown κ] [Shown α]

def Entry.layout (e : Entry κ α) : Layout :=
  .wrapped "Reverse" (.record "Entry"
    [.field "priority" (.atom (shown e.priority)),
     .field "seq" (.number e.seq),
     .field "item" (.atom (shown e.value))])

def layout (q : Stable κ α) : Layout :=
  .record "SimpleBinaryHeap"
    [.field "data" (.list (q.tree.toList.map Entry.layout)),
     .field "next_seq" (.number q.nextSeq)]

def describe? (style : Style) (q : Stable κ α) : Option String :=
  if q.size ≤ 2 then some (q.layout.render style) else none

instance : Described (Stable κ α) := ⟨describe?⟩

end MonotoneQueue.Stable

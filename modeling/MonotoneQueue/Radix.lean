import MonotoneQueue.PriorityQueue
import MonotoneQueue.Radix.Bucket

/- A monotone priority queue over words. Its floor is the priority last taken out, and nothing may
   be pushed below it. The least element is in bucket 0, if that holds any, and otherwise in the
   lowest occupied bucket. Taking it out moves the floor up to it, and then only the other elements
   of its bucket change place: all of them to lower buckets. New elements come in at the head of
   the list of their bucket.

   A push below the floor and a pop with nothing left are found out before anything is changed, so a
   failure leaves no other queue than the one before it. What could fail after a change is a defect.

   Correspondence:
     `with_capacity`, `new`    ↔ `emptyWithCapacity`, `empty`
     `contains`, `get`         ↔ `contains`, `get?`
     `try_push`, `push`        ↔ `insert`, `push`
     `link`                    ↔ `link`
     `extract_min`, `pop`      ↔ `extract`, `pop`
     `pop_exact`               ↔ `popFloor`
     `pop_redistribute`        ↔ `popBucket`: `detach` up to its loop, and the loop is `relink`
     `peek`                    ↔ `peek`, by way of `nextOut` -/
namespace MonotoneQueue.Radix

variable {w : Nat} {α : Type} {S : Type → Type} [Storage S]

/-- Nothing stored, with room for `n` elements. -/
def emptyWithCapacity (n : Nat) (gauge : Gauge := .leadingZeros) : Radix w α S where
  gauge := gauge
  nodes := Storage.emptyWithCapacity n
  heads := .replicate (w + 1) none
  mask := 0#128
  floor := 0#w

def empty (gauge : Gauge := .leadingZeros) : Radix w α S := emptyWithCapacity 0 gauge

def size (q : Radix w α S) : Nat := Storage.size q.nodes

/-- The element that a key names is still in the queue. -/
def contains (q : Radix w α S) (k : Key) : Bool := (Storage.get? q.nodes k).isSome

/-- The element that a key names, if it is still in the queue. -/
def get? (q : Radix w α S) (k : Key) : Option (BitVec w × α) :=
  (Storage.get? q.nodes k).map fun n => (n.priority, n.value)

/-- Drops every element and starts again from floor zero. Keys issued before stay stale. -/
def clear (q : Radix w α S) : Radix w α S where
  gauge := q.gauge
  nodes := Storage.clear q.nodes
  heads := .replicate (w + 1) none
  mask := 0#128
  floor := 0#w

/-! Pushing. -/

/-- Puts a stored element at the head of its bucket. -/
def link (q : Radix w α S) (k : Key) : Result (Radix w α S) := do
  let node ← fetch q.nodes k
  let i ← q.bucketOf node.priority
  let head := q.heads.get i
  let nodes ← update q.nodes k fun n => { n with prev := none, next := head }
  let nodes ← updateLink nodes head fun n => { n with prev := some k }
  let mask ← if i.val = 0 then .ok q.mask else (q.mask ||| ·) <$> maskBit i
  .ok { q with nodes, heads := q.heads.setIfInBounds i.val (some k), mask }

/-- Pushes an element at or above the floor and gives the key that names it. The floor is tested
    before anything is stored. -/
def insert (q : Radix w α S) (p : BitVec w) (v : α) : Result (Key × Radix w α S) :=
  if p < q.floor then .error .belowFloor
  else do
    let k := Storage.nextKey q.nodes
    let q ← link { q with nodes := Storage.insert q.nodes ⟨v, p, none, none⟩ } k
    .ok (k, q)

def push (q : Radix w α S) (p : BitVec w) (v : α) : Result (Radix w α S) :=
  (·.2) <$> q.insert p v

/-! Popping. -/

/-- An element taken out, with the keys of the elements that were linked again, in order. -/
structure Extracted (w : Nat) (α : Type) (S : Type → Type := Arena) where
  popped : Popped (Radix w α S) (BitVec w) α
  moved : List Key

/-- Takes out the head of bucket 0, whose priority is the floor. -/
def popFloor (q : Radix w α S) (k : Key) : Result (Extracted w α S) := do
  let (node, nodes) ← take q.nodes k
  let nodes ← updateLink nodes node.next fun n => { n with prev := none }
  .ok ⟨⟨node.priority, node.value, { q with nodes, heads := q.heads.set 0 node.next }, none⟩, []⟩

/-- A bucket taken out of the queue: its first least element, where the list of the other ones
    starts, and the queue without any of them, whose floor is the priority of the least. -/
structure Detached (w : Nat) (α : Type) (S : Type → Type := Arena) where
  least : Node w α
  others : Option Key
  rest : Radix w α S

/-- Takes bucket `i` out of the queue. The elements other than the least stay stored. -/
def detach (q : Radix w α S) (i : Fin (w + 1)) : Result (Detached w α S) := do
  let bit ← maskBit i
  let head ← q.headOf i
  let k ← leastFrom q.nodes head
  let (least, nodes) ← take q.nodes k
  let nodes ← updateLink nodes least.prev fun n => { n with next := least.next }
  let nodes ← updateLink nodes least.next fun n => { n with prev := least.prev }
  let others := if least.prev.isNone then least.next else some head
  let heads := q.heads.setIfInBounds i.val none
  let mask := q.mask &&& ~~~bit
  .ok ⟨least, others, { q with nodes, heads, mask, floor := least.priority }⟩

/-- Links the elements from a key on along the successors, at most `n` of them. Which one comes next
    is read before an element is linked, as linking changes it. Gives the keys in order. -/
def relink : Nat → Option Key → Radix w α S → Result (List Key × Radix w α S)
  | _, none, q => .ok ([], q)
  | 0, some _, _ => .error (.defect .endlessList)
  | n + 1, some k, q => do
    let node ← fetch q.nodes k
    let q ← q.link k
    let (ks, q) ← relink n node.next q
    .ok (k :: ks, q)

/-- Empties bucket `i`: takes out its first least element and links the other ones, in list order,
    into the buckets to which they belong under the new floor. -/
def popBucket (q : Radix w α S) (i : Fin (w + 1)) : Result (Extracted w α S) := do
  let d ← q.detach i
  let (moved, rest) ← relink d.rest.size d.others d.rest
  .ok ⟨⟨d.least.priority, d.least.value, rest,
    some ⟨i.val, d.least.priority, moved.length⟩⟩, moved⟩

/-- Takes out an element of least priority: the head of bucket 0, or else the first least element
    of the lowest occupied bucket. -/
def extract (q : Radix w α S) : Result (Option (Extracted w α S)) :=
  match q.heads[0] with
  | some k => some <$> q.popFloor k
  | none => do
    match ← q.lowestOccupied with
    | some i => some <$> q.popBucket i
    | none => .ok none

def pop (q : Radix w α S) : Result (Option (Popped (Radix w α S) (BitVec w) α)) :=
  Option.map Extracted.popped <$> q.extract

/-- The key of the element that `pop` would take out. -/
def nextOut (q : Radix w α S) : Result (Option Key) :=
  match q.heads[0] with
  | some k => .ok (some k)
  | none => do
    match ← q.lowestOccupied with
    | some i => do
      let head ← q.headOf i
      some <$> leastFrom q.nodes head
    | none => .ok none

/-- The element that `pop` would take out. -/
def peek (q : Radix w α S) : Result (Option (BitVec w × α)) := do
  match ← q.nextOut with
  | some k => do
    let node ← fetch q.nodes k
    .ok (some (node.priority, node.value))
  | none => .ok none

instance : PriorityQueue (Radix w α S) (BitVec w) α where
  empty := empty
  size := size
  push := push
  peek := peek
  pop := pop

end MonotoneQueue.Radix

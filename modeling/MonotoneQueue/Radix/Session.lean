import MonotoneQueue.Radix.Description

/- A monotone queue in use: the queue together with the handles that it has issued. A handle is
   known by the number of handles issued before it; clearing the queue does not start the numbers
   again. An operation that fails leaves the session as it was: a queue fails before it changes anything,
   unless there is a defect.

   Correspondence:
     `push_with_handle`   ↔ `pushHandle`
     `try_push`           ↔ `tryPush`
     `try_pop`            ↔ `tryPop`
     `minimum`            ↔ `floor`
     `contains`, `get`    ↔ `contains`, `get`
     `RadixHandle`, `eq`  ↔ the number of a handle, `same`
     `clear`              ↔ `clear` -/
namespace MonotoneQueue.Radix

variable {w : Nat} {α : Type} {S : Type → Type}

/-- An operation on a monotone queue. -/
inductive Op (w : Nat) (α : Type) where
  | queue (op : PriorityQueue.Op (BitVec w) α)
  /-- Pushes and issues a handle; breaks off below the floor. -/
  | pushHandle (p : BitVec w) (v : α)
  /-- Pushes and issues a handle; refuses below the floor. -/
  | tryPush (p : BitVec w) (v : α)
  /-- Pops; refuses when nothing is left. -/
  | tryPop
  | floor
  | contains (handle : Nat)
  | get (handle : Nat)
  /-- Whether two handles name the same element. -/
  | same (handle₁ handle₂ : Nat)
  | clear

/-- A queue with the keys behind the handles it has issued. -/
structure Session (w : Nat) (α : Type) (S : Type → Type := Arena) where
  heap : Radix w α S
  issued : Array Key

namespace Session

/-- A queue that has not issued any handles yet. -/
def ofHeap (heap : Radix w α S) : Session w α S := ⟨heap, #[]⟩

/-- The session after a push has issued a handle. -/
def issue (s : Session w α S) (k : Key) (heap : Radix w α S) : Session w α S :=
  ⟨heap, s.issued.push k⟩

variable [Storage S]

/-- Pushes and issues a handle, or else answers what `refuse` says. -/
def pushFor (s : Session w α S) (p : BitVec w) (v : α) (refuse : Failure → Reply (BitVec w) α) :
    Answer (Session w α S) (BitVec w) α :=
  match s.heap.insert p v with
  | .ok (k, heap) => ⟨.handle s.issued.size, s.issue k heap, []⟩
  | .error f => ⟨refuse f, s, []⟩

/-- A push below the floor is handed to the caller; anything else breaks off. -/
def refusal : Failure → Reply (BitVec w) α
  | .belowFloor => .rejected .belowFloor
  | f => .aborted f

/-- Carries out an operation. -/
def run (s : Session w α S) : Op w α → Answer (Session w α S) (BitVec w) α
  | .queue op =>
    let a := op.run s.heap
    ⟨a.reply, { s with heap := a.state }, a.notices⟩
  | .pushHandle p v => s.pushFor p v .aborted
  | .tryPush p v => s.pushFor p v refusal
  | .tryPop =>
    match s.heap.pop with
    | .ok (some top) => ⟨.item (some top.item), { s with heap := top.rest }, top.notice.toList⟩
    | .ok none => ⟨.rejected .empty, s, []⟩
    | .error f => ⟨.aborted f, s, []⟩
  | .floor => ⟨.priority s.heap.floor, s, []⟩
  | .contains n =>
    match s.issued[n]? with
    | some k => ⟨.flag (s.heap.contains k), s, []⟩
    | none => ⟨.unknownHandle n, s, []⟩
  | .get n =>
    match s.issued[n]? with
    | some k => ⟨.item (s.heap.get? k), s, []⟩
    | none => ⟨.unknownHandle n, s, []⟩
  | .same m n =>
    match s.issued[m]?, s.issued[n]? with
    | some k, some l => ⟨.flag (k = l), s, []⟩
    | none, _ => ⟨.unknownHandle m, s, []⟩
    | _, none => ⟨.unknownHandle n, s, []⟩
  | .clear => ⟨.done, { s with heap := s.heap.clear }, []⟩

end Session
end MonotoneQueue.Radix

/- Why an operation gives no answer. A `Failure` is a cause that a caller can bring about: a queue
   with nothing in it, a priority below the floor, a cost too large for its type. A `Defect` is a
   state that the data structures are meant never to reach; each place that relies on such a fact
   tests it and reports the defect, so "it never happens" is a statement about results.

   Correspondence:
     `HeapError::Empty`, `HeapError::MonotonicityViolation`   ↔ `Failure.empty`, `Failure.belowFloor`
     their messages, and what a panic says                    ↔ `Failure.message`, `Failure.report`
     a panic of `add`                                         ↔ `Failure.costOverflow`
     an index out of range, a stale key, an exit by `?`       ↔ `Defect` -/
namespace MonotoneQueue

/-- An internal inconsistency. -/
inductive Defect where
  /-- A link or a bucket names an element that is not stored. -/
  | staleKey
  /-- A bucket list is longer than the number of stored elements. -/
  | endlessList
  /-- A word needs a bucket that the queue does not have. -/
  | bucketRange (index : Nat)
  /-- A bucket has no bit in the occupancy mask. -/
  | maskRange (index : Nat)
  /-- The occupancy mask names a bucket that is empty. -/
  | emptyBucket (index : Nat)
  /-- A queue entry or a parent names a position that no discovered node has. -/
  | unknownNode (position : Nat)
  /-- A chain of parents is longer than the number of discovered nodes. -/
  | endlessRoute
  /-- A search takes more steps than its graph allows. -/
  | stepBound
  deriving DecidableEq, Repr

/-- A cause for an operation to give no answer. -/
inductive Failure where
  /-- The queue holds no elements. -/
  | empty
  /-- The priority is below the floor of a monotone queue. -/
  | belowFloor
  /-- The sum of two costs does not fit their type. -/
  | costOverflow
  | defect (cause : Defect)
  deriving DecidableEq, Repr

/-- An answer or the cause for which there is none. -/
abbrev Result (α : Type) := Except Failure α

/-- What is said about a failure that is handed to the caller. -/
def Failure.message : Failure → String
  | .empty => "heap is empty"
  | .belowFloor => "priority is below the last extracted minimum (monotone violation)"
  | .costOverflow => "attempt to add with overflow"
  | .defect _ => "internal inconsistency"

/-- What is said about a failure that aborts the operation. -/
def Failure.report : Failure → String
  | .belowFloor => "RadixHeap: " ++ Failure.belowFloor.message
  | f => f.message

end MonotoneQueue

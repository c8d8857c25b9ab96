import Std.Data.TreeMap
import MonotoneQueue.Cost

/- The nodes that a search has discovered, in the order of discovery. Every entry holds the least
   cost found so far for its node and the entry from which that cost was found. An entry is closed
   once its node is expanded, and keeps cost and parent from then on.

   Correspondence:
     `NodeEntry`                                ↔ `Discovery`
     `PathFinder`: `nodes`, `state_to_index`    ↔ `Table`: `entries`, `index`
     `get_or_create_index` for the start        ↔ `Table.start`
     `relax`, with its `get_or_create_index`    ↔ `Table.relax`
     the test of `closed` and its setting       ↔ `Table.close`
     `reconstruct_path`                         ↔ `Table.pathTo` -/
namespace MonotoneQueue.Search

/-- A discovered node. -/
structure Discovery (κ : Type) where
  /-- The first of the equal nodes that was met. -/
  node : Nat
  cost : κ
  /-- The position of the entry from which the cost was found; none for the start. -/
  parent : Option Nat
  closed : Bool
  deriving Repr

/-- The discovered nodes and the position of each key among them. -/
structure Table (κ : Type) where
  entries : Array (Discovery κ)
  index : Std.TreeMap Nat Nat

namespace Table

variable {κ : Type}

/-- A table that holds the start of a search. -/
def start (key node : Nat) (zero : κ) : Table κ where
  entries := #[⟨node, zero, none, false⟩]
  index := (∅ : Std.TreeMap Nat Nat).insert key 0

/-- The number of nodes discovered. -/
def size (t : Table κ) : Nat := t.entries.size

/-- The entry at a position. -/
def entry (t : Table κ) (i : Nat) : Result (Discovery κ) :=
  match t.entries[i]? with
  | some e => .ok e
  | none => .error (.defect (.unknownNode i))

/-- Records a way to a node. Gives the position of its entry if the node is new or not closed and
    this way is cheaper than those before. -/
def relax [LE κ] [DecidableLE κ] (t : Table κ) (key node parent : Nat) (cost : κ) :
    Result (Table κ × Option Nat) :=
  match t.index[key]? with
  | none =>
    let i := t.entries.size
    .ok ({ entries := t.entries.push ⟨node, cost, some parent, false⟩
           index := t.index.insert key i }, some i)
  | some i => do
    let e ← t.entry i
    if e.closed ∨ e.cost ≤ cost then .ok (t, none)
    else
      let e := { e with cost, parent := some parent }
      .ok ({ t with entries := t.entries.setIfInBounds i e }, some i)

/-- Closes the entry at a position and gives it, unless it was closed before. -/
def close (t : Table κ) (i : Nat) : Result (Option (Discovery κ × Table κ)) := do
  let e ← t.entry i
  if e.closed then .ok none
  else
    let e := { e with closed := true }
    .ok (some (e, { t with entries := t.entries.setIfInBounds i e }))

/-- The nodes from the start to the entry at a position, followed by `after`; at most `n` of
    them. -/
def ancestors (t : Table κ) : Nat → Nat → List Nat → Result (List Nat)
  | 0, _, _ => .error (.defect .endlessRoute)
  | n + 1, i, after => do
    let e ← t.entry i
    match e.parent with
    | none => .ok (e.node :: after)
    | some p => t.ancestors n p (e.node :: after)

/-- The nodes from the start to the entry at a position. -/
def pathTo (t : Table κ) (i : Nat) : Result (List Nat) := t.ancestors t.size i []

end Table
end MonotoneQueue.Search

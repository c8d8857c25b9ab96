import Mathlib
import MonotoneQueue.Proofs.Result
import MonotoneQueue.Radix.Session

/- What an operation does to a session, said once for all that is proved about operations. There are few
   kinds: pushes, which may issue a handle and may be refused, pops, which may find nothing, looks, and the
   clear. `Session.Acts` has a case for each of them with what the operation answers and leaves. Every
   operation is of one of the kinds (`Session.run_acts`), and its kind tells all that it does
   (`Session.Acts.run_eq`). Nothing is asked of the session, so a pop or a drain may also break off.

   In the same way `Extracts` says where a pop takes its element from. -/
namespace MonotoneQueue

/-- An operation that only looks. -/
def PriorityQueue.Op.looks {κ α : Type} : PriorityQueue.Op κ α → Bool
  | .peek => true
  | .size => true
  | .isEmpty => true
  | .describe _ => true
  | _ => false

namespace Radix

variable {w : Nat} {α : Type} {S : Type → Type} [Storage S]

/-! Pops. -/

/-- Where a pop takes an element from, if it finds one. -/
inductive Extracts (q : Radix w α S) : Option (Extracted w α S) → Prop
  | floor {k : Key} {e : Extracted w α S} (hhead : q.heads.get 0 = some k) (hq : q.popFloor k = .ok e) :
    Extracts q (some e)
  | bucket {i : Fin (w + 1)} {e : Extracted w α S} (hhead : q.heads.get 0 = none)
    (hlow : q.lowestOccupied = .ok (some i)) (hq : q.popBucket i = .ok e) : Extracts q (some e)
  | nothing (hhead : q.heads.get 0 = none) (hlow : q.lowestOccupied = .ok none) : Extracts q none

theorem Extracts.extract_eq {q : Radix w α S} {found : Option (Extracted w α S)} (h : q.Extracts found) :
    q.extract = .ok found := by
  have hread : q.heads[0] = q.heads.get 0 := rfl
  cases h with
  | floor hhead hq => simp only [extract, hread, hhead, hq, Result.map_ok]
  | bucket hhead hlow hq => simp only [extract, hread, hhead, hlow, hq, Result.ok_bind, Result.map_ok]
  | nothing hhead hlow => simp only [extract, hread, hhead, hlow, Result.ok_bind]

theorem Extracts.pop_eq {q : Radix w α S} {found : Option (Extracted w α S)} (h : q.Extracts found) :
    q.pop = .ok (found.map Extracted.popped) := by
  rw [pop, h.extract_eq, Result.map_ok]

theorem exists_extracts {q : Radix w α S} {found : Option (Popped (Radix w α S) (BitVec w) α)}
    (h : q.pop = .ok found) : ∃ e, q.Extracts e ∧ e.map Extracted.popped = found := by
  obtain ⟨e, he, hfound⟩ := Result.map_eq_ok.mp h
  refine ⟨e, ?_, hfound⟩
  rw [extract] at he
  split at he
  · next k hhead =>
    obtain ⟨x, hq, rfl⟩ := Result.map_eq_ok.mp he
    exact .floor hhead hq
  · next hhead =>
    obtain ⟨i, hlow, he⟩ := Result.bind_eq_ok.mp he
    cases i with
    | none =>
      obtain rfl := Except.ok.inj he
      exact .nothing hhead hlow
    | some i =>
      obtain ⟨x, hq, rfl⟩ := Result.map_eq_ok.mp he
      exact .bucket hhead hlow hq

/-! Operations. -/

namespace Op

/-- An operation that only looks. -/
def looks : Op w α → Bool
  | .queue op => op.looks
  | .floor => true
  | .contains _ => true
  | .get _ => true
  | .same _ _ => true
  | _ => false

/-- The operation is one push, and this is what it makes of a failure. -/
inductive Pushes : Op w α → BitVec w → α → (Failure → Reply (BitVec w) α) → Prop
  | push (p : BitVec w) (v : α) : Pushes (.queue (.push p v)) p v .aborted
  | pushHandle (p : BitVec w) (v : α) : Pushes (.pushHandle p v) p v .aborted
  | tryPush (p : BitVec w) (v : α) : Pushes (.tryPush p v) p v Session.refusal

/-- The operation is one push that issues a handle. -/
inductive Issues : Op w α → BitVec w → α → Prop
  | pushHandle (p : BitVec w) (v : α) : Issues (.pushHandle p v) p v
  | tryPush (p : BitVec w) (v : α) : Issues (.tryPush p v) p v

/-- The operation is one pop, and this is what it answers if it finds nothing. -/
inductive Pops : Op w α → Reply (BitVec w) α → Prop
  | pop : Pops (.queue .pop) (.item none)
  | tryPop : Pops .tryPop (.rejected .empty)

theorem exists_pops {op : Op w α} (h : op = .queue .pop ∨ op = .tryPop) : ∃ reply, op.Pops reply := by
  obtain rfl | rfl := h
  · exact ⟨_, .pop⟩
  · exact ⟨_, .tryPop⟩

/-- The operation takes something out, and that goes wrong. -/
inductive Breaks (q : Radix w α S) (f : Failure) : Op w α → Prop
  | pop {op : Op w α} {reply : Reply (BitVec w) α} (hop : op.Pops reply) (hq : q.pop = .error f) :
    Breaks q f op
  | drain (hq : PriorityQueue.drain q = .error f) : Breaks q f (.queue .drain)

end Op

namespace Session

/-- What an operation answers, leaves and tells, by its kind. -/
inductive Acts (s : Session w α S) : Op w α → Answer (Session w α S) (BitVec w) α → Prop
  | push {p : BitVec w} {v : α} {k : Key} {heap : Radix w α S} (hq : s.heap.insert p v = .ok (k, heap)) :
    Acts s (.queue (.push p v)) ⟨.done, { s with heap }, []⟩
  | issue {op : Op w α} {p : BitVec w} {v : α} {k : Key} {heap : Radix w α S} (hop : op.Issues p v)
    (hq : s.heap.insert p v = .ok (k, heap)) : Acts s op ⟨.handle s.issued.size, s.issue k heap, []⟩
  | refuse {op : Op w α} {p : BitVec w} {v : α} {refusal : Failure → Reply (BitVec w) α} {f : Failure}
    (hop : op.Pushes p v refusal) (hq : s.heap.insert p v = .error f) : Acts s op ⟨refusal f, s, []⟩
  | pushAll {items : List (BitVec w × α)} {heap : Radix w α S} {f : Option Failure}
    (hq : PriorityQueue.pushAll s.heap items = (heap, f)) :
    Acts s (.queue (.pushAll items)) ⟨f.elim .done .aborted, { s with heap }, []⟩
  | pop {op : Op w α} {reply : Reply (BitVec w) α} {top : Popped (Radix w α S) (BitVec w) α}
    (hop : op.Pops reply) (hq : s.heap.pop = .ok (some top)) :
    Acts s op ⟨.item (some top.item), { s with heap := top.rest }, top.notice.toList⟩
  | nothing {op : Op w α} {reply : Reply (BitVec w) α} (hop : op.Pops reply) (hq : s.heap.pop = .ok none) :
    Acts s op ⟨reply, s, []⟩
  | drain {d : PriorityQueue.Drained (Radix w α S) (BitVec w) α} (hq : PriorityQueue.drain s.heap = .ok d) :
    Acts s (.queue .drain) ⟨.items d.items, { s with heap := d.rest }, d.notices⟩
  | look {op : Op w α} (hop : op.looks = true) : Acts s op ⟨(s.run op).reply, s, []⟩
  | clear : Acts s .clear ⟨.done, { s with heap := s.heap.clear }, []⟩
  | breakOff {op : Op w α} {f : Failure} (hop : op.Breaks s.heap f) : Acts s op ⟨.aborted f, s, []⟩

theorem run_of_looks (s : Session w α S) {op : Op w α} (h : op.looks = true) :
    s.run op = ⟨(s.run op).reply, s, []⟩ := by
  cases op with
  | queue op =>
    cases op with
    | peek =>
      simp only [run, PriorityQueue.Op.run]
      split <;> rfl
    | size | isEmpty | describe => rfl
    | push | pushAll | pop | drain => cases h
  | floor => rfl
  | contains | get | same =>
    simp only [run]
    split <;> rfl
  | pushHandle | tryPush | tryPop | clear => cases h

theorem exists_acts (s : Session w α S) (op : Op w α) : ∃ a, s.Acts op a := by
  have hpush : ∀ {op : Op w α} {p v refusal}, op.Pushes p v refusal →
      (∀ {k heap}, s.heap.insert p v = .ok (k, heap) → ∃ a, s.Acts op a) → ∃ a, s.Acts op a := by
    intro op p v refusal hop hok
    cases hq : s.heap.insert p v with
    | error f => exact ⟨_, .refuse hop hq⟩
    | ok r => exact hok hq
  have hpop : ∀ {op : Op w α} {reply}, op.Pops reply → ∃ a, s.Acts op a := by
    intro op reply hop
    rcases hq : s.heap.pop with f | (_ | top)
    · exact ⟨_, .breakOff (.pop hop hq)⟩
    · exact ⟨_, .nothing hop hq⟩
    · exact ⟨_, .pop hop hq⟩
  cases op with
  | queue op =>
    cases op with
    | push p v => exact hpush (.push p v) fun hq => ⟨_, .push hq⟩
    | pushAll items => exact ⟨_, .pushAll rfl⟩
    | pop => exact hpop .pop
    | drain =>
      cases hq : PriorityQueue.drain s.heap with
      | error f => exact ⟨_, .breakOff (.drain hq)⟩
      | ok d => exact ⟨_, .drain hq⟩
    | peek | size | isEmpty | describe => exact ⟨_, .look rfl⟩
  | pushHandle p v => exact hpush (.pushHandle p v) fun hq => ⟨_, .issue (.pushHandle p v) hq⟩
  | tryPush p v => exact hpush (.tryPush p v) fun hq => ⟨_, .issue (.tryPush p v) hq⟩
  | tryPop => exact hpop .tryPop
  | floor | contains | get | same => exact ⟨_, .look rfl⟩
  | clear => exact ⟨_, .clear⟩

/-- The kind of an operation tells what it does. -/
theorem Acts.run_eq {s : Session w α S} {op : Op w α} {a : Answer (Session w α S) (BitVec w) α}
    (h : s.Acts op a) : s.run op = a := by
  have hpush : ∀ p v, PriorityQueue.push s.heap p v = (·.2) <$> s.heap.insert p v := fun _ _ => rfl
  have hpop : PriorityQueue.pop s.heap = s.heap.pop := rfl
  cases h with
  | push hq => simp only [run, PriorityQueue.Op.run, hpush, hq, Result.map_ok]
  | issue hop hq => cases hop <;> simp only [run, pushFor, hq]
  | refuse hop hq =>
    cases hop with
    | push => simp only [run, PriorityQueue.Op.run, hpush, hq, Result.map_error]
    | pushHandle | tryPush => simp only [run, pushFor, hq]
  | @pushAll items heap f hq => cases f <;> simp only [run, PriorityQueue.Op.run, hq, Option.elim]
  | pop hop hq => cases hop <;> simp only [run, PriorityQueue.Op.run, hpop, hq]
  | nothing hop hq => cases hop <;> simp only [run, PriorityQueue.Op.run, hpop, hq]
  | drain hq => simp only [run, PriorityQueue.Op.run, hq]
  | look hop => exact s.run_of_looks hop
  | clear => rfl
  | breakOff hop =>
    cases hop with
    | pop hop hq => cases hop <;> simp only [run, PriorityQueue.Op.run, hpop, hq]
    | drain hq => simp only [run, PriorityQueue.Op.run, hq]

/-- Every operation is of one of the kinds. -/
theorem run_acts (s : Session w α S) (op : Op w α) : s.Acts op (s.run op) := by
  obtain ⟨a, h⟩ := s.exists_acts op
  rw [h.run_eq]
  exact h

end Session
end Radix
end MonotoneQueue

import Mathlib
import MonotoneQueue.Proofs.Radix.Relinked

/- A run of a monotone queue, broken up into its pushes, pops and clears (`Passes`). An element is charged, when
   it is pushed, with the number of its bucket. A pop tells how many elements it links again, and these are
   followed by their keys. A drain is as many pops as there are elements, and what pushes several elements is
   one push after the other, so every operation passes from the queue before it to the one after it
   (`Session.run_passes`), and with it every run. -/
namespace MonotoneQueue.Radix

variable {w : Nat} {α : Type} {S : Type → Type} [Storage S]

/-- The keys that at most `n` pops link again. -/
def relinkedIn : Nat → Radix w α S → List Key
  | 0, _ => []
  | n + 1, q => q.relinked ++
    match q.pop with
    | .ok (some top) => relinkedIn n top.rest
    | _ => []

/-- The keys that an operation links again. -/
def Op.relinked (q : Radix w α S) : Op w α → List Key
  | .queue .pop => q.relinked
  | .queue .drain => q.relinkedIn q.size
  | .tryPop => q.relinked
  | _ => []

/-- What the elements are charged that are pushed in order, up to the first that is refused: the length of the
    difference between priority and floor. -/
def charges (q : Radix w α S) : List (BitVec w × α) → List Nat
  | [] => []
  | (p, v) :: rest =>
    match q.insert p v with
    | .ok (_, q') => bitLength (difference p q.floor) :: charges q' rest
    | .error _ => []

namespace Session

/-- The keys that operations carried out one after the other link again, as often as they do. -/
def relinked (s : Session w α S) : List (Op w α) → List Key
  | [] => []
  | op :: rest => op.relinked s.heap ++ (s.run op).state.relinked rest

/-- What the elements are charged that operations carried out one after the other push. -/
def charges (s : Session w α S) : List (Op w α) → List Nat
  | [] => []
  | op :: rest => s.heap.charges op.brings ++ (s.run op).state.charges rest

/-- What operations carried out one after the other tell of buckets that they emptied. -/
def notices (s : Session w α S) (ops : List (Op w α)) : List (Notice (BitVec w)) :=
  (replay run s ops).flatMap Answer.notices

end Session

/-- A queue becomes another by pushes, pops and clears: what the pushed elements are charged, what the pops
    tell, and which keys they link again. -/
inductive Passes : Radix w α S → List Nat → List (Notice (BitVec w)) → List Key → Radix w α S → Prop
  | stay (q : Radix w α S) : Passes q [] [] [] q
  | push {q q₁ q' : Radix w α S} {p : BitVec w} {v : α} {k : Key} {cs : List Nat}
      {ns : List (Notice (BitVec w))} {ks : List Key} (h : q.insert p v = .ok (k, q₁))
      (rest : Passes q₁ cs ns ks q') : Passes q (bitLength (difference p q.floor) :: cs) ns ks q'
  | pop {q q' : Radix w α S} {top : Popped (Radix w α S) (BitVec w) α} {cs : List Nat}
      {ns : List (Notice (BitVec w))} {ks : List Key} (h : q.pop = .ok (some top))
      (rest : Passes top.rest cs ns ks q') : Passes q cs (top.notice.toList ++ ns) (q.relinked ++ ks) q'
  | clear {q q' : Radix w α S} {cs : List Nat} {ns : List (Notice (BitVec w))} {ks : List Key}
      (rest : Passes q.clear cs ns ks q') : Passes q cs ns ks q'

namespace Passes

variable {q q₁ q' : Radix w α S} {cs cs' : List Nat} {ns ns' : List (Notice (BitVec w))} {ks ks' : List Key}

theorem trans (h : Passes q cs ns ks q₁) (h' : Passes q₁ cs' ns' ks' q') :
    Passes q (cs ++ cs') (ns ++ ns') (ks ++ ks') q' := by
  induction h with
  | stay => exact h'
  | push hq _ ih => exact .push hq (ih h')
  | pop hq _ ih =>
    rw [List.append_assoc, List.append_assoc]
    exact .pop hq (ih h')
  | clear _ ih => exact .clear (ih h')

theorem of_insert {p : BitVec w} {v : α} {k : Key} (h : q.insert p v = .ok (k, q')) :
    Passes q (q.charges [(p, v)]) [] [] q' := by
  simp only [Radix.charges, h]
  exact .push h (.stay q')

theorem of_insert_error {p : BitVec w} {v : α} {f : Failure} (h : q.insert p v = .error f) :
    Passes q (q.charges [(p, v)]) [] [] q := by
  simp only [Radix.charges, h]
  exact .stay q

theorem of_looks {op : Op w α} (h : op.looks = true) :
    Passes q (q.charges op.brings) [] (op.relinked q) q := by
  cases op with
  | queue op =>
    cases op with
    | peek | size | isEmpty | describe => exact .stay q
    | push | pushAll | pop | drain => cases h
  | floor | contains | get | same => exact .stay q
  | pushHandle | tryPush | tryPop | clear => cases h

theorem of_pop {top : Popped (Radix w α S) (BitVec w) α} (h : q.pop = .ok (some top)) :
    Passes q [] top.notice.toList q.relinked top.rest := by
  have hpop := Passes.pop h (.stay top.rest)
  rwa [List.append_nil, List.append_nil] at hpop

theorem pushAll (q : Radix w α S) (items : List (BitVec w × α)) :
    Passes q (q.charges items) [] [] (PriorityQueue.pushAll q items).1 := by
  induction items generalizing q with
  | nil => exact .stay q
  | cons x rest ih =>
    obtain ⟨p, v⟩ := x
    have hpush : PriorityQueue.push q p v = (·.2) <$> q.insert p v := rfl
    cases hq : q.insert p v with
    | error f =>
      rw [hq, Result.map_error] at hpush
      simp only [PriorityQueue.pushAll, hpush, Radix.charges, hq]
      exact .stay q
    | ok r =>
      obtain ⟨k, q₁⟩ := r
      rw [hq, Result.map_ok] at hpush
      simp only [PriorityQueue.pushAll, hpush, Radix.charges, hq]
      exact .push hq (ih q₁)

end Passes

namespace Stands

variable {q : Radix w α S} {B : Buckets w α}

theorem relinked_of_pop_none (hw : w ≤ 128) (h : Stands q B) (hq : q.pop = .ok none) : q.relinked = [] := by
  obtain ⟨-, -, hnil⟩ | ⟨x, moved, kept, B', top, hq', -⟩ := h.pop_parts hw
  · exact hnil
  · rw [hq'] at hq
    cases hq

theorem popMany_passes (hw : w ≤ 128) (h : Stands q B) {n : Nat}
    {d : PriorityQueue.Drained (Radix w α S) (BitVec w) α} (hd : PriorityQueue.popMany n q = .ok d) :
    Passes q [] d.notices (q.relinkedIn n) d.rest := by
  induction n generalizing q B d with
  | zero =>
    obtain rfl := Except.ok.inj hd
    exact .stay q
  | succ n ih =>
    obtain ⟨found, hpop, hd⟩ := Result.bind_eq_ok.mp hd
    have hq : q.pop = .ok found := hpop
    cases found with
    | none =>
      obtain rfl := Except.ok.inj hd
      simp only [relinkedIn, hq, h.relinked_of_pop_none hw hq, List.append_nil]
      exact .stay q
    | some top =>
      obtain ⟨d', hd', hd⟩ := Result.bind_eq_ok.mp hd
      obtain rfl := Except.ok.inj hd
      obtain ⟨-, -, -, B', h', -⟩ := h.parts_of_pop hw hq
      simp only [relinkedIn, hq]
      exact .pop hq (ih h' hd')

end Stands

namespace Session

/-- Every operation on a sound queue comes down to pushes, pops and clears. -/
theorem run_passes (hw : w ≤ 128) {s : Session w α S} {B : Buckets w α} (h : Stands s.heap B) (op : Op w α) :
    Passes s.heap (s.heap.charges op.brings) (s.run op).notices (op.relinked s.heap) (s.run op).state.heap := by
  have hacts := s.run_acts op
  generalize s.run op = a at hacts
  cases hacts with
  | push hq => exact .of_insert hq
  | issue hop hq => cases hop <;> exact .of_insert hq
  | refuse hop hq => cases hop <;> exact .of_insert_error hq
  | @pushAll items heap f hq =>
    have hpasses := Passes.pushAll s.heap items
    rw [hq] at hpasses
    exact hpasses
  | pop hop hq => cases hop <;> exact .of_pop hq
  | nothing hop hq =>
    have hnil := h.relinked_of_pop_none hw hq
    cases hop <;> simpa only [Op.relinked, hnil] using .stay s.heap
  | drain hq => exact h.popMany_passes hw hq
  | look hop => exact .of_looks hop
  | clear => exact .clear (.stay _)
  | breakOff hop => exact absurd hop (h.not_breaks hw)

theorem after_passes (hw : w ≤ 128) {s : Session w α S} {B : Buckets w α} (h : Stands s.heap B)
    (ops : List (Op w α)) :
    Passes s.heap (s.charges ops) (s.notices ops) (s.relinked ops) (s.after ops).heap := by
  induction ops generalizing s B with
  | nil => exact .stay _
  | cons op rest ih =>
    obtain ⟨B', h', -⟩ := run_allows hw h op
    exact (run_passes hw h op).trans (ih h')

end Session
end MonotoneQueue.Radix

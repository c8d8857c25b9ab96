import Mathlib
import MonotoneQueue.Proofs.Radix.Bag
import MonotoneQueue.Proofs.Radix.Peek
import MonotoneQueue.Proofs.Stable.Line

/- A monotone queue against a stable one. As long as nothing is pushed below the priority that came out last
   (`PushesAbove`), the floor refuses nothing, and a monotone queue does what any priority queue does with
   the pairs in it (`Stands.run_allows`). The stable queue does so as well (`InLine.exists_runs`). Which of
   several least pairs comes out is up to either, so they come to hold different values, but the same
   priorities at any time, and that is all their answers depend on (`agrees_with_stable`). -/
namespace MonotoneQueue

namespace PriorityQueue

variable {κ α : Type}

/-- The priority that came out last, `low` if nothing has. -/
def lastPriority (low : κ) (found : List (κ × α)) : κ := (found.map Prod.fst).getLastD low

/-- Every push is at or above the priority that came out last before it, with `low` before the first. -/
def PushesAbove {Q : Type} [LE κ] [PriorityQueue Q κ α] [Described Q] (q : Q) (low : κ) :
    List (Op κ α) → Prop
  | [] => True
  | op :: rest => (∀ x ∈ op.pushed, low ≤ x.1) ∧
      PushesAbove (op.run q).state (lastPriority low (op.popped (op.run q).reply)) rest

instance decidablePushesAbove {Q : Type} [LE κ] [DecidableLE κ] [PriorityQueue Q κ α] [Described Q] :
    ∀ (q : Q) (low : κ) (ops : List (Op κ α)), Decidable (PushesAbove q low ops)
  | _, _, [] => .isTrue trivial
  | q, low, op :: rest =>
    have := decidablePushesAbove (op.run q).state (lastPriority low (op.popped (op.run q).reply)) rest
    inferInstanceAs (Decidable ((∀ x ∈ op.pushed, low ≤ x.1) ∧ _))

/-- The queues answer the operations alike, and drained then, each has given all that was pushed. -/
structure Agree {Q Q' : Type} [PriorityQueue Q κ α] [Described Q] [PriorityQueue Q' κ α]
    [Described Q'] (q : Q) (q' : Q') (ops : List (Op κ α)) : Prop where
  alike : List.Forall₂ Answer.Alike (replay Op.run q ops) (replay Op.run q' ops)
  gives_all : (returned q (ops ++ [.drain]) : Multiset (κ × α)) = pushed ops
  gives_all' : (returned q' (ops ++ [.drain]) : Multiset (κ × α)) = pushed ops

theorem PushesAbove.concat_drain {Q : Type} [LE κ] [PriorityQueue Q κ α] [Described Q] {q : Q}
    {low : κ} {ops : List (Op κ α)} (h : PushesAbove q low ops) :
    PushesAbove q low (ops ++ [.drain]) := by
  induction ops generalizing q low with
  | nil => exact ⟨fun _ hx => absurd hx List.not_mem_nil, trivial⟩
  | cons op rest ih => exact ⟨h.1, ih h.2⟩

theorem lastPriority_cons (low : κ) (x : κ × α) (rest : List (κ × α)) :
    lastPriority low (x :: rest) = lastPriority x.1 rest := List.getLastD_cons

end PriorityQueue

namespace Radix

open PriorityQueue

variable {w : Nat} {α : Type} {S : Type → Type} [Storage S]

namespace Bag

variable {b b' : Bag w α}

theorem Pop.takes {found : Option (BitVec w × α)} (h : Pop b b' found) :
    Takes b.items b'.items found ∧ b'.floor = lastPriority b.floor found.toList := by
  cases found with
  | none =>
    obtain ⟨hzero, rfl⟩ := h
    exact ⟨⟨hzero, hzero⟩, rfl⟩
  | some x =>
    obtain ⟨hle, hitems, hfloor⟩ := h
    exact ⟨⟨hitems, hle⟩, hfloor⟩

/-- Pops until nothing is left take all pairs out, least first. -/
theorem Drain.takes {found : List (BitVec w × α)} (h : Drain b' b found) :
    (found : Multiset (BitVec w × α)) = b.items ∧ found.Pairwise (fun x y => x.1 ≤ y.1) ∧
      b'.items = 0 ∧ b'.floor = lastPriority b.floor found := by
  induction found generalizing b with
  | nil =>
    obtain ⟨hzero, rfl⟩ := h
    exact ⟨hzero.symm, .nil, hzero, rfl⟩
  | cons x rest ih =>
    obtain ⟨c, ⟨hle, hitems, hfloor⟩, hrest⟩ := h
    obtain ⟨hc, hsorted, hzero, hlast⟩ := ih hrest
    refine ⟨?_, List.pairwise_cons.mpr ⟨?_, hsorted⟩, hzero, ?_⟩
    · rw [hitems, ← hc, Multiset.cons_coe]
    · intro y hy
      apply hle y
      rw [hitems, ← hc]
      exact Multiset.mem_cons_of_mem (Multiset.mem_coe.mpr hy)
    · rw [hlast, hfloor, lastPriority_cons]

theorem Push.accepted {p : BitVec w} {v : α} {accepted refused : Prop}
    (h : Push b b' p v accepted refused) (hp : b.floor ≤ p) :
    accepted ∧ b' = { b with items := (p, v) ::ₘ b.items } := by
  rwa [Push, if_pos hp] at h

theorem PushAll.accepted {items : List (BitVec w × α)} {f : Option Failure} (h : PushAll b' b items f)
    (hitems : ∀ x ∈ items, b.floor ≤ x.1) :
    f = none ∧ b' = ⟨items + b.items, b.floor⟩ := by
  induction items generalizing b with
  | nil => exact ⟨h.1, by rw [h.2]; simp⟩
  | cons x rest ih =>
    rw [PushAll, if_pos (hitems x List.mem_cons_self)] at h
    obtain ⟨hf, hb⟩ := ih h fun y hy => hitems y (List.mem_cons_of_mem _ hy)
    refine ⟨hf, hb.trans ?_⟩
    rw [← Multiset.cons_coe, Multiset.cons_add, Multiset.add_cons]

end Bag

theorem Stands.exists_pop_eq (hw : w ≤ 128) {q : Radix w α S} {B : Buckets w α} (h : Stands q B) :
    ∃ found B', q.pop = .ok found ∧ Bag.Pop B.bag B' (found.map Popped.item) := by
  obtain ⟨hzero, hq⟩ | ⟨top, B', hq, -, hpop⟩ := h.exists_pop hw
  · exact ⟨none, B.bag, hq, hzero, rfl⟩
  · exact ⟨some top, B'.bag, hq, hpop⟩

/-- What is not below the floor is taken in, so an operation that pushes nothing below it is answered as
    on any priority queue. The floor moves to what came out last. -/
theorem Stands.run_allows (hw : w ≤ 128) {q : Radix w α S} {B : Buckets w α} (h : Stands q B)
    (op : PriorityQueue.Op (BitVec w) α) (hop : ∀ x ∈ op.pushed, B.floor ≤ x.1) :
    ∃ B', Stands (op.run q).state B' ∧ op.Allows B.pairs (op.run q).reply B'.pairs ∧
      B'.floor = lastPriority B.floor (op.popped (op.run q).reply) := by
  obtain ⟨B', h', hallows⟩ := Session.run_allows hw (s := ⟨q, #[]⟩) h (.queue op)
  refine ⟨B', h', ?_⟩
  cases op with
  | push p v =>
    obtain ⟨hr, hb⟩ := Bag.Push.accepted hallows (hop (p, v) (List.mem_singleton_self _))
    exact ⟨⟨hr, congrArg Bag.items hb⟩, congrArg Bag.floor hb⟩
  | pushAll items =>
    obtain ⟨f, hpush, hr⟩ := hallows
    obtain ⟨rfl, hb⟩ := hpush.accepted hop
    exact ⟨⟨hr, congrArg Bag.items hb⟩, congrArg Bag.floor hb⟩
  | pop =>
    obtain ⟨found, hpop, hr⟩ := hallows
    obtain ⟨htakes, hfloor⟩ := hpop.takes
    refine ⟨⟨found, htakes, hr⟩, ?_⟩
    rw [show (PriorityQueue.Op.pop.run q).reply = .item found from hr]
    exact hfloor
  | peek =>
    obtain ⟨found, left, hq, hpop⟩ := h.exists_pop_eq hw
    have hpeek : PriorityQueue.peek q = .ok (found.map Popped.item) := peek_of_pop hq
    have hr : (PriorityQueue.Op.peek.run q).reply = .item (found.map Popped.item) := by
      simp only [PriorityQueue.Op.run, hpeek]
    exact ⟨⟨_, _, hpop.takes.1, hr, congrArg Bag.items hallows⟩, congrArg Bag.floor hallows⟩
  | drain =>
    obtain ⟨found, hdrain, hr⟩ := hallows
    obtain ⟨hfound, hsorted, hzero, hfloor⟩ := hdrain.takes
    refine ⟨⟨found, hfound, hsorted, hr, hzero⟩, ?_⟩
    rw [show (PriorityQueue.Op.drain.run q).reply = .items found from hr]
    exact hfloor
  | size => exact ⟨⟨hallows.1, congrArg Bag.items hallows.2⟩, congrArg Bag.floor hallows.2⟩
  | isEmpty => exact ⟨⟨hallows.1, congrArg Bag.items hallows.2⟩, congrArg Bag.floor hallows.2⟩
  | describe style =>
    exact ⟨⟨⟨_, rfl⟩, congrArg Bag.items hallows⟩, congrArg Bag.floor hallows⟩

/-- Next to a queue that holds the same priorities, and on which nothing is pushed below what came out
    last, a monotone queue answers all operations as a priority queue does. -/
theorem Stands.exists_runs (hw : w ≤ 128) {Q : Type} [PriorityQueue Q (BitVec w) α] [Described Q]
    {q : Radix w α S} {B : Buckets w α} {q' : Q} {M N : Multiset (BitVec w × α)}
    {ops : List (PriorityQueue.Op (BitVec w) α)} (hruns : Runs q' M ops N) (h : Stands q B)
    (hM : B.pairs.map Prod.fst = M.map Prod.fst) (habove : PushesAbove q' B.floor ops) :
    ∃ N', Runs q B.pairs ops N' := by
  induction hruns generalizing q B with
  | nil => exact ⟨_, .nil h.size_eq⟩
  | @cons q' M M' N op rest _ hop _ ih =>
    obtain ⟨hpush, hlater⟩ := habove
    obtain ⟨B', h', hallows, hfloor⟩ := h.run_allows hw op hpush
    have hfloor' : B'.floor = lastPriority B.floor (op.popped (op.run q').reply) := by
      rw [hfloor, lastPriority, hallows.popped_alike hM hop, lastPriority]
    obtain ⟨N', hrest⟩ := ih h' (hallows.alike hM hop).2 (hfloor' ▸ hlater)
    exact ⟨N', .cons h.size_eq hallows hrest⟩

section New

variable [Described (Stable (BitVec w) α)] {ops : List (PriorityQueue.Op (BitVec w) α)}

theorem exists_runs_new (hw : w ≤ 128) (n : Nat) (g : Gauge)
    (h : PushesAbove (Stable.empty : Stable (BitVec w) α) 0#w ops) :
    ∃ N N', Runs (emptyWithCapacity n g : Radix w α S) 0 ops N ∧
      Runs (Stable.empty : Stable (BitVec w) α) 0 ops N' := by
  have hnew : (Buckets.empty : Buckets w α).pairs = 0 := by
    rw [Buckets.pairs, Buckets.items_empty, Multiset.map_zero]
  obtain ⟨l, -, hline⟩ := Stable.InLine.empty.exists_runs ops
  have hstable : Runs (Stable.empty : Stable (BitVec w) α) 0 ops (l.map Stable.Entry.pair) := hline
  obtain ⟨N, hradix⟩ := Stands.exists_runs (S := S) hw hstable (.emptyWithCapacity n g) (by rw [hnew]) h
  exact ⟨N, _, hnew ▸ hradix, hstable⟩

/-- For words that the mask has room for, a new monotone queue and a new stable queue agree on all
    operations that push nothing below what came out last, zero at first. -/
theorem agrees_with_stable (hw : w ≤ 128) (n : Nat) (g : Gauge)
    (h : PushesAbove (Stable.empty : Stable (BitVec w) α) 0#w ops) :
    Agree (emptyWithCapacity n g : Radix w α S) (Stable.empty : Stable (BitVec w) α) ops := by
  obtain ⟨_, _, hradix, hstable⟩ := exists_runs_new (S := S) hw n g h
  obtain ⟨_, _, hradix', hstable'⟩ := exists_runs_new (S := S) hw n g h.concat_drain
  refine ⟨(hradix.alike hstable rfl).1, ?_, ?_⟩
  · exact hradix'.returned_drain.trans (add_zero _)
  · exact hstable'.returned_drain.trans (add_zero _)

end New

/-- Ties come out in different orders, and then the priorities still agree. -/
theorem agrees_with_stable_ties :
    let ops : List (PriorityQueue.Op (BitVec 8) String) :=
      [.push 5 "a", .push 5 "b", .push 9 "c", .push 5 "d", .peek, .pop, .push 6 "e", .pop, .pop, .pop]
    (replay PriorityQueue.Op.run (Radix.empty : Radix 8 String) ops).map Answer.reply =
      [.done, .done, .done, .done, .item (some (5, "d")), .item (some (5, "d")), .done,
        .item (some (5, "a")), .item (some (5, "b")), .item (some (6, "e"))] ∧
    (replay PriorityQueue.Op.run (Stable.empty : Stable (BitVec 8) String) ops).map Answer.reply =
      [.done, .done, .done, .done, .item (some (5, "a")), .item (some (5, "a")), .done,
        .item (some (5, "b")), .item (some (5, "d")), .item (some (6, "e"))] ∧
    Agree (Radix.empty : Radix 8 String) (Stable.empty : Stable (BitVec 8) String) ops :=
  ⟨by rfl, by rfl, agrees_with_stable (by decide) 0 .leadingZeros (by decide)⟩

end Radix
end MonotoneQueue

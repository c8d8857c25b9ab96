import Mathlib
import MonotoneQueue.Proofs.Radix.Acts
import MonotoneQueue.Proofs.Radix.Contents

/- Nothing goes wrong inside a monotone queue. Each place that relies on heads, links and mask telling the
   same of the same elements would report a defect if they did not, and in a sound queue none of them does:
   a priority has a bucket, a bucket above 0 has its bit, the mask names the lowest occupied bucket, and every
   key that is met names an element (`Faultless`). So an operation fails for one cause only, which its user
   brought about: it pushes below the floor (`Session.run_failure?`). -/
namespace MonotoneQueue

/-- The cause that a reply gives, if it tells of a failure. That nothing is left to take out is an answer, not a
    failure. -/
def Reply.failure? {κ α : Type} : Reply κ α → Option Failure
  | .rejected .empty => none
  | .rejected f => some f
  | .aborted f => some f
  | _ => none

namespace Radix

variable {w : Nat} {α : Type} {S : Type → Type} [Storage S]

/-- Why an operation on the queue has to fail, if it has to: it brings something below the floor. -/
def Op.failure? (q : Radix w α S) (op : Op w α) : Option Failure :=
  if ∃ x ∈ op.brings, x.1 < q.floor then some .belowFloor else none

/-- Every step of every operation finds what it relies on. -/
structure Faultless (q : Radix w α S) : Prop where
  /-- The length of a difference to the floor is the number of a bucket. -/
  exists_bucketOf : ∀ p, ∃ i : Fin (w + 1), q.bucketOf p = .ok i ∧ i.val = bitLength (difference p q.floor)
  /-- Buckets above 0 have a bit in the mask, and only those. -/
  maskBit_eq_ok_iff : ∀ (i : Fin (w + 1)) b, maskBit i = .ok b ↔
    i ≠ 0 ∧ w - i.val < 128 ∧ b = 1#128 <<< (w - i.val)
  /-- The mask tells of no bucket exactly if those above 0 are empty. -/
  lowest_eq_none_iff : q.lowestOccupied = .ok none ↔ ∀ i ≠ 0, q.heads.get i = none
  /-- The mask tells of the lowest bucket above 0 that is not empty. -/
  lowest_eq_some_iff : ∀ i, q.lowestOccupied = .ok (some i) ↔
    i ≠ 0 ∧ q.heads.get i ≠ none ∧ ∀ j ≠ 0, j < i → q.heads.get j = none
  /-- A bucket names an element that is stored, and elements name neighbours that are. -/
  head_stored : ∀ i k, q.heads.get i = some k → q.contains k = true
  neighbour_stored : ∀ k n, Storage.get? q.nodes k = some n → ∀ l, n.prev = some l ∨ n.next = some l →
    q.contains l = true
  /-- The walk along a bucket comes to its end, and the first least element that it finds is stored. -/
  exists_least : ∀ i head, q.heads.get i = some head →
    ∃ k, leastFrom q.nodes head = .ok k ∧ q.contains k = true
  exists_insert : ∀ p v, q.floor ≤ p → ∃ k q', q.insert p v = .ok (k, q')
  exists_popFloor : ∀ k, q.heads.get 0 = some k → ∃ top, q.popFloor k = .ok top
  /-- What is detached from a bucket above 0 can be linked again to the end. -/
  exists_relink : ∀ i ≠ 0, q.heads.get i ≠ none →
    ∃ d ks rest, q.detach i = .ok d ∧ relink d.rest.size d.others d.rest = .ok (ks, rest)
  /-- A pop comes out empty only where nothing is stored. -/
  exists_pop : q.size ≠ 0 → ∃ top, q.pop = .ok (some top)
  pop_eq_none : q.size = 0 → q.pop = .ok none
  exists_peek : q.size ≠ 0 → ∃ x, q.peek = .ok (some x)
  peek_eq_none : q.size = 0 → q.peek = .ok none

/-! Sound queues. -/

/-- Who stands next to an item in a list is in the list as well. -/
theorem Linked.neighbour_mem {nodes : S (Node w α)} {l : List (Item w α)} (h : Linked nodes none none l)
    {x : Item w α} (hx : x ∈ l) {n : Node w α} (hn : Storage.get? nodes x.key = some n) {k : Key}
    (hk : n.prev = some k ∨ n.next = some k) : k ∈ l.map Item.key := by
  obtain ⟨xs, ys, rfl⟩ := List.append_of_mem hx
  have hnode := (linked_append.mp h).2.1
  rw [hn] at hnode
  cases hnode
  rw [List.map_append, List.map_cons, List.mem_append, List.mem_cons]
  rcases hk with hk | hk
  · exact Or.inl (lastKey_none_mem hk)
  · exact Or.inr (Or.inr (firstKey_mem hk))

theorem maskBit_eq_ok_iff (hw : w ≤ 128) (i : Fin (w + 1)) (b : BitVec 128) :
    maskBit i = .ok b ↔ i ≠ 0 ∧ w - i.val < 128 ∧ b = 1#128 <<< (w - i.val) := by
  by_cases hi : i = 0
  · subst hi
    simp [maskBit]
  · have hpos : i.val ≠ 0 := fun e => hi (Fin.ext e)
    rw [maskBit_eq hw hi, Except.ok.injEq]
    constructor
    · rintro rfl
      exact ⟨hi, by omega, rfl⟩
    · rintro ⟨-, -, rfl⟩
      rfl

namespace Represents

variable {q : Radix w α S} {B : Buckets w α}

theorem contains_of_mem (h : Represents q B []) {k : Key} {i : Fin (w + 1)}
    (hk : k ∈ (B.list i).map Item.key) : q.contains k = true := by
  obtain ⟨x, hx, rfl⟩ := List.mem_map.mp hk
  obtain ⟨p, n, hg⟩ := h.get?_eq hx
  rw [contains, hg]
  rfl

theorem neighbour_stored (h : Represents q B []) {k l : Key} {n : Node w α}
    (hk : Storage.get? q.nodes k = some n) (hl : n.prev = some l ∨ n.next = some l) :
    q.contains l = true := by
  obtain ⟨i, hi⟩ := h.exists_item hk
  exact h.contains_of_mem ((h.linked i).neighbour_mem hi hk hl)

theorem lowest_eq_none_iff (h : Represents q B []) :
    q.lowestOccupied = .ok none ↔ ∀ i ≠ 0, q.heads.get i = none := by
  obtain ⟨hlow, hnil⟩ | ⟨i, hlow, hi, hne, -⟩ := h.lowestOccupied_cases
  · rw [hlow]
    exact iff_of_true rfl fun i hi => (h.head_eq_none_iff i).mpr (hnil i hi)
  · rw [hlow]
    refine iff_of_false (by simp) fun hnil => hne ?_
    exact (h.head_eq_none_iff i).mp (hnil i hi)

theorem lowest_eq_some_iff (h : Represents q B []) (i : Fin (w + 1)) :
    q.lowestOccupied = .ok (some i) ↔
      i ≠ 0 ∧ q.heads.get i ≠ none ∧ ∀ j ≠ 0, j < i → q.heads.get j = none := by
  simp only [Ne, h.head_eq_none_iff]
  obtain ⟨hlow, hnil⟩ | ⟨j, hlow, hj, hne, hbelow⟩ := h.lowestOccupied_cases
  · rw [hlow]
    exact iff_of_false (by simp) fun ⟨hi, hne, _⟩ => hne (hnil i hi)
  · rw [hlow, Except.ok.injEq, Option.some.injEq]
    constructor
    · rintro rfl
      exact ⟨hj, hne, fun k hk hlt => hbelow k hlt hk⟩
    · rintro ⟨hi, hi', hbelow'⟩
      -- neither of the two lies below the other
      apply le_antisymm
      · exact not_lt.mp fun hlt => hi' (hbelow i hlt hi)
      · exact not_lt.mp fun hlt => hne (hbelow' j hj hlt)

end Represents

namespace Stands

variable {q : Radix w α S} {B : Buckets w α}

theorem faultless (hw : w ≤ 128) (h : Stands q B) : q.Faultless := by
  have hr := h.represents
  constructor
  case exists_bucketOf => exact fun p => ⟨_, bucketOf_eq q p, rfl⟩
  case maskBit_eq_ok_iff => exact maskBit_eq_ok_iff hw
  case lowest_eq_none_iff => exact hr.lowest_eq_none_iff
  case lowest_eq_some_iff => exact hr.lowest_eq_some_iff
  case head_stored =>
    intro i k hk
    rw [hr.head_eq] at hk
    exact hr.contains_of_mem (firstKey_mem hk)
  case neighbour_stored => exact fun k n hk l hl => hr.neighbour_stored hk hl
  case exists_least =>
    intro i head hhead
    rw [hr.head_eq] at hhead
    obtain ⟨xs, m, ys, hsplit, -, hleast⟩ := leastFrom_linked (hr.linked i) hhead (hr.length_le i)
    refine ⟨m.key, hleast, hr.contains_of_mem (i := i) ?_⟩
    rw [hsplit]
    simp
  case exists_insert =>
    intro p v hp
    rw [hr.floor_eq] at hp
    obtain ⟨q', hq, -⟩ := hr.exists_insert hw hp v
    exact ⟨_, q', hq⟩
  case exists_popFloor =>
    intro k hk
    cases hl : B.list 0 with
    | nil =>
      rw [(hr.head_eq_none_iff 0).mpr hl] at hk
      cases hk
    | cons x rest =>
      rw [hr.head_eq, hl] at hk
      cases hk
      obtain ⟨q', hq, -⟩ := hr.exists_popFloor hl
      exact ⟨_, hq⟩
  case exists_relink =>
    intro i hi hhead
    have hne : B.list i ≠ [] := fun hl => hhead ((hr.head_eq_none_iff i).mpr hl)
    obtain ⟨xs, m, ys, p, n, q₁, -, -, hd, h₁⟩ := hr.exists_detach hw hi hne
    obtain ⟨q₂, hq, -⟩ := h₁.exists_relink hw h₁.length_loose_le
    exact ⟨_, _, q₂, hd, hq⟩
  case exists_pop => exact fun hne => ((h.pop_of_size hw).resolve_left fun hz => hne hz.1).2
  case pop_eq_none => exact fun hz => ((h.pop_of_size hw).resolve_right fun hne => hne.1 hz).2
  case exists_peek => exact fun hne => ((h.peek_of_size hw).resolve_left fun hz => hne hz.1).2
  case peek_eq_none => exact fun hz => ((h.peek_of_size hw).resolve_right fun hne => hne.1 hz).2

end Stands

/-! Failures. -/

namespace Bag

variable {b b' : Bag w α}

theorem PushAll.failure_eq {items : List (BitVec w × α)} {f : Option Failure} (h : PushAll b' b items f) :
    f = if ∃ x ∈ items, x.1 < b.floor then some .belowFloor else none := by
  induction items generalizing b with
  | nil => simpa using h.1
  | cons x rest ih =>
    rw [PushAll] at h
    split at h
    · next hp =>
      -- the floor stays where it is
      rw [ih h]
      simp only [List.mem_cons, exists_eq_or_imp, BitVec.not_lt.mpr hp, false_or]
    · next hp =>
      rw [h.1, if_pos ⟨x, List.mem_cons_self, BitVec.not_le.mp hp⟩]

end Bag

namespace Op

variable {op : Op w α} {p : BitVec w} {v : α}

omit [Storage S] in
theorem failure?_of_brings_nil (h : op.brings = []) (q : Radix w α S) : op.failure? q = none := by
  rw [Op.failure?, h, if_neg]
  simp

omit [Storage S] in
theorem failure?_of_brings (h : op.brings = [(p, v)]) (q : Radix w α S) :
    op.failure? q = if p < q.floor then some .belowFloor else none := by
  simp [Op.failure?, h]

theorem Issues.brings_eq (h : op.Issues p v) : op.brings = [(p, v)] := by
  cases h <;> rfl

theorem Pushes.brings_eq {refusal : Failure → Reply (BitVec w) α} (h : op.Pushes p v refusal) :
    op.brings = [(p, v)] := by
  cases h <;> rfl

theorem brings_of_looks (h : op.looks = true) : op.brings = [] := by
  cases op with
  | queue op =>
    cases op with
    | peek | size | isEmpty | describe => rfl
    | push | pushAll | pop | drain => cases h
  | floor | contains | get | same => rfl
  | pushHandle | tryPush | tryPop | clear => cases h

end Op

namespace Session

variable {s : Session w α S} {B : Buckets w α}

theorem look_answers (hw : w ≤ 128) (h : Stands s.heap B) {op : Op w α} (hop : op.looks = true) :
    (s.run op).reply.failure? = none ∧ (s.run op).reply ≠ .rejected .empty := by
  cases op with
  | queue op =>
    cases op with
    | peek =>
      obtain ⟨found, hpeek⟩ : ∃ found, PriorityQueue.peek s.heap = .ok found := by
        obtain ⟨-, hpeek⟩ | ⟨-, x, hpeek⟩ := h.peek_of_size hw
        · exact ⟨none, hpeek⟩
        · exact ⟨some x, hpeek⟩
      simp only [run, PriorityQueue.Op.run, hpeek]
      exact ⟨rfl, by rintro ⟨⟩⟩
    | size | isEmpty | describe => exact ⟨rfl, by rintro ⟨⟩⟩
    | push | pushAll | pop | drain => cases hop
  | floor => exact ⟨rfl, by rintro ⟨⟩⟩
  | contains | get | same =>
    simp only [run]
    split <;> exact ⟨rfl, by rintro ⟨⟩⟩
  | pushHandle | tryPush | tryPop | clear => cases hop

/-- An operation on a sound queue fails exactly for the cause that its user brought about. -/
theorem run_failure? (hw : w ≤ 128) (h : Stands s.heap B) (op : Op w α) :
    (s.run op).reply.failure? = op.failure? s.heap := by
  have hfloor : s.heap.floor = B.floor := h.represents.floor_eq
  have haccepted : ∀ {p}, B.floor ≤ p → ¬ p < s.heap.floor := fun hp => hfloor ▸ BitVec.not_lt.mpr hp
  have hacts := s.run_acts op
  generalize s.run op = a at hacts
  cases hacts with
  | push hq =>
    obtain ⟨hp, -⟩ := h.of_insert hw hq
    rw [Op.failure?_of_brings rfl, if_neg (haccepted hp)]
    rfl
  | issue hop hq =>
    obtain ⟨hp, -⟩ := h.of_insert hw hq
    rw [Op.failure?_of_brings hop.brings_eq, if_neg (haccepted hp)]
    rfl
  | refuse hop hq =>
    obtain ⟨hp, rfl⟩ := h.of_insert_error hw hq
    rw [Op.failure?_of_brings hop.brings_eq, hfloor, if_pos (BitVec.not_le.mp hp)]
    cases hop <;> rfl
  | @pushAll items heap f hq =>
    obtain ⟨B', -, hall⟩ := h.exists_pushAll hw items
    rw [hq] at hall
    have hfailure : f = Op.failure? s.heap (.queue (.pushAll items)) := by
      rw [Op.failure?, hfloor]
      exact hall.failure_eq
    rw [← hfailure]
    cases f <;> rfl
  | pop hop hq => cases hop <;> exact (Op.failure?_of_brings_nil rfl _).symm
  | nothing hop hq => cases hop <;> exact (Op.failure?_of_brings_nil rfl _).symm
  | drain hq => exact (Op.failure?_of_brings_nil rfl _).symm
  | look hop =>
    rw [Op.failure?_of_brings_nil (Op.brings_of_looks hop)]
    exact (look_answers hw h hop).1
  | clear => exact (Op.failure?_of_brings_nil rfl _).symm
  | breakOff hop => exact absurd hop (h.not_breaks hw)

/-- Only a pop that may refuse to answer does so because nothing is left. -/
theorem run_eq_empty_iff (hw : w ≤ 128) (h : Stands s.heap B) (op : Op w α) :
    (s.run op).reply = .rejected .empty ↔ op = .tryPop ∧ s.heap.size = 0 := by
  have hacts := s.run_acts op
  generalize s.run op = a at hacts
  cases hacts with
  | push hq | clear | drain hq => exact iff_of_false nofun nofun
  | issue hop hq => cases hop <;> exact iff_of_false nofun nofun
  | refuse hop hq =>
    obtain ⟨-, rfl⟩ := h.of_insert_error hw hq
    cases hop <;> exact iff_of_false nofun nofun
  | @pushAll items heap f hq => cases f <;> exact iff_of_false nofun nofun
  | pop hop hq =>
    obtain ⟨-, hq'⟩ | ⟨hne, -⟩ := h.pop_of_size hw
    · cases hq'.symm.trans hq
    · exact iff_of_false nofun fun hop => hne hop.2
  | nothing hop hq =>
    obtain ⟨hzero, -⟩ | ⟨-, top, hq'⟩ := h.pop_of_size hw
    · cases hop with
      | pop => exact iff_of_false nofun nofun
      | tryPop => exact iff_of_true rfl ⟨rfl, hzero⟩
    · cases hq'.symm.trans hq
  | look hop =>
    refine iff_of_false (look_answers hw h hop).2 ?_
    rintro ⟨rfl, -⟩
    cases hop
  | breakOff hop => exact absurd hop (h.not_breaks hw)

/-- Whatever was done with a queue from the beginning on, nothing goes wrong inside it, and the next operation
    fails only for what its user brings about. -/
theorem after_faultless (hw : w ≤ 128) (n : Nat) (g : Gauge) (ops : List (Op w α)) :
    let s : Session w α S := (ofHeap (emptyWithCapacity n g)).after ops
    s.heap.Faultless ∧ ∀ op, (s.run op).reply.failure? = op.failure? s.heap ∧
      ((s.run op).reply = .rejected .empty ↔ op = .tryPop ∧ s.heap.size = 0) := by
  have hstart : Stands (ofHeap (emptyWithCapacity n g) : Session w α S).heap Buckets.empty :=
    .emptyWithCapacity n g
  obtain ⟨B, h⟩ := exists_stands hw hstart ops
  exact ⟨h.faultless hw, fun op => ⟨run_failure? hw h op, run_eq_empty_iff hw h op⟩⟩

/-- The least and the greatest word of full width lie in the first and the last bucket. Once the greatest is
    out, the floor is above all that could come. -/
theorem after_faultless_words : 128 ≤ 128 ∧
    let s : Session 128 Nat := (ofHeap (emptyWithCapacity 0 .leadingZeros)).after
      [.tryPush 0 0, .tryPush (BitVec.allOnes 128) 1, .queue .pop, .tryPop]
    (s.heap.Faultless ∧ ∀ op, (s.run op).reply.failure? = op.failure? s.heap ∧
      ((s.run op).reply = .rejected .empty ↔ op = .tryPop ∧ s.heap.size = 0)) ∧
    s.heap.floor = BitVec.allOnes 128 ∧ (s.run .tryPop).reply = .rejected .empty ∧
    (s.run (.tryPush 1 2)).reply = .rejected .belowFloor :=
  ⟨by decide, after_faultless (by decide) 0 .leadingZeros _, by decide +kernel, by decide +kernel,
    by decide +kernel⟩

end Session
end Radix
end MonotoneQueue

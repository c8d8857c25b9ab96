import Mathlib
import MonotoneQueue.Proofs.PriorityQueue.Contents
import MonotoneQueue.Proofs.Radix.Acts
import MonotoneQueue.Proofs.Radix.Pop

/- A monotone queue as its user sees it: a multiset of pairs and a floor. `Bag.Allows` says what an
   operation may answer and leave. A push takes one pair in or refuses it, a pop takes one pair of
   least priority out or finds nothing, and the rest follows from these two.

   A stored queue is sound when it stands for bucket lists in which every item lies where it belongs
   (`Stands`). Every operation answers a sound queue as its bag allows and leaves it sound
   (`Session.run_allows`), so the same holds of every run, and a run is told by the bags it goes
   through (`run_refines_bag`). -/
namespace MonotoneQueue.Radix

variable {w : Nat} {α : Type} {S : Type → Type} [Storage S]

/-- What a user knows of a monotone queue. -/
structure Bag (w : Nat) (α : Type) where
  items : Multiset (BitVec w × α)
  floor : BitVec w

namespace Bag

/-- A push takes the pair in at or above the floor and is refused below it. -/
def Push (b b' : Bag w α) (p : BitVec w) (v : α) (accepted refused : Prop) : Prop :=
  if b.floor ≤ p then accepted ∧ b' = { b with items := (p, v) ::ₘ b.items }
  else refused ∧ b' = b

/-- Pushes in order, up to the first that is refused. -/
def PushAll (b' : Bag w α) : Bag w α → List (BitVec w × α) → Option Failure → Prop
  | b, [], r => r = none ∧ b' = b
  | b, (p, v) :: rest, r =>
    if b.floor ≤ p then PushAll b' { b with items := (p, v) ::ₘ b.items } rest r
    else r = some .belowFloor ∧ b' = b

/-- A pop takes one pair of least priority out and moves the floor to it, or finds nothing. -/
def Pop (b b' : Bag w α) : Option (BitVec w × α) → Prop
  | none => b.items = 0 ∧ b' = b
  | some x => (∀ y ∈ b.items, x.1 ≤ y.1) ∧ b.items = x ::ₘ b'.items ∧ b'.floor = x.1

/-- Pops until nothing is left. -/
def Drain (b' : Bag w α) : Bag w α → List (BitVec w × α) → Prop
  | b, [] => Pop b b' none
  | b, x :: rest => ∃ c, Pop b c (some x) ∧ Drain b' c rest

/-- What an operation may answer, and what it leaves. Looking changes nothing. -/
def Allows (b : Bag w α) (op : Op w α) (r : Reply (BitVec w) α) (b' : Bag w α) : Prop :=
  match op with
  | .queue (.push p v) => Push b b' p v (r = .done) (r = .aborted .belowFloor)
  | .pushHandle p v => Push b b' p v (∃ n, r = .handle n) (r = .aborted .belowFloor)
  | .tryPush p v => Push b b' p v (∃ n, r = .handle n) (r = .rejected .belowFloor)
  | .queue (.pushAll items) =>
    ∃ f, PushAll b' b items f ∧ r = f.elim .done .aborted
  | .queue .pop => ∃ found, Pop b b' found ∧ r = .item found
  | .tryPop => ∃ found, Pop b b' found ∧ r = found.elim (.rejected .empty) (.item ∘ some)
  | .queue .drain => ∃ found, Drain b' b found ∧ r = .items found
  | .clear => r = .done ∧ b' = ⟨0, 0#w⟩
  | .queue .size => r = .count b.items.card ∧ b' = b
  | .queue .isEmpty => (∃ e, r = .flag e ∧ (e = true ↔ b.items = 0)) ∧ b' = b
  | .floor => r = .priority b.floor ∧ b' = b
  | _ => b' = b

theorem Push.of_le {b b' : Bag w α} {p : BitVec w} {v : α} {accepted refused : Prop}
    (hp : b.floor ≤ p) (ha : accepted) (hb : b' = { b with items := (p, v) ::ₘ b.items }) :
    Push b b' p v accepted refused := by
  rw [Push, if_pos hp]
  exact ⟨ha, hb⟩

theorem Push.of_not_le {b : Bag w α} {p : BitVec w} {v : α} {accepted refused : Prop}
    (hp : ¬ b.floor ≤ p) (hr : refused) : Push b b p v accepted refused := by
  rw [Push, if_neg hp]
  exact ⟨hr, rfl⟩

end Bag

/-- The bag that bucket lists are. -/
def Buckets.bag (B : Buckets w α) : Bag w α := ⟨B.pairs, B.floor⟩

/-- The queue stores the bucket lists, and every item lies where it belongs. -/
structure Stands (q : Radix w α S) (B : Buckets w α) : Prop where
  represents : Represents q B []
  placed : B.Placed

namespace Stands

variable {q : Radix w α S} {B : Buckets w α}

theorem emptyWithCapacity (n : Nat) (g : Gauge) :
    Stands (Radix.emptyWithCapacity n g : Radix w α S) Buckets.empty :=
  ⟨.emptyWithCapacity n g, .empty⟩

theorem size_eq (h : Stands q B) : q.size = B.pairs.card := by
  have := h.represents.size_eq
  rw [Multiset.coe_nil, add_zero] at this
  rw [Buckets.pairs, Multiset.card_map]
  exact this

theorem isEmpty_iff (h : Stands q B) : PriorityQueue.isEmpty q = true ↔ B.pairs = 0 := by
  rw [← Multiset.card_eq_zero, ← h.size_eq]
  exact beq_iff_eq

theorem pairs_unique (h : Stands q B) {B' : Buckets w α} (h' : Stands q B') : B.pairs = B'.pairs := by
  rw [Buckets.pairs, Buckets.pairs, h.represents.items_unique h'.represents]

theorem insert_cases (hw : w ≤ 128) (h : Stands q B) (p : BitVec w) (v : α) :
    (B.floor ≤ p ∧ ∃ k q' B', q.insert p v = .ok (k, q') ∧ Stands q' B' ∧
      B'.bag = { B.bag with items := (p, v) ::ₘ B.pairs }) ∨
    (¬ B.floor ≤ p ∧ q.insert p v = .error .belowFloor) := by
  by_cases hp : B.floor ≤ p
  · obtain ⟨q', hq, h'⟩ := h.represents.exists_insert hw hp v
    refine Or.inl ⟨hp, _, q', _, hq, ⟨h', h.placed.place hp⟩, ?_⟩
    rw [Buckets.bag, Buckets.pairs, Buckets.items_place, Multiset.map_cons]
    rfl
  · exact Or.inr ⟨hp, h.represents.insert_eq_error (BitVec.not_le.mp hp) v⟩

theorem exists_pop (hw : w ≤ 128) (h : Stands q B) :
    (B.pairs = 0 ∧ q.pop = .ok none) ∨
      ∃ top B', q.pop = .ok (some top) ∧ Stands top.rest B' ∧ Bag.Pop B.bag B'.bag (some top.item) := by
  rcases h.represents.exists_pop hw with ⟨hz, hq⟩ | ⟨x, n, B', q', hpop, hq, h'⟩
  · exact Or.inl ⟨by rw [Buckets.pairs, hz, Multiset.map_zero], hq⟩
  · obtain ⟨hplaced, hfloor, hle⟩ := h.placed.pops hpop
    refine Or.inr ⟨_, B', hq, ⟨h', hplaced⟩, ?_, hpop.pairs, hfloor⟩
    -- every pair is that of an item
    intro y hy
    obtain ⟨z, hz, rfl⟩ := Multiset.mem_map.mp hy
    exact hle z hz

theorem of_insert (hw : w ≤ 128) (h : Stands q B) {p : BitVec w} {v : α} {k : Key} {q' : Radix w α S}
    (hq : q.insert p v = .ok (k, q')) :
    B.floor ≤ p ∧ ∃ B', Stands q' B' ∧ B'.bag = { B.bag with items := (p, v) ::ₘ B.pairs } := by
  obtain ⟨hp, k', q₁, B', hq', h', hbag⟩ | ⟨-, herror⟩ := h.insert_cases hw p v
  · cases hq'.symm.trans hq
    exact ⟨hp, B', h', hbag⟩
  · cases herror.symm.trans hq

theorem of_insert_error (hw : w ≤ 128) (h : Stands q B) {p : BitVec w} {v : α} {f : Failure}
    (hq : q.insert p v = .error f) : ¬ B.floor ≤ p ∧ f = .belowFloor := by
  obtain ⟨-, k, q', -, hq', -⟩ | ⟨hp, herror⟩ := h.insert_cases hw p v
  · cases hq'.symm.trans hq
  · cases herror.symm.trans hq
    exact ⟨hp, rfl⟩

theorem floor_of_insert (hw : w ≤ 128) (h : Stands q B) {p : BitVec w} {v : α} {k : Key}
    {q' : Radix w α S} (hq : q.insert p v = .ok (k, q')) : q'.floor = q.floor := by
  obtain ⟨-, B', h', hbag⟩ := h.of_insert hw hq
  rw [h'.represents.floor_eq, h.represents.floor_eq]
  exact congrArg Bag.floor hbag

theorem of_pop (hw : w ≤ 128) (h : Stands q B) {found : Option (Popped (Radix w α S) (BitVec w) α)}
    (hq : q.pop = .ok found) :
    ∃ B', Stands ((found.map Popped.rest).getD q) B' ∧ Bag.Pop B.bag B'.bag (found.map Popped.item) := by
  obtain ⟨hz, hq'⟩ | ⟨top, B', hq', h', hpop⟩ := h.exists_pop hw
  · cases hq'.symm.trans hq
    exact ⟨B, h, hz, rfl⟩
  · cases hq'.symm.trans hq
    exact ⟨B', h', hpop⟩

theorem exists_pushAll (hw : w ≤ 128) (h : Stands q B) (items : List (BitVec w × α)) :
    ∃ B', Stands (PriorityQueue.pushAll q items).1 B' ∧
      Bag.PushAll B'.bag B.bag items (PriorityQueue.pushAll q items).2 := by
  induction items generalizing q B with
  | nil => exact ⟨B, h, rfl, rfl⟩
  | cons x rest ih =>
    obtain ⟨p, v⟩ := x
    have hpush : PriorityQueue.push q p v = (·.2) <$> q.insert p v := rfl
    rcases h.insert_cases hw p v with ⟨hp, k, q₁, B₁, hq, h₁, hb⟩ | ⟨hp, hq⟩
    · rw [hq, Result.map_ok] at hpush
      obtain ⟨B', h', hall⟩ := ih h₁
      refine ⟨B', by simpa only [PriorityQueue.pushAll, hpush] using h', ?_⟩
      rw [hb] at hall
      simpa only [PriorityQueue.pushAll, hpush, Bag.PushAll, Buckets.bag, if_pos hp] using hall
    · rw [hq, Result.map_error] at hpush
      refine ⟨B, by simpa only [PriorityQueue.pushAll, hpush] using h, ?_⟩
      simp only [PriorityQueue.pushAll, hpush, Bag.PushAll, Buckets.bag, if_neg hp, and_self]

theorem exists_popMany (hw : w ≤ 128) (n : Nat) (h : Stands q B) (hn : B.pairs.card = n) :
    ∃ d B', PriorityQueue.popMany n q = .ok d ∧ Stands d.rest B' ∧
      Bag.Drain B'.bag B.bag d.items := by
  induction n generalizing q B with
  | zero => exact ⟨⟨[], [], q⟩, B, rfl, h, Multiset.card_eq_zero.mp hn, rfl⟩
  | succ n ih =>
    rcases h.exists_pop hw with ⟨hz, -⟩ | ⟨top, B₁, hq, h₁, hpop⟩
    · simp [hz] at hn
    · have hcard : B.pairs.card = B₁.pairs.card + 1 := by
        rw [show B.pairs = _ from hpop.2.1, Multiset.card_cons]
        rfl
      obtain ⟨d, B', hd, h', hdrain⟩ := ih h₁ (by omega)
      exact ⟨_, B', PriorityQueue.popMany_succ hq hd, h', _, hpop, hdrain⟩

theorem exists_drain (hw : w ≤ 128) (h : Stands q B) :
    ∃ d B', PriorityQueue.drain q = .ok d ∧ Stands d.rest B' ∧ Bag.Drain B'.bag B.bag d.items := by
  obtain ⟨d, B', hd, hrest⟩ := h.exists_popMany hw _ rfl
  rw [← h.size_eq] at hd
  exact ⟨d, B', hd, hrest⟩

/-- Nothing that takes elements out goes wrong. -/
theorem not_breaks (hw : w ≤ 128) (h : Stands q B) {op : Op w α} {f : Failure} : ¬ op.Breaks q f := by
  rintro (⟨-, hq⟩ | hq)
  · obtain ⟨-, hq'⟩ | ⟨top, -, hq', -⟩ := h.exists_pop hw <;> cases hq'.symm.trans hq
  · obtain ⟨d, -, hq', -⟩ := h.exists_drain hw
    cases hq'.symm.trans hq

end Stands

namespace Session

/-- The session after operations carried out one after the other. -/
def after (s : Session w α S) (ops : List (Op w α)) : Session w α S :=
  ops.foldl (fun s op => (s.run op).state) s

theorem after_append (s : Session w α S) (ops : List (Op w α)) (op : Op w α) :
    s.after (ops ++ [op]) = ((s.after ops).run op).state := by
  rw [after, List.foldl_append]
  rfl

theorem look_allows {s : Session w α S} {B : Buckets w α} (h : Stands s.heap B) {op : Op w α}
    (hop : op.looks = true) : Bag.Allows B.bag op (s.run op).reply B.bag := by
  cases op with
  | queue op =>
    cases op with
    | size => exact ⟨congrArg Reply.count h.size_eq, rfl⟩
    | isEmpty => exact ⟨⟨_, rfl, h.isEmpty_iff⟩, rfl⟩
    | peek | describe => rfl
    | push | pushAll | pop | drain => cases hop
  | floor => exact ⟨congrArg Reply.priority h.represents.floor_eq, rfl⟩
  | contains | get | same => rfl
  | pushHandle | tryPush | tryPop | clear => cases hop

/-- An operation on a sound queue answers as the bag allows and leaves a sound queue. -/
theorem run_allows (hw : w ≤ 128) {s : Session w α S} {B : Buckets w α} (h : Stands s.heap B)
    (op : Op w α) :
    ∃ B', Stands (s.run op).state.heap B' ∧ Bag.Allows B.bag op (s.run op).reply B'.bag := by
  have hacts := s.run_acts op
  generalize s.run op = a at hacts
  cases hacts with
  | push hq =>
    obtain ⟨hp, B', h', hbag⟩ := h.of_insert hw hq
    exact ⟨B', h', .of_le hp rfl hbag⟩
  | issue hop hq =>
    obtain ⟨hp, B', h', hbag⟩ := h.of_insert hw hq
    refine ⟨B', h', ?_⟩
    cases hop <;> exact Bag.Push.of_le hp ⟨_, rfl⟩ hbag
  | refuse hop hq =>
    obtain ⟨hp, rfl⟩ := h.of_insert_error hw hq
    refine ⟨B, h, ?_⟩
    cases hop <;> exact Bag.Push.of_not_le hp rfl
  | @pushAll items heap f hq =>
    obtain ⟨B', h', hall⟩ := h.exists_pushAll hw items
    rw [hq] at h' hall
    exact ⟨B', h', f, hall, rfl⟩
  | pop hop hq =>
    obtain ⟨B', h', hpop⟩ := h.of_pop hw hq
    refine ⟨B', h', ?_⟩
    cases hop <;> exact ⟨_, hpop, rfl⟩
  | nothing hop hq =>
    obtain ⟨B', h', hpop⟩ := h.of_pop hw hq
    refine ⟨B', h', ?_⟩
    cases hop <;> exact ⟨_, hpop, rfl⟩
  | drain hq =>
    obtain ⟨d, B', hq', h', hdrain⟩ := h.exists_drain hw
    cases hq'.symm.trans hq
    exact ⟨B', h', _, hdrain, rfl⟩
  | look hop => exact ⟨B, h, look_allows h hop⟩
  | clear =>
    refine ⟨Buckets.empty, ⟨.clear _, .empty⟩, rfl, ?_⟩
    rw [Buckets.bag, Buckets.pairs, Buckets.items_empty]
    rfl
  | breakOff hop => exact absurd hop (h.not_breaks hw)

theorem exists_stands (hw : w ≤ 128) {s : Session w α S} {B : Buckets w α} (h : Stands s.heap B)
    (ops : List (Op w α)) : ∃ B', Stands (s.after ops).heap B' := by
  induction ops generalizing s B with
  | nil => exact ⟨B, h⟩
  | cons op rest ih =>
    obtain ⟨B', h', -⟩ := run_allows hw h op
    exact ih h'

/-- What the queue holds after operations is told by `held`: nothing at first, as many pairs as the
    queue counts, and after every further operation what a bag may hold then. -/
def TrackedBy (s : Session w α S) (held : List (Op w α) → Multiset (BitVec w × α)) : Prop :=
  held [] = 0 ∧ ∀ ops,
    (s.after ops).heap.size = (held ops).card ∧
    (PriorityQueue.isEmpty (s.after ops).heap = true ↔ held ops = 0) ∧
    ∀ op, Bag.Allows ⟨held ops, (s.after ops).heap.floor⟩ op ((s.after ops).run op).reply
      ⟨held (ops ++ [op]), (s.after (ops ++ [op])).heap.floor⟩

/-- A monotone queue is a bag, whatever is done with it: a push is taken in exactly at or above the
    floor, a pop takes one pair of least priority out, and nothing else comes or goes. -/
theorem run_refines_bag (hw : w ≤ 128) (n : Nat) (g : Gauge) :
    ∃ held, (ofHeap (Radix.emptyWithCapacity n g) : Session w α S).TrackedBy held := by
  have hstart : Stands (ofHeap (Radix.emptyWithCapacity n g) : Session w α S).heap Buckets.empty :=
    .emptyWithCapacity n g
  choose B hB using exists_stands hw hstart
  refine ⟨fun ops => (B ops).pairs, ?_, fun ops => ⟨(hB ops).size_eq, (hB ops).isEmpty_iff, ?_⟩⟩
  · show (B []).pairs = 0
    rw [(hB []).pairs_unique hstart, Buckets.pairs, Buckets.items_empty]
    rfl
  · intro op
    obtain ⟨B', h', hallows⟩ := run_allows hw (hB ops) op
    -- the choice for one operation more is what this one leaves
    have hnext := hB (ops ++ [op])
    rw [after_append] at hnext ⊢
    beta_reduce
    rw [hnext.pairs_unique h', h'.represents.floor_eq, (hB ops).represents.floor_eq]
    exact hallows

/-- Of two tied words of full width the younger comes out first, when the bucket of both is emptied, and
    a push below it is refused. -/
theorem run_refines_bag_words :
    let s : Session 128 String := ofHeap (Radix.emptyWithCapacity 7 .shifts)
    let ops : List (Op 128 String) := [.tryPush 9 "a", .queue (.push 12 "b"), .pushHandle 9 "c", .tryPop,
      .tryPush 8 "d", .queue .pop, .queue .size]
    128 ≤ 128 ∧ (∃ held, s.TrackedBy held) ∧
      (replay run s ops).map Answer.reply = [.handle 0, .done, .handle 1, .item (some (9, "c")),
        .rejected .belowFloor, .item (some (9, "a")), .count 1] ∧
      (replay run s ops).flatMap Answer.notices = [⟨4, 9, 2⟩] :=
  ⟨by decide, run_refines_bag (by decide) 7 .shifts, by decide +kernel, by decide +kernel⟩

end Session
end MonotoneQueue.Radix

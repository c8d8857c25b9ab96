import Mathlib
import MonotoneQueue.Proofs.PriorityQueue.Mirrored
import MonotoneQueue.Proofs.Radix.Coupled
import MonotoneQueue.Proofs.Radix.Description
import MonotoneQueue.Proofs.Radix.Handles
import MonotoneQueue.Proofs.Radix.Peek

/- Monotone queues that cannot be told apart. What a queue answers is a matter of its bucket lists, of the
   pairs in them and of the handles that name them, and neither of the keys under which it stores elements nor
   of the way it measures differences. So sessions mirror each other if their bucket lists match, in pairs and in
   the numbers of handles (`Session.Mirrors`). The first session may have issued handles before, which
   moves the numbers of all handles issued since (`Op.rename`). Every operation keeps this up and is
   answered the same (`Session.Mirrors.run`). -/
namespace MonotoneQueue

/-- Handles under other numbers. -/
def Reply.rename {κ α : Type} (f : Nat → Nat) : Reply κ α → Reply κ α
  | .handle n => .handle (f n)
  | .unknownHandle n => .unknownHandle (f n)
  | r => r

namespace Radix

variable {w : Nat} {α : Type} {S : Type → Type} [Storage S]

/-- Handles under other numbers. -/
def Op.rename (f : Nat → Nat) : Op w α → Op w α
  | .contains n => .contains (f n)
  | .get n => .get (f n)
  | .same m n => .same (f m) (f n)
  | op => op

/-! Other numbers do not make another kind of operation. -/

theorem Op.looks_rename (f : Nat → Nat) (op : Op w α) : (op.rename f).looks = op.looks := by
  cases op <;> rfl

theorem Op.Issues.rename {op : Op w α} {p : BitVec w} {v : α} (h : op.Issues p v) (f : Nat → Nat) :
    (op.rename f).Issues p v := by
  cases h with
  | pushHandle => exact .pushHandle p v
  | tryPush => exact .tryPush p v

theorem Op.Pushes.rename {op : Op w α} {p : BitVec w} {v : α} {refusal : Failure → Reply (BitVec w) α}
    (h : op.Pushes p v refusal) (f : Nat → Nat) :
    (op.rename f).Pushes p v refusal ∧ ∀ why, (refusal why).rename f = refusal why := by
  cases h with
  | push => exact ⟨.push p v, fun _ => rfl⟩
  | pushHandle => exact ⟨.pushHandle p v, fun _ => rfl⟩
  | tryPush => exact ⟨.tryPush p v, fun why => by cases why <;> rfl⟩

theorem Op.Pops.rename {op : Op w α} {reply : Reply (BitVec w) α} (h : op.Pops reply) (f : Nat → Nat) :
    (op.rename f).Pops reply ∧ reply.rename f = reply := by
  cases h with
  | pop => exact ⟨.pop, rfl⟩
  | tryPop => exact ⟨.tryPop, rfl⟩

/-- The items hold the same pair, and it has the same handle if the first `base` handles that go with the first
    item are left out. -/
structure Item.Same (base : Nat) (issued issued' : Array Key) (x y : Item w α) : Prop where
  pair_eq : x.pair = y.pair
  handle_iff : ∀ n, issued[base + n]? = some x.key ↔ issued'[n]? = some y.key

namespace Item.Same

variable {base : Nat} {issued issued' : Array Key} {x y : Item w α} {k l : Key}

theorem priority_eq (h : Item.Same base issued issued' x y) : x.priority = y.priority :=
  congrArg Prod.fst h.pair_eq

theorem of_unnamed (hk : ∀ n : Nat, issued[n]? ≠ some k) (hl : ∀ n : Nat, issued'[n]? ≠ some l)
    (p : BitVec w) (v : α) : Item.Same base issued issued' ⟨k, p, v⟩ ⟨l, p, v⟩ :=
  ⟨rfl, fun n => iff_of_false (hk (base + n)) (hl n)⟩

theorem getElem?_push (hsize : issued.size = base + issued'.size) (k : Key) (n : Nat) :
    (issued.push k)[base + n]? = if n = issued'.size then some k else issued[base + n]? := by
  rw [Array.getElem?_push, hsize]
  exact if_congr Nat.add_left_cancel_iff rfl rfl

/-- Items under other keys than those that the next handles go with. -/
theorem push (h : Item.Same base issued issued' x y) (hsize : issued.size = base + issued'.size)
    (hk : k ≠ x.key) (hl : l ≠ y.key) : Item.Same base (issued.push k) (issued'.push l) x y := by
  refine ⟨h.pair_eq, ?_⟩
  intro n
  rw [getElem?_push hsize, Array.getElem?_push]
  split
  · exact iff_of_false (fun e => hk (Option.some.inj e)) fun e => hl (Option.some.inj e)
  · exact h.handle_iff n

theorem of_push (hsize : issued.size = base + issued'.size) (hk : ∀ n : Nat, issued[n]? ≠ some k)
    (hl : ∀ n : Nat, issued'[n]? ≠ some l) (p : BitVec w) (v : α) :
    Item.Same base (issued.push k) (issued'.push l) ⟨k, p, v⟩ ⟨l, p, v⟩ := by
  refine ⟨rfl, ?_⟩
  intro n
  rw [getElem?_push hsize, Array.getElem?_push]
  split
  · exact iff_of_true rfl rfl
  · exact iff_of_false (hk (base + n)) (hl n)

end Item.Same

namespace Session

/-- What is told on the way, if handles are under other numbers. -/
def tellsAs (f : Nat → Nat) (s : Session w α S) (ops : List (Op w α)) :
    List (Reply (BitVec w) α × List (Notice (BitVec w))) :=
  (replay run s ops).map fun a => (a.reply.rename f, a.notices)

theorem Sound.getElem?_ne_some {s : Session w α S} (hs : s.Sound) {k : Key}
    (hk : ¬ Storage.Issued s.heap.nodes k) (n : Nat) : s.issued[n]? ≠ some k := by
  intro hn
  exact hk (hs.issued k (Array.mem_toList_iff.mpr (Array.mem_of_getElem? hn)))

/-! Sessions that mirror each other. -/

/-- The queues hold the same pairs at the same places of their lists, under the same handles if the first `base`
    handles of the first session are left out. -/
structure Mirrors (base : Nat) (s t : Session w α S) : Prop where
  left : s.Sound
  right : t.Sound
  size_eq : s.issued.size = base + t.issued.size
  matched : ∃ B C, Stands s.heap B ∧ Stands t.heap C ∧
    Buckets.Matches (Item.Same base s.issued t.issued) B C

namespace Mirrors

variable {base : Nat} {s t : Session w α S}

theorem of_empty (hs : s.Sound) (ht : t.Sound) (hsize : s.issued.size = base + t.issued.size)
    (hB : Stands s.heap Buckets.empty) (hC : Stands t.heap Buckets.empty) : Mirrors base s t :=
  ⟨hs, ht, hsize, _, _, hB, hC, .empty⟩

theorem named_eq (h : Mirrors base s t) (n : Nat) : s.named (base + n) = t.named n := by
  obtain ⟨B, C, hB, hC, hmatch⟩ := h.matched
  apply Option.ext
  intro x
  simp only [named, Option.bind_eq_some_iff]
  constructor
  · rintro ⟨k, hk, hx⟩
    obtain ⟨y, hy, hsame⟩ := hmatch.exists_item (hB.represents.get?_eq_some_iff.mp hx)
    refine ⟨y.key, (hsame.handle_iff n).mp hk, hC.represents.get?_eq_some_iff.mpr ?_⟩
    obtain rfl : x = y.pair := hsame.pair_eq
    exact hy
  · rintro ⟨k, hk, hx⟩
    obtain ⟨y, hy, hsame⟩ := hmatch.symm.exists_item (hC.represents.get?_eq_some_iff.mp hx)
    refine ⟨y.key, (hsame.handle_iff n).mpr hk, hB.represents.get?_eq_some_iff.mpr ?_⟩
    obtain rfl : y.pair = x := hsame.pair_eq
    exact hy

/-! Single pushes and pops. -/

/-- What goes in goes into both, and the sessions mirror each other also if both issue a handle for it. -/
theorem insert (hw : w ≤ 128) (h : Mirrors base s t) (p : BitVec w) (v : α) :
    Result.Rel (fun r r' => Mirrors base { s with heap := r.2 } { t with heap := r'.2 } ∧
      Mirrors base (s.issue r.1 r.2) (t.issue r'.1 r'.2)) (s.heap.insert p v) (t.heap.insert p v) := by
  obtain ⟨B, C, hB, hC, hmatch⟩ := h.matched
  by_cases hp : B.floor ≤ p
  · have hp' : C.floor ≤ p := hmatch.floor_eq ▸ hp
    obtain ⟨q, hq, hB'⟩ := hB.represents.exists_insert hw hp v
    obtain ⟨q', hq', hC'⟩ := hC.represents.exists_insert hw hp' v
    have hadds := hB.insert_adds hw hq
    have hadds' := hC.insert_adds hw hq'
    have hstands : Stands q _ := ⟨hB', hB.placed.place hp⟩
    have hstands' : Stands q' _ := ⟨hC', hC.placed.place hp'⟩
    have hfresh := h.left.getElem?_ne_some hadds.fresh
    have hfresh' := h.right.getElem?_ne_some hadds'.fresh
    rw [hq, hq']
    refine .ok ⟨?_, ?_⟩
    · have hs := h.left.before hadds.before ⟨_, hstands⟩
      have ht := h.right.before hadds'.before ⟨_, hstands'⟩
      exact ⟨hs, ht, h.size_eq, _, _, hstands, hstands',
        hmatch.place (fun _ _ => Item.Same.priority_eq) (.of_unnamed hfresh hfresh' p v)⟩
    · -- the items that were there before have other keys
      have hold : Buckets.Matches (Item.Same base (s.issue (Storage.nextKey s.heap.nodes) q).issued
          (t.issue (Storage.nextKey t.heap.nodes) q').issued) B C := by
        refine hmatch.imp ?_
        intro x hx y hy hsame
        exact hsame.push h.size_eq (fun e => hadds.fresh (e ▸ hB.issued_key hx))
          fun e => hadds'.fresh (e ▸ hC.issued_key hy)
      have hs := h.left.issue hadds ⟨_, hstands⟩
      have ht := h.right.issue hadds' ⟨_, hstands'⟩
      refine ⟨hs, ht, ?_, _, _, hstands, hstands',
        hold.place (fun _ _ => Item.Same.priority_eq) (.of_push h.size_eq hfresh hfresh' p v)⟩
      rw [Session.issue, Session.issue, Array.size_push, Array.size_push, h.size_eq, Nat.add_assoc]
  · rw [hB.represents.insert_eq_error (BitVec.not_le.mp hp),
      hC.represents.insert_eq_error (BitVec.not_le.mp (hmatch.floor_eq ▸ hp))]
    exact .error .belowFloor

theorem pop (hw : w ≤ 128) (h : Mirrors base s t) :
    Result.Rel (Option.Rel (Popped.Mirrors fun q q' => Mirrors base { s with heap := q } { t with heap := q' }))
      s.heap.pop t.heap.pop := by
  obtain ⟨B, C, hB, hC, hmatch⟩ := h.matched
  obtain ⟨hzero, hq⟩ | ⟨x, n, B', q, hpop, hq, hB'⟩ := hB.represents.exists_pop hw
  · obtain ⟨-, hq'⟩ | ⟨y, n', C', q', hpop', -, -⟩ := hC.represents.exists_pop hw
    · rw [hq, hq']
      exact .ok .none
    · have hitems := hpop'.items
      rw [hmatch.items_eq_zero_iff.mp hzero] at hitems
      exact absurd hitems.symm Multiset.cons_ne_zero
  · obtain ⟨hzero, -⟩ | ⟨y, n', C', q', hpop', hq', hC'⟩ := hC.represents.exists_pop hw
    · have hitems := hpop.items
      rw [hmatch.items_eq_zero_iff.mpr hzero] at hitems
      exact absurd hitems.symm Multiset.cons_ne_zero
    · obtain ⟨hsame, rfl, hmatch'⟩ := hmatch.pops (fun _ _ => Item.Same.priority_eq) hpop hpop'
      have hstands : Stands q B' := ⟨hB', (hB.placed.pops hpop).1⟩
      have hstands' : Stands q' C' := ⟨hC', (hC.placed.pops hpop').1⟩
      have hs := h.left.before (before_of_pop hq) ⟨_, hstands⟩
      have ht := h.right.before (before_of_pop hq') ⟨_, hstands'⟩
      rw [hq, hq']
      exact .ok (.some ⟨hsame.pair_eq, rfl, hs, ht, h.size_eq, _, _, hstands, hstands', hmatch'⟩)

/-! Whole operations. -/

theorem floor_eq (h : Mirrors base s t) : s.heap.floor = t.heap.floor := by
  obtain ⟨B, C, hB, hC, hmatch⟩ := h.matched
  rw [hB.represents.floor_eq, hC.represents.floor_eq, hmatch.floor_eq]

theorem priorities_eq (h : Mirrors base s t) : s.heap.priorities = t.heap.priorities := by
  obtain ⟨B, C, hB, hC, hmatch⟩ := h.matched
  rw [hB.represents.priorities_eq, hC.represents.priorities_eq,
    hmatch.map_items fun _ _ => Item.Same.priority_eq]

theorem peek_eq (hw : w ≤ 128) (h : Mirrors base s t) : s.heap.peek = t.heap.peek := by
  obtain ⟨B, C, hB, hC, -⟩ := h.matched
  have hpop := h.pop hw
  obtain ⟨found, hq⟩ : ∃ found, s.heap.pop = .ok found := by
    obtain ⟨-, hq⟩ | ⟨-, top, hq⟩ := hB.pop_of_size hw <;> exact ⟨_, hq⟩
  obtain ⟨found', hq'⟩ : ∃ found, t.heap.pop = .ok found := by
    obtain ⟨-, hq⟩ | ⟨-, top, hq⟩ := hC.pop_of_size hw <;> exact ⟨_, hq⟩
  rw [hq, hq'] at hpop
  rw [peek_of_pop hq, peek_of_pop hq']
  cases hpop with
  | ok hfound =>
    cases hfound with
    | none => rfl
    | some htop => rw [Option.map_some, Option.map_some, htop.item_eq]

theorem heap_size_eq (h : Mirrors base s t) : s.heap.size = t.heap.size := by
  obtain ⟨B, C, hB, hC, -⟩ := h.matched
  rw [hB.size_eq_card, hC.size_eq_card, h.priorities_eq]

theorem layout_eq (h : Mirrors base s t) : s.heap.layout = t.heap.layout := by
  obtain ⟨B, C, hB, hC, -⟩ := h.matched
  rw [hB.layout_eq, hC.layout_eq, h.floor_eq, h.priorities_eq]

/-- The queues take in and give out the same as long as no handles are issued. -/
theorem mirror (hw : w ≤ 128) (base : Nat) (issued issued' : Array Key) : PriorityQueue.Mirror
    fun q q' : Radix w α S => Mirrors base (⟨q, issued⟩ : Session w α S) ⟨q', issued'⟩ := by
  constructor
  case size_eq =>
    intro q q' h
    exact h.heap_size_eq
  case push =>
    intro q q' h p v
    exact (h.insert hw p v).map fun r r' hr => hr.1
  case pop =>
    intro q q' h
    exact h.pop hw

theorem clear (h : Mirrors base s t) :
    Mirrors base { s with heap := s.heap.clear } { t with heap := t.heap.clear } := by
  have hs := h.left.before (.clear _) ⟨_, .clear _, .empty⟩
  have ht := h.right.before (.clear _) ⟨_, .clear _, .empty⟩
  exact of_empty hs ht h.size_eq ⟨.clear _, .empty⟩ ⟨.clear _, .empty⟩

theorem look (hw : w ≤ 128) (h : Mirrors base s t) {op : Op w α} (hop : op.looks = true) :
    (s.run (op.rename (base + ·))).reply = (t.run op).reply.rename (base + ·) := by
  cases op with
  | queue op =>
    cases op with
    | peek =>
      have hpeek : PriorityQueue.peek s.heap = PriorityQueue.peek t.heap := h.peek_eq hw
      simp only [Op.rename, Session.run, PriorityQueue.Op.run, hpeek]
      split <;> rfl
    | size => exact congrArg Reply.count h.heap_size_eq
    | isEmpty => exact congrArg (fun n => Reply.flag (n == 0)) h.heap_size_eq
    | describe style => exact congrArg (fun l => Reply.text (some (l.render style))) h.layout_eq
    | push | pushAll | pop | drain => cases hop
  | floor => exact congrArg Reply.priority h.floor_eq
  | contains n =>
    simp only [Op.rename, run_contains, h.size_eq, Nat.add_lt_add_iff_left, h.named_eq]
    split <;> rfl
  | get n =>
    simp only [Op.rename, run_get, h.size_eq, Nat.add_lt_add_iff_left, h.named_eq]
    split <;> rfl
  | same m n =>
    simp only [Op.rename, h.left.run_same, h.right.run_same, h.size_eq, Nat.add_lt_add_iff_left,
      Nat.add_left_cancel_iff]
    split
    · split <;> rfl
    · rfl
  | pushHandle | tryPush | tryPop | clear => cases hop

/-- What the second session does, the first one does as well. -/
theorem acts (hw : w ≤ 128) (h : Mirrors base s t) {op : Op w α} {b : Answer (Session w α S) (BitVec w) α}
    (hacts : t.Acts op b) :
    ∃ a, s.Acts (op.rename (base + ·)) a ∧ a.told = (b.reply.rename (base + ·), b.notices) ∧
      Mirrors base a.state b.state := by
  have hmirror := mirror (α := α) (S := S) hw base s.issued t.issued
  cases hacts with
  | push hq =>
    obtain ⟨r, hq', hrest, -⟩ := (h.insert hw _ _).of_ok hq
    exact ⟨_, .push hq', rfl, hrest⟩
  | issue hop hq =>
    obtain ⟨r, hq', -, hrest⟩ := (h.insert hw _ _).of_ok hq
    have htold := congrArg (fun n => ((Reply.handle n : Reply (BitVec w) α), ([] : List (Notice (BitVec w)))))
      h.size_eq
    exact ⟨_, .issue (hop.rename _) hq', htold, hrest⟩
  | refuse hop hq =>
    have hq' := (h.insert hw _ _).of_error hq
    obtain ⟨hop', hsame⟩ := hop.rename (base + ·)
    exact ⟨_, .refuse hop' hq', congrArg (·, []) (hsame _).symm, h⟩
  | @pushAll items heap f hq =>
    obtain ⟨hrest, hend⟩ := hmirror.pushAll h items
    rw [hq] at hrest hend
    refine ⟨_, .pushAll rfl, ?_, hrest⟩
    rw [hend]
    cases f <;> rfl
  | pop hop hq =>
    obtain ⟨found, hq', hfound⟩ := (h.pop hw).of_ok hq
    cases hfound with
    | some htop =>
      have htold := congrArg₂ (fun x n => ((Reply.item (some x) : Reply (BitVec w) α), Option.toList n))
        htop.item_eq htop.notice_eq
      exact ⟨_, .pop (hop.rename _).1 hq', htold, htop.rest⟩
  | nothing hop hq =>
    obtain ⟨found, hq', hfound⟩ := (h.pop hw).of_ok hq
    cases hfound with
    | none =>
      obtain ⟨hop', hsame⟩ := hop.rename (base + ·)
      exact ⟨_, .nothing hop' hq', congrArg (·, []) hsame.symm, h⟩
  | drain hq =>
    obtain ⟨d, hq', hd⟩ := (hmirror.drain h).of_ok hq
    exact ⟨_, .drain hq', congrArg₂ (fun xs ns => (Reply.items xs, ns)) hd.items_eq hd.notices_eq, hd.rest⟩
  | look hop =>
    exact ⟨_, .look ((op.looks_rename _).trans hop), congrArg (fun r => (r, [])) (h.look hw hop), h⟩
  | clear => exact ⟨_, .clear, rfl, h.clear⟩
  | breakOff hop =>
    obtain ⟨B, C, -, hC, -⟩ := h.matched
    exact absurd hop (hC.not_breaks hw)

/-- An operation is answered the same, and the sessions mirror each other afterwards. -/
theorem run (hw : w ≤ 128) (h : Mirrors base s t) (op : Op w α) :
    (s.run (op.rename (base + ·))).told = ((t.run op).reply.rename (base + ·), (t.run op).notices) ∧
      Mirrors base (s.run (op.rename (base + ·))).state (t.run op).state := by
  obtain ⟨a, ha, htold, hstate⟩ := h.acts hw (t.run_acts op)
  rw [ha.run_eq]
  exact ⟨htold, hstate⟩

theorem told_eq (hw : w ≤ 128) (h : Mirrors base s t) (ops : List (Op w α)) :
    (replay Session.run s (ops.map (Op.rename (base + ·)))).map Answer.told = t.tellsAs (base + ·) ops := by
  induction ops generalizing s t with
  | nil => rfl
  | cons op rest ih =>
    obtain ⟨htold, hstate⟩ := h.run hw op
    exact congrArg₂ List.cons htold (ih hstate)

end Mirrors
end Session
end Radix
end MonotoneQueue

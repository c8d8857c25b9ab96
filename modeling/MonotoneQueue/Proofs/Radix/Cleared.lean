import Mathlib
import MonotoneQueue.Proofs.PriorityQueue.Foretells
import MonotoneQueue.Proofs.Radix.Mirrored

/- A queue that was cleared is as good as a new one (`Session.clear_asNew`). Its storage is not: places
   where elements were stored are used again under other keys than in a new one, and the handles issued before
   still count. But its bucket lists are those of a new queue, no item in them goes with an old handle, and so it
   mirrors a new queue from there on, whatever is done next. -/
namespace MonotoneQueue.Radix

variable {w : Nat} {α : Type} {S : Type → Type} [Storage S]

/-- The operation does not ask about the first `base` handles. -/
def Op.recent (base : Nat) : Op w α → Bool
  | .contains n => base ≤ n
  | .get n => base ≤ n
  | .same m n => base ≤ m && base ≤ n
  | _ => true

theorem Op.looks_of_not_recent {base : Nat} {op : Op w α} (h : op.recent base = false) : op.looks = true := by
  cases op with
  | contains | get | same => rfl
  | queue | pushHandle | tryPush | tryPop | floor | clear => cases h

theorem Op.rename_sub {base : Nat} {op : Op w α} (h : op.recent base = true) :
    (op.rename (· - base)).rename (base + ·) = op := by
  cases op with
  | contains n =>
    have hn : base ≤ n := of_decide_eq_true h
    exact congrArg Op.contains (Nat.add_sub_cancel' hn)
  | get n =>
    have hn : base ≤ n := of_decide_eq_true h
    exact congrArg Op.get (Nat.add_sub_cancel' hn)
  | same m n =>
    obtain ⟨hm, hn⟩ := Bool.and_eq_true_iff.mp h
    exact congrArg₂ Op.same (Nat.add_sub_cancel' (of_decide_eq_true hm))
      (Nat.add_sub_cancel' (of_decide_eq_true hn))
  | queue | pushHandle | tryPush | tryPop | floor | clear => rfl

theorem Op.map_rename_sub (base : Nat) (ops : List (Op w α)) :
    ((ops.filter (recent base)).map (rename (· - base))).map (rename (base + ·)) = ops.filter (recent base) := by
  rw [List.map_map]
  calc (ops.filter (recent base)).map (rename (base + ·) ∘ rename (· - base))
      = (ops.filter (recent base)).map id :=
        List.map_congr_left fun op hop => rename_sub (List.mem_filter.mp hop).2
    _ = ops.filter (recent base) := List.map_id _

namespace Session

/-- The first session cannot be told from the second by the handles that it issues from now on, and those that
    it has issued name nothing ever again. -/
structure AsNew (s t : Session w α S) : Prop where
  /-- Operations that ask about old handles may come in between and make no difference. -/
  told_eq : ∀ ops, ((s.transcript ops).filter fun x => x.1.recent s.issued.size).map (fun x => x.2.told) =
    t.tellsAs (s.issued.size + ·) ((ops.filter (Op.recent s.issued.size)).map (Op.rename (· - s.issued.size)))
  contains_old : ∀ ops, ∀ n < s.issued.size, ((s.after ops).run (.contains n)).reply = .flag false
  get_old : ∀ ops, ∀ n < s.issued.size, ((s.after ops).run (.get n)).reply = .item none

/-- Operations that ask about old handles leave the others as they are. -/
theorem transcript_recent (base : Nat) (s : Session w α S) (ops : List (Op w α)) :
    ((s.transcript ops).filter fun x => x.1.recent base).map (fun x => x.2.told) =
      (replay run s (ops.filter (Op.recent base))).map Answer.told := by
  induction ops generalizing s with
  | nil => rfl
  | cons op rest ih =>
    rw [transcript_cons]
    cases hop : op.recent base with
    | true =>
      rw [List.filter_cons_of_pos (by exact hop), List.filter_cons_of_pos hop, List.map_cons, ih]
      rfl
    | false =>
      -- to ask about a handle leaves the session as it was, so the rest starts from the same state
      rw [List.filter_cons_of_neg (by simp [hop]), List.filter_cons_of_neg (by simp [hop]),
        s.state_eq_of_looks (Op.looks_of_not_recent hop), ih]

theorem Mirrors.asNew {s t : Session w α S} (hw : w ≤ 128) (h : Mirrors s.issued.size s t)
    (hgone : ∀ n < s.issued.size, s.named n = none) : s.AsNew t := by
  have hold : ∀ ops, ∀ n < s.issued.size, n < (s.after ops).issued.size ∧ (s.after ops).named n = none :=
    fun ops n hn => (h.left.identifies hw).gone ops n hn (hgone n hn)
  constructor
  case told_eq =>
    intro ops
    rw [transcript_recent, ← h.told_eq hw, Op.map_rename_sub]
  case contains_old =>
    intro ops n hn
    obtain ⟨hlt, hnone⟩ := hold ops n hn
    rw [run_contains, if_pos hlt, hnone]
    rfl
  case get_old =>
    intro ops n hn
    obtain ⟨hlt, hnone⟩ := hold ops n hn
    rw [run_get, if_pos hlt, hnone]

/-- Whatever was done with a queue before, once it is cleared it is as good as a new one. -/
theorem clear_asNew (hw : w ≤ 128) (n m : Nat) (g g' : Gauge) (before : List (Op w α)) :
    (((ofHeap (emptyWithCapacity n g) : Session w α S).after before).run .clear).state.AsNew
      (ofHeap (emptyWithCapacity m g')) := by
  have hbefore := (Sound.ofHeap (S := S) n g).after hw before
  have hmirrors := Mirrors.of_empty (hbefore.run hw .clear) (Sound.ofHeap m g') rfl ⟨.clear _, .empty⟩
    (.emptyWithCapacity m g')
  exact hmirrors.asNew hw fun k _ => (hbefore.identifies hw).empties .clear (.inl rfl) k

/-- Places are used again, and handle 1 of the cleared queue is asked for next to handles 0 and 1 of a
    new one. -/
theorem clear_asNew_reuse :
    let s : Session 8 Nat := (((ofHeap (emptyWithCapacity 2 .leadingZeros)).after
      [.tryPush 40 0, .tryPush 50 1, .tryPop]).run .clear).state
    let ops : List (Op 8 Nat) := [.tryPush 9 2, .contains 1, .pushHandle 9 3, .queue .size, .tryPop, .get 3,
      .same 2 3, .get 2, .queue (.describe .compact)]
    8 ≤ 128 ∧ s.AsNew (ofHeap (emptyWithCapacity 4 .shifts)) ∧
      (s.transcript ops).map (fun x => x.2.reply) = [.handle 2, .flag false, .handle 3, .count 2,
        .item (some (9, 3)), .item none, .flag false, .item (some (9, 2)),
        .text (some "RadixHeap \x7b len: 1, minimum: 9, occupied_buckets: [0] \x7d")] ∧
      (s.after ops).issued = #[⟨0, 0⟩, ⟨1, 0⟩, ⟨0, 1⟩, ⟨1, 1⟩] :=
  ⟨by decide, clear_asNew (by decide) _ _ _ _ _, by decide +kernel, by decide +kernel⟩

end Session
end MonotoneQueue.Radix

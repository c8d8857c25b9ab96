import Mathlib
import MonotoneQueue.Proofs.Radix.Bag

/- The floor of a monotone queue, told by what was popped. The floor is written only where a bucket is
   emptied, but a bag moves it with every pop, so it always is the priority popped last since the queue
   was cleared (`Bag.Recorded`, kept by every operation). What is popped therefore never falls, and a
   push is refused exactly below what was popped last. An operation in vain leaves everything as it was:
   that there is nothing to pop, or that a push is below the floor, is found out before anything is
   changed. So a run without these is the same run (`Session.transcript_kept`). -/
namespace MonotoneQueue.Radix

variable {w : Nat} {α : Type} {S : Type → Type} [Storage S]

/-! Records of a run. -/

namespace Op

/-- The priorities that an operation took out, given what it answered. -/
def taken : Op w α → Reply (BitVec w) α → List (BitVec w)
  | .queue .pop, .item found => found.toList.map Prod.fst
  | .tryPop, .item found => found.toList.map Prod.fst
  | .queue .drain, .items found => found.map Prod.fst
  | _, _ => []

/-- The priorities taken out since the queue was cleared, after one more operation. -/
def record (ps : List (BitVec w)) (op : Op w α) (r : Reply (BitVec w) α) : List (BitVec w) :=
  match op with
  | .clear => []
  | op => ps ++ op.taken r

/-- The operation is one push that was refused or one pop that found nothing. -/
def inVain : Op w α → Reply (BitVec w) α → Bool
  | .queue (.push _ _), .aborted .belowFloor => true
  | .pushHandle _ _, .aborted .belowFloor => true
  | .tryPush _ _, .rejected .belowFloor => true
  | .queue .pop, .item none => true
  | .tryPop, .rejected .empty => true
  | _, _ => false

end Op

namespace Session

/-- The operations with what each of them answered and left. -/
def transcript (s : Session w α S) (ops : List (Op w α)) :
    List (Op w α × Answer (Session w α S) (BitVec w) α) :=
  ops.zip (replay run s ops)

/-- The priorities popped since the queue was last cleared, in order. -/
def popped (s : Session w α S) (ops : List (Op w α)) : List (BitVec w) :=
  (s.transcript ops).foldl (fun ps x => x.1.record ps x.2.reply) []

/-- The priority popped last since the queue was last cleared, and zero if there is none. -/
def lastPopped (s : Session w α S) (ops : List (Op w α)) : BitVec w := (s.popped ops).getLastD 0#w

/-- The part of a transcript that is not in vain. -/
def kept (s : Session w α S) (ops : List (Op w α)) :
    List (Op w α × Answer (Session w α S) (BitVec w) α) :=
  (s.transcript ops).filter fun x => !x.1.inVain x.2.reply

theorem transcript_cons (s : Session w α S) (op : Op w α) (ops : List (Op w α)) :
    s.transcript (op :: ops) = (op, s.run op) :: (s.run op).state.transcript ops := rfl

end Session

/-! The floor of a bag. -/

namespace Bag

/-- These were popped since the bag was cleared: the floor is the last of them, they never fall, and no
    item is below. -/
structure Recorded (b : Bag w α) (ps : List (BitVec w)) : Prop where
  floor_eq : b.floor = ps.getLastD 0#w
  rising : ps.Pairwise (· ≤ ·)
  le_floor : ∀ p ∈ ps, p ≤ b.floor
  floor_le : ∀ x ∈ b.items, b.floor ≤ x.1

namespace Recorded

variable {b b' : Bag w α} {ps : List (BitVec w)}

theorem empty : (⟨0, 0#w⟩ : Bag w α).Recorded [] :=
  ⟨rfl, .nil, nofun, fun _ hx => absurd hx (Multiset.notMem_zero _)⟩

theorem insert (h : b.Recorded ps) {p : BitVec w} (hp : b.floor ≤ p) (v : α) :
    Recorded { b with items := (p, v) ::ₘ b.items } ps := by
  refine ⟨h.floor_eq, h.rising, h.le_floor, ?_⟩
  intro x hx
  rcases Multiset.mem_cons.mp hx with rfl | hx
  · exact hp
  · exact h.floor_le x hx

theorem push (h : b.Recorded ps) {p : BitVec w} {v : α} {accepted refused : Prop}
    (hpush : Push b b' p v accepted refused) : b'.Recorded ps := by
  rw [Push] at hpush
  split at hpush
  · next hp =>
    rw [hpush.2]
    exact h.insert hp v
  · rw [hpush.2]
    exact h

theorem pushAll {items : List (BitVec w × α)} {f : Option Failure} (h : b.Recorded ps)
    (hpush : PushAll b' b items f) : b'.Recorded ps := by
  induction items generalizing b with
  | nil =>
    rw [hpush.2]
    exact h
  | cons x rest ih =>
    rw [PushAll] at hpush
    split at hpush
    · next hp => exact ih (h.insert hp x.2) hpush
    · rw [hpush.2]
      exact h

theorem pop {x : BitVec w × α} (h : b.Recorded ps) (hpop : Pop b b' (some x)) :
    b'.Recorded (ps ++ [x.1]) := by
  obtain ⟨hleast, hitems, hfloor⟩ := hpop
  -- the floor moves up to what comes out
  have hmem : x ∈ b.items := by
    rw [hitems]
    exact Multiset.mem_cons_self _ _
  have hle : ∀ p ∈ ps, p ≤ x.1 := fun p hp => BitVec.le_trans (h.le_floor p hp) (h.floor_le x hmem)
  constructor
  case floor_eq => rw [hfloor, List.getLastD_concat]
  case rising =>
    refine List.pairwise_append.mpr ⟨h.rising, List.pairwise_singleton _ _, ?_⟩
    intro p hp q hq
    rw [List.mem_singleton.mp hq]
    exact hle p hp
  case le_floor =>
    rw [hfloor]
    intro p hp
    rcases List.mem_append.mp hp with hp | hp
    · exact hle p hp
    · rw [List.mem_singleton.mp hp]
      exact BitVec.le_refl _
  case floor_le =>
    rw [hfloor]
    intro y hy
    apply hleast
    rw [hitems]
    exact Multiset.mem_cons_of_mem hy

theorem pops {found : Option (BitVec w × α)} (h : b.Recorded ps) (hpop : Pop b b' found) :
    b'.Recorded (ps ++ found.toList.map Prod.fst) := by
  cases found with
  | none =>
    rw [hpop.2]
    simpa using h
  | some x => exact h.pop hpop

theorem drain {found : List (BitVec w × α)} (h : b.Recorded ps) (hdrain : Drain b' b found) :
    b'.Recorded (ps ++ found.map Prod.fst) := by
  induction found generalizing b ps with
  | nil => exact h.pops hdrain
  | cons x rest ih =>
    obtain ⟨c, hpop, hrest⟩ := hdrain
    rw [List.map_cons, List.append_cons]
    exact ih (h.pop hpop) hrest

theorem allows {op : Op w α} {r : Reply (BitVec w) α} (h : b.Recorded ps)
    (hallows : Allows b op r b') : b'.Recorded (op.record ps r) := by
  -- what is not a pop takes nothing out
  have hnone : b'.Recorded ps → b'.Recorded (ps ++ []) := by
    intro h'
    rwa [List.append_nil]
  cases op with
  | queue op =>
    cases op with
    | push p v => exact hnone (h.push hallows)
    | pushAll items =>
      obtain ⟨f, hpush, -⟩ := hallows
      exact hnone (h.pushAll hpush)
    | pop =>
      obtain ⟨found, hpop, rfl⟩ := hallows
      exact h.pops hpop
    | peek => exact hnone (hallows ▸ h)
    | drain =>
      obtain ⟨found, hdrain, rfl⟩ := hallows
      exact h.drain hdrain
    | size => exact hnone (hallows.2 ▸ h)
    | isEmpty => exact hnone (hallows.2 ▸ h)
    | describe style => exact hnone (hallows ▸ h)
  | pushHandle p v => exact hnone (h.push hallows)
  | tryPush p v => exact hnone (h.push hallows)
  | tryPop =>
    obtain ⟨found, hpop, rfl⟩ := hallows
    cases found with
    | none => exact h.pops hpop
    | some x => exact h.pops hpop
  | floor => exact hnone (hallows.2 ▸ h)
  | contains n => exact hnone (hallows ▸ h)
  | get n => exact hnone (hallows ▸ h)
  | same m n => exact hnone (hallows ▸ h)
  | clear =>
    rw [hallows.2]
    exact .empty

end Recorded
end Bag

namespace Session

theorem exists_recorded (hw : w ≤ 128) {s : Session w α S} {B : Buckets w α} {ps : List (BitVec w)}
    (h : Stands s.heap B) (hps : B.bag.Recorded ps) (ops : List (Op w α)) :
    ∃ B', Stands (s.after ops).heap B' ∧
      B'.bag.Recorded ((s.transcript ops).foldl (fun ps x => x.1.record ps x.2.reply) ps) := by
  induction ops generalizing s B ps with
  | nil => exact ⟨B, h, hps⟩
  | cons op rest ih =>
    obtain ⟨B', h', hallows⟩ := run_allows hw h op
    exact ih h' (hps.allows hallows)

/-! Operations in vain. -/

theorem state_eq_of_inVain (s : Session w α S) (op : Op w α)
    (h : op.inVain (s.run op).reply = true) : (s.run op).state = s := by
  have hacts := s.run_acts op
  generalize s.run op = a at hacts h
  cases hacts with
  | refuse | nothing | look | breakOff => rfl
  | push | pushAll | drain | clear => cases h
  | issue hop => cases hop <;> cases h
  | pop hop => cases hop <;> cases h

/-- An operation is kept with its answer, or it changes nothing. -/
theorem kept_cons (s : Session w α S) (op : Op w α) (rest : List (Op w α)) :
    s.kept (op :: rest) = (op, s.run op) :: (s.run op).state.kept rest ∨
      ((s.run op).state = s ∧ s.kept (op :: rest) = s.kept rest) := by
  rw [kept, transcript_cons, List.filter_cons]
  split
  · exact Or.inl rfl
  · next h =>
    have hstate : (s.run op).state = s := s.state_eq_of_inVain op (by simpa using h)
    exact Or.inr ⟨hstate, by rw [hstate]; rfl⟩

/-- Without the operations in vain every other one answers and leaves the same. -/
theorem transcript_kept (s : Session w α S) (ops : List (Op w α)) :
    s.transcript ((s.kept ops).map Prod.fst) = s.kept ops := by
  induction ops generalizing s with
  | nil => rfl
  | cons op rest ih =>
    rcases s.kept_cons op rest with hkept | ⟨-, hkept⟩
    · rw [hkept, List.map_cons, transcript_cons]
      exact congrArg _ (ih _)
    · rw [hkept]
      exact ih s

theorem after_kept (s : Session w α S) (ops : List (Op w α)) :
    s.after ((s.kept ops).map Prod.fst) = s.after ops := by
  induction ops generalizing s with
  | nil => rfl
  | cons op rest ih =>
    rcases s.kept_cons op rest with hkept | ⟨hstate, hkept⟩
    · rw [hkept]
      exact ih _
    · calc s.after ((s.kept (op :: rest)).map Prod.fst) = s.after rest := by rw [hkept, ih]
        _ = (s.run op).state.after rest := by rw [hstate]
        _ = s.after (op :: rest) := rfl

/-! The law. -/

/-- A push is refused below `low` and taken in otherwise, however it is asked for. -/
structure Gated (s : Session w α S) (low : BitVec w) : Prop where
  push : ∀ p v, (s.run (.queue (.push p v))).reply =
    if p < low then .aborted .belowFloor else .done
  pushHandle : ∀ p v, (s.run (.pushHandle p v)).reply =
    if p < low then .aborted .belowFloor else .handle s.issued.size
  tryPush : ∀ p v, (s.run (.tryPush p v)).reply =
    if p < low then .rejected .belowFloor else .handle s.issued.size

/-- The floor is what was popped last since the queue was cleared, what is popped never falls, pushes are
    refused exactly below what was popped last, and operations in vain make no difference. -/
structure KeepsFloor (s : Session w α S) : Prop where
  floor_reply : ∀ ops, ((s.after ops).run .floor).reply = .priority (s.lastPopped ops)
  rising : ∀ ops, (s.popped ops).Pairwise (· ≤ ·)
  gated : ∀ ops, (s.after ops).Gated (s.lastPopped ops)
  transcript_kept : ∀ ops, s.transcript ((s.kept ops).map Prod.fst) = s.kept ops
  after_kept : ∀ ops, s.after ((s.kept ops).map Prod.fst) = s.after ops

/-- The floor of a sound queue is where pushes are refused. -/
theorem gated_floor (hw : w ≤ 128) {s : Session w α S} {B : Buckets w α} (h : Stands s.heap B) :
    s.Gated B.floor := by
  constructor
  case push =>
    intro p v
    rcases h.insert_cases hw p v with ⟨hp, k, q', B', hq, -⟩ | ⟨hp, hq⟩
    · rw [(Acts.push hq).run_eq, if_neg (BitVec.not_lt.mpr hp)]
    · rw [(Acts.refuse (.push p v) hq).run_eq, if_pos (BitVec.not_le.mp hp)]
  case pushHandle =>
    intro p v
    rcases h.insert_cases hw p v with ⟨hp, k, q', B', hq, -⟩ | ⟨hp, hq⟩
    · rw [(Acts.issue (.pushHandle p v) hq).run_eq, if_neg (BitVec.not_lt.mpr hp)]
    · rw [(Acts.refuse (.pushHandle p v) hq).run_eq, if_pos (BitVec.not_le.mp hp)]
  case tryPush =>
    intro p v
    rcases h.insert_cases hw p v with ⟨hp, k, q', B', hq, -⟩ | ⟨hp, hq⟩
    · rw [(Acts.issue (.tryPush p v) hq).run_eq, if_neg (BitVec.not_lt.mpr hp)]
    · rw [(Acts.refuse (.tryPush p v) hq).run_eq, if_pos (BitVec.not_le.mp hp), refusal]

/-- A new queue keeps its floor, whatever is done with it. -/
theorem new_keepsFloor (hw : w ≤ 128) (n : Nat) (g : Gauge) :
    (ofHeap (emptyWithCapacity n g) : Session w α S).KeepsFloor := by
  have hempty : (Buckets.empty : Buckets w α).bag.Recorded [] := by
    rw [Buckets.bag, Buckets.pairs, Buckets.items_empty]
    exact .empty
  have hstart : Stands (ofHeap (emptyWithCapacity n g) : Session w α S).heap Buckets.empty :=
    .emptyWithCapacity n g
  have hrecorded := exists_recorded hw hstart hempty
  constructor
  case floor_reply =>
    intro ops
    obtain ⟨B, h, hps⟩ := hrecorded ops
    exact congrArg Reply.priority (h.represents.floor_eq.trans hps.floor_eq)
  case rising =>
    intro ops
    obtain ⟨B, -, hps⟩ := hrecorded ops
    exact hps.rising
  case gated =>
    intro ops
    obtain ⟨B, h, hps⟩ := hrecorded ops
    have hlast : B.floor = (ofHeap (emptyWithCapacity n g) : Session w α S).lastPopped ops := hps.floor_eq
    rw [← hlast]
    exact gated_floor hw h
  case transcript_kept => exact Session.transcript_kept _
  case after_kept => exact Session.after_kept _

/-- Pops out of an emptied bucket and out of bucket 0, with a push below the floor and two pops that
    find nothing in between. -/
theorem new_keepsFloor_bytes : 8 ≤ 128 ∧
    let s : Session 8 Nat := ofHeap (emptyWithCapacity 0 .leadingZeros)
    let ops : List (Op 8 Nat) := [.tryPush 100 0, .tryPush 64 1, .tryPop, .tryPush 3 2,
      .queue .pop, .tryPop, .queue .pop, .pushHandle 100 3, .tryPop]
    s.popped ops = [64, 100, 100] ∧ (s.kept ops).length = 6 ∧ s.KeepsFloor :=
  ⟨by decide, by rfl, by rfl, new_keepsFloor (by decide) 0 .leadingZeros⟩

end Session
end MonotoneQueue.Radix

import Mathlib
import MonotoneQueue.Bits.Length
import MonotoneQueue.Proofs.Radix.Mirrored

/- The two ways to measure a word agree on all words of every width, so it makes no difference which of them a
   queue uses to find the buckets of priorities and the lowest bucket that its mask tells
   (`Session.gauges_agree`). -/
namespace MonotoneQueue

/-- Halving the word until nothing is left counts what the leading zeros tell: the only number of bits that the
    word takes. -/
structure LengthsAgree {w : Nat} (x : BitVec w) : Prop where
  /-- The loop of halvings ends, and `shiftLength` counts its rounds. -/
  halvings : ∀ k, half^[k] x = 0#w ↔ shiftLength x ≤ k
  shiftLength_eq : shiftLength x = w - x.clz.toNat
  eq_iff : ∀ n, n = bitLength x ↔ n ≤ w ∧ x.toNat < 2 ^ n ∧ (n = 0 ∨ 2 ^ (n - 1) ≤ x.toNat)

theorem LengthsAgree.of_word {w : Nat} (x : BitVec w) : LengthsAgree x := by
  constructor
  case halvings =>
    intro k
    exact half_iterate_eq_zero_iff
  case shiftLength_eq => exact shiftLength_eq_bitLength x
  case eq_iff =>
    intro n
    rw [← eq_bitLength_iff]
    constructor
    · rintro rfl
      exact ⟨bitLength_le x, rfl⟩
    · rintro ⟨-, hn⟩
      exact hn

namespace Radix

variable {w : Nat} {α : Type} {S : Type → Type} [Storage S]

theorem Op.rename_zero_add (op : Op w α) : op.rename (0 + ·) = op := by
  cases op <;> simp only [Op.rename, Nat.zero_add]

theorem rename_reply_zero_add (r : Reply (BitVec w) α) : r.rename (0 + ·) = r := by
  cases r <;> simp only [Reply.rename, Nat.zero_add]

namespace Session

theorem tellsAs_zero_add (s : Session w α S) (ops : List (Op w α)) :
    s.tellsAs (0 + ·) ops = (replay run s ops).map Answer.told := by
  apply List.map_congr_left
  intro a _
  rw [rename_reply_zero_add]
  rfl

/-- Counting leading zeros and halving measure every word alike, and queues that use the one and the other
    cannot be told apart. -/
theorem gauges_agree :
    (∀ (w : Nat) (x : BitVec w), LengthsAgree x) ∧
    ∀ w ≤ 128, ∀ (α : Type) (S : Type → Type) [Storage S] (n : Nat) (ops : List (Op w α)),
      (replay run (ofHeap (emptyWithCapacity n .shifts) : Session w α S) ops).map Answer.told =
        (replay run (ofHeap (emptyWithCapacity n .leadingZeros) : Session w α S) ops).map Answer.told := by
  refine ⟨fun w x => .of_word x, ?_⟩
  intro w hw α S _ n ops
  have hmirrors : Mirrors 0 (ofHeap (emptyWithCapacity n .shifts) : Session w α S)
      (ofHeap (emptyWithCapacity n .leadingZeros)) :=
    .of_empty (.ofHeap n .shifts) (.ofHeap n .leadingZeros) rfl (.emptyWithCapacity n _) (.emptyWithCapacity n _)
  have hops : ops.map (Op.rename (0 + ·)) = ops := by
    rw [List.map_congr_left fun op _ => op.rename_zero_add, List.map_id']
  have htold := hmirrors.told_eq hw ops
  rw [hops, tellsAs_zero_add] at htold
  exact htold

/-- The words 0 and 255, and a queue whose mask is asked for the lowest of three buckets. -/
theorem gauges_agree_bytes :
    LengthsAgree (0 : BitVec 8) ∧ LengthsAgree (255 : BitVec 8) ∧ shiftLength (255 : BitVec 8) = 8 ∧ 8 ≤ 128 ∧
    let ops : List (Op 8 Nat) :=
      [.tryPush 255 0, .tryPush 9 1, .tryPush 4 2, .tryPop, .tryPush 4 3, .tryPop, .tryPop]
    (replay run (ofHeap (emptyWithCapacity 0 .shifts) : Session 8 Nat) ops).map Answer.told =
      (replay run (ofHeap (emptyWithCapacity 0 .leadingZeros) : Session 8 Nat) ops).map Answer.told := by
  obtain ⟨hlengths, htold⟩ := gauges_agree
  refine ⟨hlengths 8 0, hlengths 8 255, ?_, by decide, htold 8 (by decide) Nat Arena 0 _⟩
  rw [(hlengths 8 255).shiftLength_eq]
  decide

end Session
end Radix
end MonotoneQueue

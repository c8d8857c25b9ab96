import Mathlib
import MonotoneQueue.Proofs.Radix.Contents
import MonotoneQueue.Proofs.Radix.Floor
import MonotoneQueue.Proofs.Stable.Line

/- A look at a queue foretells what the next pop takes out, the value as well as the priority, also where
   several elements are tied (`peek_foretells_pop`). In a monotone queue the two go different ways from the
   same place on, in a stable queue both read the root. Nothing that may happen in between makes a difference,
   as long as it only looks or is in vain: it leaves the queue as it is. -/
namespace MonotoneQueue

variable {κ α Q : Type} {S : Type → Type} [Storage S]

namespace PriorityQueue

/-- What the one queue shows is what the other one gives out, and it shows nothing exactly if it is empty. -/
def Foretells [PriorityQueue Q κ α] (q q' : Q) : Prop :=
  ∃ found, peek q = .ok found ∧ (found = none ↔ isEmpty q = true) ∧
    Option.map Popped.item <$> pop q' = .ok found

end PriorityQueue

open PriorityQueue

/-! Stable queues. -/

namespace Stable

variable [LE κ] [DecidableLE κ] [Described (Stable κ α)]

theorem after_of_looks {q : Stable κ α} {ops : List (Op κ α)} (h : ∀ op ∈ ops, op.looks = true) :
    after q ops = q := by
  induction ops with
  | nil => rfl
  | cons op rest ih =>
    have hstate : (op.run q).state = q := by
      have hlooks := h op List.mem_cons_self
      cases op with
      | peek => rfl
      | size => rfl
      | isEmpty => rfl
      | describe => rfl
      | push | pushAll | pop | drain => cases hlooks
    show after (op.run q).state rest = q
    rw [hstate]
    exact ih fun op hop => h op (List.mem_cons_of_mem _ hop)

omit [Described (Stable κ α)] in
theorem InLine.foretells [Std.IsLinearPreorder κ] {q : Stable κ α} {l : List (Entry κ α)}
    (h : InLine q l) : Foretells q q := by
  refine ⟨q.peek, rfl, ?_, congrArg Except.ok (peek_eq q).symm⟩
  have hempty : isEmpty q = true ↔ l = [] := by
    rw [← List.map_eq_nil_iff, ← List.length_eq_zero_iff, ← h.size_eq]
    exact beq_iff_eq
  rw [hempty, peek_eq]
  obtain ⟨hl, hpop⟩ | ⟨xs, x, ys, rest, hl, -, hpop, -⟩ := h.pop_cases
  · simp [hl, hpop]
  · simp [hl, hpop]

end Stable

/-! Monotone queues. -/

namespace Radix

variable {w : Nat}

namespace Session

theorem state_eq_of_looks (s : Session w α S) {op : Op w α} (h : op.looks = true) : (s.run op).state = s :=
  congrArg Answer.state (s.run_of_looks h)

/-- Every one of the operations only looks or is in vain. -/
def Idles (s : Session w α S) (ops : List (Op w α)) : Prop :=
  ∀ x ∈ s.transcript ops, x.1.looks = true ∨ x.1.inVain x.2.reply = true

instance (s : Session w α S) (ops : List (Op w α)) : Decidable (s.Idles ops) :=
  inferInstanceAs (Decidable (∀ x ∈ s.transcript ops, _))

theorem Idles.after_eq {s : Session w α S} {ops : List (Op w α)} (h : s.Idles ops) : s.after ops = s := by
  induction ops with
  | nil => rfl
  | cons op rest ih =>
    rw [Idles, transcript_cons] at h
    have hstate : (s.run op).state = s := by
      obtain hlooks | hvain := h _ List.mem_cons_self
      · exact s.state_eq_of_looks hlooks
      · exact s.state_eq_of_inVain op hvain
    rw [hstate] at h
    show (s.run op).state.after rest = s
    rw [hstate]
    exact ih fun x hx => h x (List.mem_cons_of_mem _ hx)

end Session

theorem Stands.foretells (hw : w ≤ 128) {q : Radix w α S} {B : Buckets w α} (h : Stands q B) :
    Foretells q q := by
  have hempty : isEmpty q = true ↔ q.size = 0 := beq_iff_eq
  have hpeek : ∀ found, q.pop = .ok found →
      peek q = .ok (found.map Popped.item) ∧
        Option.map Popped.item <$> pop q = .ok (found.map Popped.item) := by
    intro found hpop
    refine ⟨peek_of_pop hpop, ?_⟩
    show Option.map Popped.item <$> q.pop = _
    rw [hpop]
    rfl
  obtain ⟨hzero, hpop⟩ | ⟨hne, top, hpop⟩ := h.pop_of_size hw
  · exact ⟨none, (hpeek none hpop).1, by simp [hempty, hzero], (hpeek none hpop).2⟩
  · exact ⟨some top.item, (hpeek _ hpop).1, by simp [hempty, hne], (hpeek _ hpop).2⟩

end Radix

/-- What a queue shows is what comes out of it next, also if operations come in between that only look or
    are in vain, whatever was done with the queue before. -/
theorem peek_foretells_pop {w : Nat} {β : Type} [LE κ] [DecidableLE κ] [Std.IsLinearPreorder κ]
    [Described (Stable κ β)] (hw : w ≤ 128) (n : Nat) (g : Gauge) :
    (∀ ops idle : List (Radix.Op w α),
      let s := (Radix.Session.ofHeap (Radix.emptyWithCapacity n g) : Radix.Session w α S).after ops
      s.Idles idle → Foretells s.heap (s.after idle).heap) ∧
    ∀ ops looks : List (Op κ β), (∀ op ∈ looks, op.looks = true) →
      let q : Stable κ β := after Stable.empty ops
      Foretells q (after q looks) := by
  constructor
  · intro ops idle s hidle
    have hstart : Radix.Stands (Radix.Session.ofHeap (Radix.emptyWithCapacity n g) : Radix.Session w α S).heap
        Radix.Buckets.empty := .emptyWithCapacity n g
    obtain ⟨B, h⟩ := Radix.Session.exists_stands hw hstart ops
    rw [hidle.after_eq]
    exact h.foretells hw
  · intro ops looks hlooks q
    obtain ⟨l, hl, -⟩ := (Stable.InLine.empty : Stable.InLine (Stable.empty : Stable κ β) []).exists_runs ops
    rw [Stable.after_of_looks hlooks]
    exact hl.foretells

/-- Two elements tied in a bucket above 0 of the one queue, where the younger one is next, and two tied in the
    other queue, where the older one is. -/
theorem peek_foretells_pop_ties :
    let s : Radix.Session 8 Nat := (Radix.Session.ofHeap (Radix.emptyWithCapacity 0 .leadingZeros)).after
      [.tryPush 5 0, .tryPush 9 1, .tryPush 9 2, .tryPop]
    let idle : List (Radix.Op 8 Nat) := [.queue .peek, .tryPush 3 3, .get 1, .contains 0, .queue (.push 4 4)]
    let q : Stable Nat Nat := after Stable.empty [.push 5 0, .push 5 1]
    let looks : List (Op Nat Nat) := [.peek, .size]
    8 ≤ 128 ∧ s.Idles idle ∧ Foretells s.heap (s.after idle).heap ∧ peek s.heap = .ok (some (9, 2)) ∧
      (∀ op ∈ looks, op.looks = true) ∧ Foretells q (after q looks) ∧ peek q = .ok (some (5, 0)) := by
  have h := peek_foretells_pop (κ := Nat) (α := Nat) (β := Nat) (S := Arena) (w := 8) (by decide) 0 .leadingZeros
  exact ⟨by decide, by decide +kernel, h.1 _ _ (by decide +kernel), by decide +kernel, by decide,
    h.2 _ _ (by decide), by decide +kernel⟩

end MonotoneQueue

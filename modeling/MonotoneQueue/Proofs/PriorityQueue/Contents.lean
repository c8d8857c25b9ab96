import Mathlib
import MonotoneQueue.PriorityQueue.Op
import MonotoneQueue.Proofs.Result

/- What a priority queue answers, by the multiset of the pairs in it. `Op.Allows` leaves open which of several
   least pairs comes out, so it holds of queues that have nothing in common but what they are for. It is
   enough for two things. What comes out and what stays in is what was in before and what came in
   (`Op.Allows.account`), and queues whose pairs have the same priorities answer with the same priorities
   (`Op.Allows.alike`). Both carry over to operations carried out one after the other (`Runs`). -/
namespace MonotoneQueue

variable {κ α : Type}

/-- Replies that tell of the same priorities. One that breaks off is like no reply. -/
def Reply.Alike : Reply κ α → Reply κ α → Prop
  | .done, .done => True
  | .item x, .item y => x.map Prod.fst = y.map Prod.fst
  | .items xs, .items ys => xs.map Prod.fst = ys.map Prod.fst
  | .count m, .count n => m = n
  | .flag b, .flag c => b = c
  | .text _, .text _ => True
  | _, _ => False

/-- Answers that tell of the same priorities and leave equally many elements. -/
structure Answer.Alike {Q Q' : Type} [PriorityQueue Q κ α] [PriorityQueue Q' κ α] (a : Answer Q κ α)
    (b : Answer Q' κ α) : Prop where
  reply : a.reply.Alike b.reply
  size_eq : PriorityQueue.size a.state = PriorityQueue.size b.state
  isEmpty_eq : PriorityQueue.isEmpty a.state = PriorityQueue.isEmpty b.state

namespace PriorityQueue

/-! What comes in and what comes out. -/

/-- The pairs that an operation brings. -/
def Op.pushed : Op κ α → List (κ × α)
  | .push p v => [(p, v)]
  | .pushAll items => items
  | _ => []

/-- The pairs that an operation has taken out, as its reply tells. -/
def Op.popped : Op κ α → Reply κ α → List (κ × α)
  | .pop, .item found => found.toList
  | .drain, .items found => found
  | _, _ => []

/-- The pairs that operations bring. -/
def pushed (ops : List (Op κ α)) : List (κ × α) := ops.flatMap Op.pushed

theorem pushed_concat_drain (ops : List (Op κ α)) : pushed (ops ++ [.drain]) = pushed ops := by
  simp [pushed, Op.pushed]

section History

variable {Q : Type} [PriorityQueue Q κ α] [Described Q]

/-- The queue after operations carried out one after the other. -/
def after (q : Q) (ops : List (Op κ α)) : Q := ops.foldl (fun q op => (op.run q).state) q

/-- The pairs that operations carried out one after the other have taken out, in order. -/
def returned (q : Q) : List (Op κ α) → List (κ × α)
  | [] => []
  | op :: rest => op.popped (op.run q).reply ++ returned (op.run q).state rest

theorem after_concat (q : Q) (ops : List (Op κ α)) (op : Op κ α) :
    after q (ops ++ [op]) = (op.run (after q ops)).state := by
  rw [after, List.foldl_append]
  rfl

omit [Described Q] in
theorem popMany_succ {q : Q} {n : Nat} {top : Popped Q κ α} {d : Drained Q κ α}
    (hpop : pop q = .ok (some top)) (hd : popMany n top.rest = .ok d) :
    popMany (n + 1) q =
      .ok ⟨top.item :: d.items, top.notice.toList ++ d.notices, d.rest⟩ := by
  simp only [popMany, hpop, Result.ok_bind, hd]

end History

theorem card_eq_of_map_fst {M M' : Multiset (κ × α)} (hM : M.map Prod.fst = M'.map Prod.fst) :
    M.card = M'.card := by
  rw [← Multiset.card_map Prod.fst M, hM, Multiset.card_map]

/-! What may be answered. -/

variable [LE κ]

/-- One pair of least priority is taken from `M`, which leaves `N`; or there is none. -/
def Takes (M N : Multiset (κ × α)) : Option (κ × α) → Prop
  | none => M = 0 ∧ N = 0
  | some x => M = x ::ₘ N ∧ ∀ y ∈ M, x.1 ≤ y.1

/-- What an operation may answer on the pairs `M`, and what it leaves. Looking changes nothing. -/
def Op.Allows (op : Op κ α) (M : Multiset (κ × α)) (r : Reply κ α) (N : Multiset (κ × α)) : Prop :=
  match op with
  | .push p v => r = .done ∧ N = (p, v) ::ₘ M
  | .pushAll items => r = .done ∧ N = items + M
  | .pop => ∃ found, Takes M N found ∧ r = .item found
  | .peek => ∃ found rest, Takes M rest found ∧ r = .item found ∧ N = M
  | .drain => ∃ found : List (κ × α), (found : Multiset (κ × α)) = M ∧
      found.Pairwise (fun x y => x.1 ≤ y.1) ∧ r = .items found ∧ N = 0
  | .size => r = .count M.card ∧ N = M
  | .isEmpty => (∃ e, r = .flag e ∧ (e = true ↔ M = 0)) ∧ N = M
  | .describe _ => (∃ description, r = .text description) ∧ N = M

variable {M N M' N' : Multiset (κ × α)}

theorem Takes.account {found : Option (κ × α)} (h : Takes M N found) :
    (found.toList : Multiset (κ × α)) + N = M := by
  cases found with
  | none => rw [h.1, h.2]; rfl
  | some x =>
    rw [h.1, Option.toList_some, Multiset.coe_singleton, Multiset.singleton_add]

/-- What comes out and what stays in is what came in and what was in before. -/
theorem Op.Allows.account {op : Op κ α} {r : Reply κ α} (h : op.Allows M r N) :
    (op.popped r : Multiset (κ × α)) + N = op.pushed + M := by
  cases op with
  | push p v =>
    obtain ⟨rfl, rfl⟩ := h
    show (([] : List (κ × α)) : Multiset (κ × α)) + (p, v) ::ₘ M = [(p, v)] + M
    rw [Multiset.coe_nil, zero_add, Multiset.coe_singleton, Multiset.singleton_add]
  | pushAll items =>
    obtain ⟨rfl, rfl⟩ := h
    exact zero_add _
  | pop =>
    obtain ⟨found, htakes, rfl⟩ := h
    exact htakes.account.trans (zero_add M).symm
  | peek =>
    obtain ⟨found, rest, -, rfl, rfl⟩ := h
    rfl
  | drain =>
    obtain ⟨found, rfl, -, rfl, rfl⟩ := h
    exact add_comm _ _
  | size => rw [h.1, h.2]; rfl
  | isEmpty =>
    obtain ⟨⟨e, rfl, -⟩, rfl⟩ := h
    rfl
  | describe style =>
    obtain ⟨⟨description, rfl⟩, rfl⟩ := h
    rfl

/-! Operations one after the other. -/

section Runs

variable {Q : Type} [PriorityQueue Q κ α] [Described Q] {q : Q} {ops : List (Op κ α)}

/-- A queue that holds the pairs `M` answers the operations as is allowed and counts what it holds all the
    time. In the end it holds the pairs `N`. -/
inductive Runs : Q → Multiset (κ × α) → List (Op κ α) → Multiset (κ × α) → Prop
  | nil {q : Q} {M : Multiset (κ × α)} (hsize : size q = M.card) : Runs q M [] M
  | cons {q : Q} {M M' N : Multiset (κ × α)} {op : Op κ α} {rest : List (Op κ α)}
    (hsize : size q = M.card) (hop : op.Allows M (op.run q).reply M')
    (hrest : Runs (op.run q).state M' rest N) : Runs q M (op :: rest) N

theorem Runs.size_eq (h : Runs q M ops N) : size q = M.card := by
  cases h with
  | nil hsize => exact hsize
  | cons hsize => exact hsize

/-- All that came out and all that is left is all that came in and all there was. -/
theorem Runs.account (h : Runs q M ops N) :
    (returned q ops : Multiset (κ × α)) + N = pushed ops + M := by
  induction h with
  | nil => rfl
  | @cons q M M' N op rest _ hop _ ih =>
    calc ((op.popped (op.run q).reply ++ returned (op.run q).state rest : List _) : Multiset (κ × α)) + N
        = op.popped (op.run q).reply + (returned (op.run q).state rest + N) := by
          rw [← Multiset.coe_add, add_assoc]
      _ = pushed rest + (op.popped (op.run q).reply + M') := by rw [ih, add_left_comm]
      _ = op.pushed + (pushed rest + M) := by rw [hop.account, add_left_comm]
      _ = ((op.pushed ++ pushed rest : List _) : Multiset (κ × α)) + M := by
          rw [← Multiset.coe_add, add_assoc]

theorem Runs.eq_zero_of_drain (h : Runs q M (ops ++ [.drain]) N) : N = 0 := by
  induction ops generalizing q M with
  | nil =>
    cases h with
    | cons _ hop hrest =>
      cases hrest
      obtain ⟨_, -, -, -, hzero⟩ := hop
      exact hzero
  | cons op rest ih =>
    cases h with
    | cons _ _ hrest => exact ih hrest

/-- Once nothing is left, all that came in and all there was has come out. -/
theorem Runs.returned_drain (h : Runs q M (ops ++ [.drain]) N) :
    (returned q (ops ++ [.drain]) : Multiset (κ × α)) = pushed ops + M := by
  have haccount := h.account
  rwa [h.eq_zero_of_drain, add_zero, pushed_concat_drain] at haccount

end Runs

/-! Answers on pairs that have the same priorities. -/

theorem Takes.fst_le {x y : κ × α} (hM : M.map Prod.fst = M'.map Prod.fst) (h : Takes M N (some x))
    (hy : y ∈ M') : x.1 ≤ y.1 := by
  have hmem : y.1 ∈ M.map Prod.fst := hM ▸ Multiset.mem_map_of_mem _ hy
  obtain ⟨z, hz, hzy⟩ := Multiset.mem_map.mp hmem
  exact hzy ▸ h.2 z hz

variable [Std.IsLinearOrder κ]

theorem Takes.alike {x y : Option (κ × α)} (hM : M.map Prod.fst = M'.map Prod.fst) (h : Takes M N x)
    (h' : Takes M' N' y) : x.map Prod.fst = y.map Prod.fst ∧ N.map Prod.fst = N'.map Prod.fst := by
  cases x with
  | none =>
    rw [h.1, Multiset.map_zero, eq_comm, Multiset.map_eq_zero] at hM
    cases y with
    | none => exact ⟨rfl, by rw [h.2, h'.2]⟩
    | some y => exact absurd (hM.symm.trans h'.1) Multiset.zero_ne_cons
  | some x =>
    cases y with
    | none =>
      rw [h'.1, Multiset.map_zero, Multiset.map_eq_zero] at hM
      exact absurd (hM.symm.trans h.1) Multiset.zero_ne_cons
    | some y =>
      have hxy : x.1 = y.1 := by
        apply Std.le_antisymm
        · exact h.fst_le hM (h'.1 ▸ Multiset.mem_cons_self y N')
        · exact h'.fst_le hM.symm (h.1 ▸ Multiset.mem_cons_self x N)
      refine ⟨congrArg some hxy, ?_⟩
      rw [h.1, h'.1, Multiset.map_cons, Multiset.map_cons, hxy] at hM
      exact (Multiset.cons_inj_right _).mp hM

/-- Queues whose pairs have the same priorities answer alike and are left with the same priorities. -/
theorem Op.Allows.alike {op : Op κ α} {r r' : Reply κ α} (hM : M.map Prod.fst = M'.map Prod.fst)
    (h : op.Allows M r N) (h' : op.Allows M' r' N') :
    r.Alike r' ∧ N.map Prod.fst = N'.map Prod.fst := by
  have hcard := card_eq_of_map_fst hM
  cases op with
  | push p v =>
    obtain ⟨rfl, rfl⟩ := h
    obtain ⟨rfl, rfl⟩ := h'
    exact ⟨trivial, by rw [Multiset.map_cons, Multiset.map_cons, hM]⟩
  | pushAll items =>
    obtain ⟨rfl, rfl⟩ := h
    obtain ⟨rfl, rfl⟩ := h'
    exact ⟨trivial, by rw [Multiset.map_add, Multiset.map_add, hM]⟩
  | pop =>
    obtain ⟨x, hx, rfl⟩ := h
    obtain ⟨y, hy, rfl⟩ := h'
    exact hx.alike hM hy
  | peek =>
    obtain ⟨x, _, hx, rfl, rfl⟩ := h
    obtain ⟨y, _, hy, rfl, rfl⟩ := h'
    exact ⟨(hx.alike hM hy).1, hM⟩
  | drain =>
    obtain ⟨xs, rfl, hxs, rfl, rfl⟩ := h
    obtain ⟨ys, rfl, hys, rfl, rfl⟩ := h'
    refine ⟨?_, rfl⟩
    have hperm : (xs.map Prod.fst).Perm (ys.map Prod.fst) := Multiset.coe_eq_coe.mp hM
    have hxs' : (xs.map Prod.fst).Pairwise (· ≤ ·) := List.pairwise_map.mpr hxs
    have hys' : (ys.map Prod.fst).Pairwise (· ≤ ·) := List.pairwise_map.mpr hys
    exact hperm.eq_of_pairwise (fun p q _ _ => Std.le_antisymm) hxs' hys'
  | size =>
    obtain ⟨rfl, rfl⟩ := h
    obtain ⟨rfl, rfl⟩ := h'
    exact ⟨hcard, hM⟩
  | isEmpty =>
    obtain ⟨⟨b, rfl, hb⟩, rfl⟩ := h
    obtain ⟨⟨c, rfl, hc⟩, rfl⟩ := h'
    refine ⟨?_, hM⟩
    show b = c
    rw [Bool.eq_iff_iff, hb, hc, ← Multiset.card_eq_zero, hcard, Multiset.card_eq_zero]
  | describe style =>
    obtain ⟨⟨_, rfl⟩, rfl⟩ := h
    obtain ⟨⟨_, rfl⟩, rfl⟩ := h'
    exact ⟨trivial, hM⟩

theorem Op.Allows.popped_alike {op : Op κ α} {r r' : Reply κ α}
    (hM : M.map Prod.fst = M'.map Prod.fst) (h : op.Allows M r N) (h' : op.Allows M' r' N') :
    (op.popped r).map Prod.fst = (op.popped r').map Prod.fst := by
  have hreply := (h.alike hM h').1
  cases op with
  | pop =>
    obtain ⟨x, -, rfl⟩ := h
    obtain ⟨y, -, rfl⟩ := h'
    show x.toList.map Prod.fst = y.toList.map Prod.fst
    rw [← Option.toList_map, ← Option.toList_map]
    exact congrArg Option.toList hreply
  | drain =>
    obtain ⟨xs, -, -, rfl, -⟩ := h
    obtain ⟨ys, -, -, rfl, -⟩ := h'
    exact hreply
  | push | pushAll | peek | size | isEmpty | describe => rfl

theorem Runs.alike {Q Q' : Type} [PriorityQueue Q κ α] [Described Q] [PriorityQueue Q' κ α]
    [Described Q'] {q : Q} {q' : Q'} {ops : List (Op κ α)} (h : Runs q M ops N)
    (h' : Runs q' M' ops N') (hM : M.map Prod.fst = M'.map Prod.fst) :
    List.Forall₂ Answer.Alike (replay Op.run q ops) (replay Op.run q' ops) ∧
      N.map Prod.fst = N'.map Prod.fst := by
  induction h generalizing q' M' with
  | nil =>
    cases h' with
    | nil => exact ⟨.nil, hM⟩
  | cons _ hop hrest ih =>
    cases h' with
    | cons _ hop' hrest' =>
      obtain ⟨hreply, hleft⟩ := hop.alike hM hop'
      obtain ⟨hanswers, hN⟩ := ih hrest' hleft
      have hsize := hrest.size_eq.trans ((card_eq_of_map_fst hleft).trans hrest'.size_eq.symm)
      exact ⟨.cons ⟨hreply, hsize, congrArg (· == 0) hsize⟩ hanswers, hN⟩

end PriorityQueue
end MonotoneQueue

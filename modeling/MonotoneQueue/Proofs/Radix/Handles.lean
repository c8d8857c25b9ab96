import Mathlib
import MonotoneQueue.Proofs.Radix.Keyed

/- Handles identify elements. A handle stands for the key under which a push stored its element, and the
   queue never issues that key again. So the handle names the pair that was pushed until the element is
   popped or the queue is cleared, wherever the element is moved to, and nothing ever after, also when
   the place of the element is used again (`Session.after_identifies`). -/
namespace MonotoneQueue.Radix

variable {w : Nat} {α : Type} {S : Type → Type} [Storage S]

/-- The pairs that an operation took out, given what it answered. -/
def Op.removed : Op w α → Reply (BitVec w) α → List (BitVec w × α)
  | .queue .pop, .item found => found.toList
  | .tryPop, .item found => found.toList
  | .queue .drain, .items found => found
  | _, _ => []

theorem Bag.Drain.items_eq {b b' : Bag w α} {xs : List (BitVec w × α)} (h : b.Drain b' xs) :
    b.items = 0 := by
  induction xs generalizing b' with
  | nil =>
    obtain ⟨hitems, hb⟩ := h
    rw [hb, hitems]
  | cons x rest ih =>
    obtain ⟨c, -, hrest⟩ := h
    exact ih hrest

namespace Session

/-- What the element is that a handle names, while it is in the queue. -/
def named (s : Session w α S) (n : Nat) : Option (BitVec w × α) := s.issued[n]?.bind s.heap.get?

/-- What an operation does to the elements of a session, by their keys. -/
inductive Touches (s : Session w α S) (op : Op w α) : Answer (Session w α S) (BitVec w) α → Prop
  | issues {k : Key} {x : BitVec w × α} {heap : Radix w α S} {reply : Reply (BitVec w) α}
      {notices : List (Notice (BitVec w))} :
    s.heap.Adds heap k x → Touches s op ⟨reply, s.issue k heap, notices⟩
  | keeps {heap : Radix w α S} {reply : Reply (BitVec w) α} {notices : List (Notice (BitVec w))} :
    s.heap.Keeps heap → Touches s op ⟨reply, { s with heap }, notices⟩
  | loses {ks : List Key} {heap : Radix w α S} {reply : Reply (BitVec w) α}
      {notices : List (Notice (BitVec w))} :
    s.heap.Loses heap ks (op.removed reply) → Touches s op ⟨reply, { s with heap }, notices⟩
  | clears {reply : Reply (BitVec w) α} {notices : List (Notice (BitVec w))} :
    op = .clear → Touches s op ⟨reply, { s with heap := s.heap.clear }, notices⟩

theorem run_touches (hw : w ≤ 128) {s : Session w α S} {B : Buckets w α} (h : Stands s.heap B)
    (op : Op w α) : s.Touches op (s.run op) := by
  have hacts := s.run_acts op
  generalize s.run op = a at hacts
  cases hacts with
  | push hq => exact .keeps (h.insert_adds hw hq).keeps
  | issue hop hq => exact .issues (h.insert_adds hw hq)
  | @pushAll items heap f hq =>
    have hkeeps := h.pushAll_keeps hw items
    rw [hq] at hkeeps
    exact .keeps hkeeps
  | pop hop hq =>
    obtain ⟨k, hk⟩ := h.pop_loses hw hq
    cases hop <;> exact .loses hk
  | drain hq =>
    obtain ⟨ks, hks⟩ := h.popMany_loses hw hq
    exact .loses hks
  | clear => exact .clears rfl
  | refuse | nothing | look | breakOff => exact .keeps (.refl _)

/-! Handles. -/

/-- The queue is sound and has issued the keys behind the handles, no two of which are equal. -/
structure Sound (s : Session w α S) : Prop where
  stands : ∃ B, Stands s.heap B
  issued : ∀ k ∈ s.issued.toList, Storage.Issued s.heap.nodes k
  nodup : s.issued.toList.Nodup

theorem Sound.ofHeap (n : Nat) (g : Gauge) :
    (ofHeap (Radix.emptyWithCapacity n g) : Session w α S).Sound :=
  ⟨⟨_, .emptyWithCapacity n g⟩, nofun, .nil⟩

/-- The queue may be replaced by one that has forgotten no key. -/
theorem Sound.before {s : Session w α S} (hs : s.Sound) {heap : Radix w α S}
    (hbefore : Storage.Before s.heap.nodes heap.nodes) (hstands : ∃ B, Stands heap B) :
    ({ s with heap } : Session w α S).Sound :=
  ⟨hstands, fun l hl => hbefore l (hs.issued l hl), hs.nodup⟩

theorem Sound.issue {s : Session w α S} (hs : s.Sound) {heap : Radix w α S} {k : Key} {x : BitVec w × α}
    (hadds : s.heap.Adds heap k x) (hstands : ∃ B, Stands heap B) : (s.issue k heap).Sound := by
  have htoList : (s.issue k heap).issued.toList = s.issued.toList ++ [k] := Array.toList_push
  refine ⟨hstands, ?_, ?_⟩
  · intro l hl
    rw [htoList] at hl
    rcases List.mem_append.mp hl with hl | hl
    · exact hadds.before l (hs.issued l hl)
    · rw [List.mem_singleton.mp hl]
      exact issued_of_get? hadds.get?_self
  · rw [htoList, List.nodup_append_comm, List.singleton_append, List.nodup_cons]
    exact ⟨fun hk => hadds.fresh (hs.issued k hk), hs.nodup⟩

theorem Touches.sound {s : Session w α S} {op : Op w α} {a : Answer (Session w α S) (BitVec w) α}
    (h : s.Touches op a) (hs : s.Sound) (hstands : ∃ B, Stands a.state.heap B) : a.state.Sound := by
  cases h with
  | issues hadds => exact hs.issue hadds hstands
  | keeps hkeeps => exact hs.before hkeeps.before hstands
  | loses hloses => exact hs.before hloses.before hstands
  | clears => exact hs.before (.clear _) hstands

theorem named_mk {heap : Radix w α S} {issued : Array Key} {n : Nat} (hn : n < issued.size) :
    (⟨heap, issued⟩ : Session w α S).named n = heap.get? issued[n] := by
  rw [named, Array.getElem?_eq_getElem hn, Option.bind_some]

theorem named_eq {s : Session w α S} {n : Nat} (hn : n < s.issued.size) :
    s.named n = s.heap.get? s.issued[n] := named_mk hn

/-! What a session answers about handles. -/

theorem run_contains (s : Session w α S) (n : Nat) : s.run (.contains n) =
    if n < s.issued.size then ⟨.flag (s.named n).isSome, s, []⟩ else ⟨.unknownHandle n, s, []⟩ := by
  split
  · next hn => simp only [run, Array.getElem?_eq_getElem hn, named_eq hn, contains_eq_isSome]
  · next hn => simp only [run, Array.getElem?_eq_none (Nat.le_of_not_lt hn)]

theorem run_get (s : Session w α S) (n : Nat) : s.run (.get n) =
    if n < s.issued.size then ⟨.item (s.named n), s, []⟩ else ⟨.unknownHandle n, s, []⟩ := by
  split
  · next hn => simp only [run, Array.getElem?_eq_getElem hn, named_eq hn]
  · next hn => simp only [run, Array.getElem?_eq_none (Nat.le_of_not_lt hn)]

theorem Sound.run_same {s : Session w α S} (h : s.Sound) (m n : Nat) : s.run (.same m n) =
    if m < s.issued.size then
      if n < s.issued.size then ⟨.flag (m = n), s, []⟩ else ⟨.unknownHandle n, s, []⟩
    else ⟨.unknownHandle m, s, []⟩ := by
  by_cases hm : m < s.issued.size
  · by_cases hn : n < s.issued.size
    · have hinj : s.issued[m] = s.issued[n] ↔ m = n := h.nodup.getElem_inj_iff
      simp only [Session.run, Array.getElem?_eq_getElem hm, Array.getElem?_eq_getElem hn, hinj, if_pos hm,
        if_pos hn]
    · simp only [Session.run, Array.getElem?_eq_getElem hm, Array.getElem?_eq_none (Nat.le_of_not_lt hn), if_pos hm,
        if_neg hn]
  · simp only [Session.run, Array.getElem?_eq_none (Nat.le_of_not_lt hm), if_neg hm]

/-! What becomes of the elements that handles name. -/

theorem lt_of_named {s : Session w α S} {n : Nat} {x : BitVec w × α} (h : s.named n = some x) :
    n < s.issued.size := by
  obtain ⟨k, hk, -⟩ := Option.bind_eq_some_iff.mp h
  exact (Array.getElem?_eq_some_iff.mp hk).1

/-- What a handle names stays the same, or it is gone since the operation took it out. -/
theorem Touches.named_cases {s : Session w α S} {op : Op w α}
    {a : Answer (Session w α S) (BitVec w) α} (h : s.Touches op a) (hs : s.Sound) {n : Nat}
    (hn : n < s.issued.size) :
    n < a.state.issued.size ∧ (a.state.named n = s.named n ∨
      a.state.named n = none ∧ ∀ x, s.named n = some x → op = .clear ∨ x ∈ op.removed a.reply) := by
  have hissued : Storage.Issued s.heap.nodes s.issued[n] := hs.issued _ (Array.getElem_mem_toList hn)
  rw [named_eq hn]
  cases h with
  | @issues k x heap reply notices hadds =>
    have hsize : n < (s.issue k heap).issued.size := by
      rw [issue, Array.size_push]
      omega
    have hkey : (s.issue k heap).issued[n] = s.issued[n] := Array.getElem_push_lt hn
    refine ⟨hsize, Or.inl ?_⟩
    rw [named_eq hsize, hkey]
    exact hadds.keeps.get?_eq _ hissued
  | keeps hkeeps =>
    refine ⟨hn, Or.inl ?_⟩
    rw [named_mk hn]
    exact hkeeps.get?_eq _ hissued
  | @loses ks heap reply notices hloses =>
    refine ⟨hn, ?_⟩
    rw [named_mk hn]
    have hget := hloses.get?_eq s.issued[n]
    split at hget
    · next hk =>
      refine Or.inr ⟨hget, ?_⟩
      intro x hx
      have hmem : s.heap.get? s.issued[n] ∈ (op.removed reply).map some :=
        hloses.named ▸ List.mem_map_of_mem hk
      rw [hx] at hmem
      obtain ⟨y, hy, hxy⟩ := List.mem_map.mp hmem
      exact Or.inr (Option.some.inj hxy ▸ hy)
    · exact Or.inl hget
  | clears hop =>
    refine ⟨hn, Or.inr ⟨?_, fun _ _ => Or.inl hop⟩⟩
    rw [named_mk hn]
    simp [Radix.get?, Radix.clear]

namespace Sound

variable {s : Session w α S}

theorem run (hw : w ≤ 128) (h : s.Sound) (op : Op w α) : (s.run op).state.Sound := by
  obtain ⟨B, hB⟩ := h.stands
  obtain ⟨B', hB', -⟩ := run_allows hw hB op
  exact (run_touches hw hB op).sound h ⟨B', hB'⟩

theorem after (hw : w ≤ 128) (h : s.Sound) (ops : List (Op w α)) : (s.after ops).Sound := by
  induction ops generalizing s with
  | nil => exact h
  | cons op rest ih => exact ih (h.run hw op)

theorem named_cases (hw : w ≤ 128) (h : s.Sound) (op : Op w α) {n : Nat} (hn : n < s.issued.size) :
    n < (s.run op).state.issued.size ∧ ((s.run op).state.named n = s.named n ∨
      (s.run op).state.named n = none ∧
        ∀ x, s.named n = some x → op = .clear ∨ x ∈ op.removed (s.run op).reply) := by
  obtain ⟨B, hB⟩ := h.stands
  exact (run_touches hw hB op).named_cases h hn

/-- What a handle names stays the same until it is gone, and then it is gone forever. -/
theorem named_after (hw : w ≤ 128) (h : s.Sound) {n : Nat} (hn : n < s.issued.size)
    (ops : List (Op w α)) : n < (s.after ops).issued.size ∧
      ((s.after ops).named n = s.named n ∨ (s.after ops).named n = none) := by
  induction ops generalizing s with
  | nil => exact ⟨hn, Or.inl rfl⟩
  | cons op rest ih =>
    obtain ⟨hn', hnamed⟩ := h.named_cases hw op hn
    obtain ⟨hn'', hrest⟩ := ih (h.run hw op) hn'
    refine ⟨hn'', ?_⟩
    rcases hnamed with heq | ⟨hnone, -⟩
    · rw [heq] at hrest
      exact hrest
    · rw [hnone, or_self] at hrest
      exact Or.inr hrest

end Sound

theorem exists_insert {s : Session w α S} {op : Op w α} {p : BitVec w} {v : α} {n : Nat}
    (hop : op = .pushHandle p v ∨ op = .tryPush p v) (h : (s.run op).reply = .handle n) :
    ∃ k heap, s.heap.insert p v = .ok (k, heap) ∧ n = s.issued.size ∧
      (s.run op).state = s.issue k heap := by
  cases hq : s.heap.insert p v with
  | error f =>
    obtain rfl | rfl := hop
    · rw [(Acts.refuse (.pushHandle p v) hq).run_eq] at h
      cases h
    · rw [(Acts.refuse (.tryPush p v) hq).run_eq] at h
      cases f <;> cases h
  | ok r =>
    have hissues : op.Issues p v := by
      obtain rfl | rfl := hop
      · exact .pushHandle p v
      · exact .tryPush p v
    rw [(Acts.issue hissues hq).run_eq] at h ⊢
    exact ⟨r.1, r.2, rfl, (Reply.handle.inj h).symm, rfl⟩

theorem exists_pop {s : Session w α S} {op : Op w α} {x : BitVec w × α}
    (hop : op = .queue .pop ∨ op = .tryPop) (h : (s.run op).reply = .item (some x)) :
    ∃ top, s.heap.pop = .ok (some top) ∧ top.item = x ∧ (s.run op).state.heap = top.rest := by
  obtain ⟨reply, hpops⟩ := Op.exists_pops hop
  rcases hq : s.heap.pop with f | (_ | top)
  · rw [(Acts.breakOff (.pop hpops hq)).run_eq] at h
    cases h
  · rw [(Acts.nothing hpops hq).run_eq] at h
    cases hpops <;> cases h
  · rw [(Acts.pop hpops hq).run_eq] at h ⊢
    exact ⟨top, rfl, Option.some.inj (Reply.item.inj h), rfl⟩

/-- What handles tell, and what becomes of the elements that they name, with whatever is done next. -/
structure Identifies (s : Session w α S) : Prop where
  /-- Handles that were issued by different pushes are not equal. -/
  same_eq : ∀ m n, m < s.issued.size → n < s.issued.size → (s.run (.same m n)).reply = .flag (m = n)
  contains_eq : ∀ n < s.issued.size, (s.run (.contains n)).reply = .flag (s.named n).isSome
  get_eq : ∀ n < s.issued.size, (s.run (.get n)).reply = .item (s.named n)
  /-- The handle that a push issues names the pair that was pushed. -/
  issues : ∀ op p v n, op = .pushHandle p v ∨ op = .tryPush p v → (s.run op).reply = .handle n →
    n = s.issued.size ∧ (s.run op).state.named n = some (p, v)
  /-- It names that pair until the pair is taken out or the queue is cleared. -/
  keeps : ∀ op n x, s.named n = some x → (s.run op).state.named n = some x ∨
    (s.run op).state.named n = none ∧ (op = .clear ∨ x ∈ op.removed (s.run op).reply)
  /-- Whatever is done, it never names another pair. -/
  lasts : ∀ ops n x, s.named n = some x →
    (s.after ops).named n = some x ∨ (s.after ops).named n = none
  /-- Once it names nothing, it never names anything again, although it stays issued. -/
  gone : ∀ ops, ∀ n < s.issued.size, s.named n = none →
    n < (s.after ops).issued.size ∧ (s.after ops).named n = none
  /-- A clear and a drain leave nothing that could be named. -/
  empties : ∀ op, op = .clear ∨ op = .queue .drain → ∀ n, (s.run op).state.named n = none
  /-- A pop takes out one element, which was the pair that it answers, and no other. -/
  pops : ∀ op x, op = .queue .pop ∨ op = .tryPop → (s.run op).reply = .item (some x) →
    ∃ k, s.heap.get? k = some x ∧
      ∀ l, (s.run op).state.heap.get? l = if l = k then none else s.heap.get? l

theorem Sound.drain_empties (hw : w ≤ 128) {s : Session w α S} (h : s.Sound) (k : Key) :
    (s.run (.queue .drain)).state.heap.get? k = none := by
  obtain ⟨B, hB⟩ := h.stands
  obtain ⟨B', hB', found, hdrain, -⟩ := run_allows hw hB (.queue .drain)
  exact hB'.get?_eq_none hdrain.items_eq k

theorem Sound.identifies (hw : w ≤ 128) {s : Session w α S} (h : s.Sound) : s.Identifies := by
  constructor
  case same_eq =>
    intro m n hm hn
    rw [h.run_same, if_pos hm, if_pos hn]
  case contains_eq =>
    intro n hn
    rw [run_contains, if_pos hn]
  case get_eq =>
    intro n hn
    rw [run_get, if_pos hn]
  case issues =>
    intro op p v n hop hreply
    obtain ⟨B, hB⟩ := h.stands
    obtain ⟨k, heap, hq, hn, hstate⟩ := exists_insert hop hreply
    have hkey : (s.issued.push k)[s.issued.size]? = some k := Array.getElem?_push_size
    rw [hstate, hn, named, Session.issue, hkey, Option.bind_some]
    exact ⟨rfl, (hB.insert_adds hw hq).get?_self⟩
  case keeps =>
    intro op n x hx
    obtain ⟨-, heq | ⟨hnone, hwhy⟩⟩ := h.named_cases hw op (lt_of_named hx)
    · exact Or.inl (heq.trans hx)
    · exact Or.inr ⟨hnone, hwhy x hx⟩
  case lasts =>
    intro ops n x hx
    rw [← hx]
    exact (h.named_after hw (lt_of_named hx) ops).2
  case gone =>
    intro ops n hn hnone
    obtain ⟨hn', hnamed⟩ := h.named_after hw hn ops
    rw [hnone, or_self] at hnamed
    exact ⟨hn', hnamed⟩
  case empties =>
    rintro op (rfl | rfl) n
    · simp [Session.run, named, Radix.get?, Radix.clear]
    · rw [named]
      simp [h.drain_empties hw]
  case pops =>
    intro op x hop hreply
    obtain ⟨B, hB⟩ := h.stands
    obtain ⟨top, hq, rfl, hheap⟩ := exists_pop hop hreply
    obtain ⟨k, hk⟩ := hB.pop_loses hw hq
    refine ⟨k, ?_, ?_⟩
    · simpa using hk.named
    · intro l
      rw [hheap, hk.get?_eq]
      simp only [List.mem_singleton]

/-- Whatever was done with a monotone queue from the beginning on, its handles identify elements. -/
theorem after_identifies (hw : w ≤ 128) (n : Nat) (g : Gauge) (ops : List (Op w α)) :
    ((ofHeap (Radix.emptyWithCapacity n g) : Session w α S).after ops).Identifies :=
  ((Sound.ofHeap n g).after hw ops).identifies hw

/-- Of two equal pairs one is popped, and its place is used again under a new key. -/
theorem after_identifies_reuse :
    let s : Session 8 Nat := (ofHeap (Radix.emptyWithCapacity 2 .leadingZeros)).after
      [.pushHandle 5 1, .tryPush 5 1, .queue .pop, .pushHandle 9 2]
    8 ≤ 128 ∧ s.Identifies ∧ s.issued = #[⟨0, 0⟩, ⟨1, 0⟩, ⟨1, 1⟩] ∧
    s.named 0 = some (5, 1) ∧ s.named 1 = none ∧ s.named 2 = some (9, 2) := by
  exact ⟨by decide, after_identifies (by decide) _ _ _, by rfl, by rfl, by rfl, by rfl⟩

end Session
end MonotoneQueue.Radix

import MonotoneQueue.Arena

/- Keys are never issued twice. A slot remembers, by its version, which of its keys have been
   handed out; every operation keeps what it remembers, and the next key is none of them. With this an
   arena has all the laws of a `Storage`. -/
namespace MonotoneQueue

namespace Arena

variable {α : Type}

/-- The arena has handed out the key at some time, as far as its slots remember. -/
def Issued (a : Arena α) (k : Key) : Prop :=
  ∃ s, a.slots[k.slot]? = some s ∧
    (k.version < s.version ∨ k.version = s.version ∧ s.content ≠ none)

theorem not_issued_nextKey (a : Arena α) : ¬ a.Issued a.nextKey := by
  rintro ⟨s, hs, h⟩
  unfold nextKey at hs h
  cases hf : a.free with
  | nil => simp [hf] at hs
  | cons i rest =>
    obtain ⟨t, ht, hn⟩ := (a.mem_free_iff i).mp (by simp [hf])
    simp only [hf, ht] at hs h
    cases hs
    rcases h with h | h
    · simp at h
    · exact h.2 hn

theorem issued_of_get? {a : Arena α} {k : Key} {x : α} (h : a.get? k = some x) : a.Issued k :=
  ⟨_, get?_eq_some_iff.mp h, Or.inr ⟨rfl, by simp⟩⟩

theorem Issued.insert {a : Arena α} {k : Key} (h : a.Issued k) (x : α) :
    (a.insert x).Issued k := by
  obtain ⟨s, hs, hk⟩ := h
  have hb := (Array.getElem?_eq_some_iff.mp hs).1
  unfold Arena.insert
  split
  · exact ⟨s, by simp [Array.getElem?_push_lt hb, (Array.getElem?_eq_some_iff.mp hs).2], hk⟩
  · next i rest hf =>
    obtain ⟨t, ht, hn⟩ := (a.mem_free_iff i).mp (by simp [hf])
    by_cases e : i = k.slot
    · subst e
      rw [ht] at hs
      cases hs
      refine ⟨⟨a.nextKey.version, some x⟩, by simp [hb], ?_⟩
      have hv : a.nextKey.version = s.version := by simp only [nextKey, hf, ht]; rfl
      rcases hk with hk | hk
      · exact Or.inl (by rw [hv]; exact hk)
      · exact absurd hn hk.2
    · exact ⟨s, by simp [e, hs], hk⟩

theorem Issued.vacate {a : Arena α} {j : Key} (hj : a.Issued j) (k : Key) {x : α}
    (h : a.get? k = some x) : (a.vacate k h).Issued j := by
  obtain ⟨s, hs, hk⟩ := hj
  have hb := (Array.getElem?_eq_some_iff.mp hs).1
  have hx := get?_eq_some_iff.mp h
  by_cases e : k.slot = j.slot
  · rw [← e, hx] at hs
    cases hs
    refine ⟨⟨k.version + 1, none⟩, ?_, Or.inl ?_⟩
    · simp [Arena.vacate, e, hb]
    · rcases hk with hk | hk <;> simp at hk ⊢ <;> omega
  · exact ⟨s, by simp [Arena.vacate, e, hs], hk⟩

theorem Issued.replace {a : Arena α} {j : Key} (hj : a.Issued j) (k : Key) (y : α) {x : α}
    (h : a.get? k = some x) : (a.replace k y h).Issued j := by
  obtain ⟨s, hs, hk⟩ := hj
  have hb := (Array.getElem?_eq_some_iff.mp hs).1
  have hx := get?_eq_some_iff.mp h
  by_cases e : k.slot = j.slot
  · rw [← e, hx] at hs
    cases hs
    refine ⟨⟨k.version, some y⟩, by simp [Arena.replace, e, hb], ?_⟩
    rcases hk with hk | hk
    · exact Or.inl hk
    · exact Or.inr ⟨hk.1, by simp⟩
  · exact ⟨s, by simp [Arena.replace, e, hs], hk⟩

theorem Issued.clear {a : Arena α} {k : Key} (h : a.Issued k) : a.clear.Issued k := by
  obtain ⟨s, hs, hk⟩ := h
  refine ⟨if s.content.isSome then ⟨s.version + 1, none⟩ else s, by simp [Arena.clear, hs], ?_⟩
  cases hc : s.content with
  | none => simp_all
  | some x =>
    refine Or.inl ?_
    rcases hk with hk | hk <;> simp <;> omega

theorem Issued.remove? {a b : Arena α} {j k : Key} {x : α} (hj : a.Issued j)
    (h : a.remove? k = some (x, b)) : b.Issued j := by
  rw [Arena.remove?] at h
  split at h
  · cases h
    exact hj.vacate _ _
  · exact nomatch h

theorem Issued.modify? {a b : Arena α} {j k : Key} {f : α → α} (hj : a.Issued j)
    (h : a.modify? k f = some b) : b.Issued j := by
  rw [Arena.modify?] at h
  split at h
  · cases h
    exact hj.replace _ _ _
  · exact nomatch h

end Arena

instance : Storage Arena where
  emptyWithCapacity := Arena.emptyWithCapacity
  size := Arena.size
  get? := Arena.get?
  nextKey := Arena.nextKey
  insert := Arena.insert
  remove? := Arena.remove?
  modify? := Arena.modify?
  clear := Arena.clear
  entries := Arena.entries
  Issued := Arena.Issued
  size_emptyWithCapacity := Arena.size_emptyWithCapacity
  get?_emptyWithCapacity := Arena.get?_emptyWithCapacity
  mem_entries := Arena.mem_entries
  nodup_keys_entries := Arena.nodup_keys_entries
  issued_of_get? := Arena.issued_of_get?
  not_issued_nextKey := Arena.not_issued_nextKey
  size_insert := Arena.size_insert
  get?_insert := Arena.get?_insert
  issued_insert x h := Arena.Issued.insert h x
  remove?_eq_none_iff := Arena.remove?_eq_none_iff
  get?_remove? := Arena.get?_remove?
  issued_remove? h hj := Arena.Issued.remove? hj h
  modify?_eq_none_iff := Arena.modify?_eq_none_iff
  get?_modify? := Arena.get?_modify?
  issued_modify? h hj := Arena.Issued.modify? hj h
  size_clear := Arena.size_clear
  get?_clear := Arena.get?_clear
  issued_clear := Arena.Issued.clear

end MonotoneQueue

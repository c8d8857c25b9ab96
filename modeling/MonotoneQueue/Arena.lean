import MonotoneQueue.Storage

/- An arena of slots. A value lives in a slot; its key names the slot and the number of times the slot
   had been emptied when the value came in. Emptied slots are used again, but under a new version, so a
   key resolves from the insertion that issued it until its value is removed and never after.
   `get?_insert`, `get?_remove?`, `get?_modify?` and `get?_clear` say what keys resolve to after each
   operation; `Arena/Issued` says that no key is issued twice, so that an arena is a `Storage`. -/
namespace MonotoneQueue

/-- A place for one value, with the number of times it has been emptied. -/
structure Slot (α : Type) where
  version : Nat
  content : Option α
  deriving Repr

/-- Slots, the vacant ones among them in the order in which they are used again, and the number
    of values stored. -/
structure Arena (α : Type) where
  slots : Array (Slot α)
  free : List Nat
  size : Nat
  mem_free_iff : ∀ i, i ∈ free ↔ ∃ s, slots[i]? = some s ∧ s.content = none
  nodup_free : free.Nodup
  size_eq : size + free.length = slots.size

namespace Arena

variable {α : Type}

/-- Nothing stored, with room for `n` values before more memory is needed. -/
def emptyWithCapacity (n : Nat) : Arena α where
  slots := .emptyWithCapacity n
  free := []
  size := 0
  mem_free_iff := by simp
  nodup_free := .nil
  size_eq := rfl

/-- The value that a key names, if it is still stored. -/
def get? (a : Arena α) (k : Key) : Option α :=
  match a.slots[k.slot]? with
  | some s => if s.version = k.version then s.content else none
  | none => none

theorem get?_eq_some_iff {a : Arena α} {k : Key} {x : α} :
    a.get? k = some x ↔ a.slots[k.slot]? = some ⟨k.version, some x⟩ := by
  unfold get?
  cases h : a.slots[k.slot]? with
  | none => simp
  | some s =>
    obtain ⟨v, c⟩ := s
    simp only [Option.some.injEq, Slot.mk.injEq]
    split <;> simp_all

theorem size_pos (a : Arena α) {k : Key} {x : α} (h : a.get? k = some x) : 0 < a.size := by
  rw [get?_eq_some_iff] at h
  have hb := (Array.getElem?_eq_some_iff.mp h).1
  have hk : k.slot ∉ a.free := fun hm => by
    obtain ⟨s, hs, hn⟩ := (a.mem_free_iff _).mp hm
    rw [h] at hs
    cases hs
    cases hn
  have hsub : (k.slot :: a.free) ⊆ List.range a.slots.size := by
    intro i hi
    rcases List.mem_cons.mp hi with rfl | hi
    · exact List.mem_range.mpr hb
    · obtain ⟨s, hs, -⟩ := (a.mem_free_iff _).mp hi
      exact List.mem_range.mpr (Array.getElem?_eq_some_iff.mp hs).1
  have := (List.nodup_cons.mpr ⟨hk, a.nodup_free⟩).length_le_of_subset hsub
  have := a.size_eq
  simp at *
  omega

/-- The key under which the next value is stored. -/
def nextKey (a : Arena α) : Key :=
  match a.free with
  | [] => ⟨a.slots.size, 0⟩
  | i :: _ => ⟨i, (a.slots[i]?.map (·.version)).getD 0⟩

/-- Stores a value under `nextKey`. -/
def insert (a : Arena α) (x : α) : Arena α :=
  match h : a.free with
  | [] =>
    { slots := a.slots.push ⟨0, some x⟩
      free := []
      size := a.size + 1
      mem_free_iff := by
        intro i
        have := a.mem_free_iff i
        rw [h] at this
        rw [Array.getElem?_push]
        split <;> simp_all
      nodup_free := .nil
      size_eq := by
        have := a.size_eq
        rw [h] at this
        simp_all }
  | i :: rest =>
    { slots := a.slots.setIfInBounds i ⟨a.nextKey.version, some x⟩
      free := rest
      size := a.size + 1
      mem_free_iff := by
        intro j
        have hj := a.mem_free_iff j
        have hd := a.nodup_free
        rw [h] at hj hd
        rw [Array.getElem?_setIfInBounds]
        have hi : i ∉ rest := (List.nodup_cons.mp hd).1
        by_cases e : i = j
        · subst e
          simp only [hi, if_true]
          split <;> simp
        · have e' : j ≠ i := fun q => e q.symm
          simp [e, e'] at hj ⊢
          exact hj
      nodup_free := by
        have := a.nodup_free
        rw [h] at this
        exact (List.nodup_cons.mp this).2
      size_eq := by
        have := a.size_eq
        rw [h] at this
        simp at this ⊢
        omega }

/-- Empties the slot of a stored value. The slot's next key has a new version. -/
def vacate (a : Arena α) (k : Key) {x : α} (h : a.get? k = some x) : Arena α where
  slots := a.slots.setIfInBounds k.slot ⟨k.version + 1, none⟩
  free := k.slot :: a.free
  size := a.size - 1
  mem_free_iff := by
    intro i
    have hi := a.mem_free_iff i
    rw [get?_eq_some_iff] at h
    have hb := (Array.getElem?_eq_some_iff.mp h).1
    rw [List.mem_cons, Array.getElem?_setIfInBounds]
    by_cases e : k.slot = i
    · subst e
      simp [hb]
    · have e' : i ≠ k.slot := fun q => e q.symm
      simp [e, e', hi]
  nodup_free := by
    rw [get?_eq_some_iff] at h
    refine List.nodup_cons.mpr ⟨fun hk => ?_, a.nodup_free⟩
    obtain ⟨s, hs, hn⟩ := (a.mem_free_iff _).mp hk
    rw [h] at hs
    cases hs
    cases hn
  size_eq := by
    have := a.size_eq
    have := a.size_pos h
    simp
    omega

/-- Takes out the value that a key names, if it is still stored. -/
def remove? (a : Arena α) (k : Key) : Option (α × Arena α) :=
  match h : a.get? k with
  | some x => some (x, a.vacate k h)
  | none => none

/-- Puts another value in the slot of a stored value, under the same key. -/
def replace (a : Arena α) (k : Key) (y : α) {x : α} (h : a.get? k = some x) : Arena α where
  slots := a.slots.setIfInBounds k.slot ⟨k.version, some y⟩
  free := a.free
  size := a.size
  mem_free_iff := by
    intro i
    have hi := a.mem_free_iff i
    rw [get?_eq_some_iff] at h
    have hb := (Array.getElem?_eq_some_iff.mp h).1
    rw [Array.getElem?_setIfInBounds]
    by_cases e : k.slot = i
    · subst e
      simp [hi, h]
    · simp [e, hi]
  nodup_free := a.nodup_free
  size_eq := by simpa using a.size_eq

/-- Changes the value that a key names, if it is still stored. -/
def modify? (a : Arena α) (k : Key) (f : α → α) : Option (Arena α) :=
  match h : a.get? k with
  | some x => some (a.replace k (f x) h)
  | none => none

/-- The value in a slot with the key that names it, if there is one. -/
def entryAt (a : Arena α) (i : Nat) : Option (Key × α) :=
  match a.slots[i]? with
  | some s => s.content.map fun x => (⟨i, s.version⟩, x)
  | none => none

/-- The values with the keys that name them, slot by slot. -/
def entries (a : Arena α) : List (Key × α) := (List.range a.slots.size).filterMap a.entryAt

/-- Takes out every value. Every slot that was in use gets a new version. -/
def clear (a : Arena α) : Arena α where
  slots := a.slots.map fun s => if s.content.isSome then ⟨s.version + 1, none⟩ else s
  free := List.range a.slots.size
  size := 0
  mem_free_iff := by
    intro i
    by_cases h : i < a.slots.size
    · simp only [List.mem_range, h, true_iff, Array.getElem?_map, Array.getElem?_eq_getElem h,
        Option.map_some]
      refine ⟨_, rfl, ?_⟩
      split <;> simp_all
    · simp [h]
  nodup_free := List.nodup_range
  size_eq := by simp

/-! What a key resolves to after each operation. -/

@[simp] theorem get?_emptyWithCapacity (n : Nat) (k : Key) :
    (emptyWithCapacity n : Arena α).get? k = none := by
  simp [emptyWithCapacity, get?]

theorem get?_insert (a : Arena α) (x : α) (k : Key) :
    (a.insert x).get? k = if k = a.nextKey then some x else a.get? k := by
  obtain ⟨s, v⟩ := k
  unfold insert
  split
  · next h =>
    simp only [get?, nextKey, h, Array.getElem?_push, Key.mk.injEq]
    by_cases e : s = a.slots.size
    · subst e
      by_cases hv : v = 0 <;> simp [hv, eq_comm]
    · simp [e]
  · next i rest h =>
    obtain ⟨t, ht, hn⟩ := (a.mem_free_iff i).mp (by simp [h])
    obtain ⟨hb, hi⟩ := Array.getElem?_eq_some_iff.mp ht
    have hk : a.nextKey = ⟨i, t.version⟩ := by simp [nextKey, h, ht]
    simp only [get?, hk, Array.getElem?_setIfInBounds, Key.mk.injEq]
    by_cases e : s = i
    · subst e
      by_cases hv : v = t.version
      · simp [hb, hv]
      · have hv' : t.version ≠ v := fun q => hv q.symm
        simp [hb, hv, hv', hi]
    · have e' : i ≠ s := fun q => e q.symm
      simp [e, e']

theorem get?_vacate (a : Arena α) (k : Key) {x : α} (h : a.get? k = some x) (j : Key) :
    (a.vacate k h).get? j = if j = k then none else a.get? j := by
  obtain ⟨hb, hs⟩ := Array.getElem?_eq_some_iff.mp (get?_eq_some_iff.mp h)
  obtain ⟨s, v⟩ := j
  simp only [vacate, get?, Array.getElem?_setIfInBounds]
  by_cases e : k.slot = s
  · subst e
    by_cases hv : k.version = v
    · subst hv
      simp [hb]
    · have hk : Key.mk k.slot v ≠ k := fun q => hv (by rw [← q])
      simp [hb, hs, hv, hk]
  · have hk : Key.mk s v ≠ k := fun q => e (by rw [← q])
    simp [e, hk]

theorem get?_replace (a : Arena α) (k : Key) (y : α) {x : α} (h : a.get? k = some x) (j : Key) :
    (a.replace k y h).get? j = if j = k then some y else a.get? j := by
  obtain ⟨hb, hs⟩ := Array.getElem?_eq_some_iff.mp (get?_eq_some_iff.mp h)
  obtain ⟨s, v⟩ := j
  simp only [replace, get?, Array.getElem?_setIfInBounds]
  by_cases e : k.slot = s
  · subst e
    by_cases hv : k.version = v
    · subst hv
      simp [hb]
    · have hk : Key.mk k.slot v ≠ k := fun q => hv (by rw [← q])
      simp [hb, hs, hv, hk]
  · have hk : Key.mk s v ≠ k := fun q => e (by rw [← q])
    simp [e, hk]

theorem remove?_eq_none_iff {a : Arena α} {k : Key} : a.remove? k = none ↔ a.get? k = none := by
  unfold remove?
  split <;> simp_all

theorem get?_remove? {a b : Arena α} {k : Key} {x : α} (h : a.remove? k = some (x, b)) :
    a.get? k = some x ∧ (∀ j, b.get? j = if j = k then none else a.get? j) ∧
      b.size + 1 = a.size := by
  unfold remove? at h
  split at h
  · next y hy =>
    cases h
    have := a.size_pos hy
    exact ⟨hy, a.get?_vacate k hy, by simp [vacate]; omega⟩
  · cases h

theorem modify?_eq_none_iff {a : Arena α} {k : Key} {f : α → α} :
    a.modify? k f = none ↔ a.get? k = none := by
  unfold modify?
  split <;> simp_all

theorem get?_modify? {a b : Arena α} {k : Key} {f : α → α} (h : a.modify? k f = some b) :
    ∃ x, a.get? k = some x ∧ (∀ j, b.get? j = if j = k then some (f x) else a.get? j) ∧
      b.size = a.size := by
  unfold modify? at h
  split at h
  · next x hx =>
    cases h
    exact ⟨x, hx, a.get?_replace k (f x) hx, rfl⟩
  · cases h

@[simp] theorem get?_clear (a : Arena α) (k : Key) : a.clear.get? k = none := by
  simp only [clear, get?, Array.getElem?_map]
  cases a.slots[k.slot]? with
  | none => rfl
  | some s => cases h : s.content <;> simp [h]

@[simp] theorem size_emptyWithCapacity (n : Nat) : (emptyWithCapacity n : Arena α).size = 0 := rfl

@[simp] theorem size_insert (a : Arena α) (x : α) : (a.insert x).size = a.size + 1 := by
  unfold insert
  split <;> rfl

@[simp] theorem size_clear (a : Arena α) : a.clear.size = 0 := rfl

/-! What is stored. -/

theorem entryAt_eq_some_iff {a : Arena α} {i : Nat} {k : Key} {x : α} :
    a.entryAt i = some (k, x) ↔ k.slot = i ∧ a.get? k = some x := by
  obtain ⟨j, v⟩ := k
  rw [entryAt, get?_eq_some_iff]
  constructor
  · intro h
    split at h
    · next s hs =>
      obtain ⟨y, hy, heq⟩ := Option.map_eq_some_iff.mp h
      cases heq
      exact ⟨rfl, by rw [hs, ← hy]⟩
    · cases h
  · rintro ⟨rfl, hs⟩
    rw [hs]
    rfl

theorem mem_entries {a : Arena α} {k : Key} {x : α} : (k, x) ∈ a.entries ↔ a.get? k = some x := by
  rw [entries, List.mem_filterMap]
  constructor
  · rintro ⟨i, -, h⟩
    exact (entryAt_eq_some_iff.mp h).2
  · intro h
    have hlt := (Array.getElem?_eq_some_iff.mp (get?_eq_some_iff.mp h)).1
    exact ⟨k.slot, List.mem_range.mpr hlt, entryAt_eq_some_iff.mpr ⟨rfl, h⟩⟩

theorem nodup_keys_entries (a : Arena α) : (a.entries.map Prod.fst).Nodup := by
  rw [entries, List.Nodup, List.pairwise_map, List.pairwise_filterMap]
  refine List.nodup_range.imp ?_
  rintro i j hne ⟨k, x⟩ hi ⟨l, y⟩ hj heq
  apply hne
  rw [← (entryAt_eq_some_iff.mp hi).1, ← (entryAt_eq_some_iff.mp hj).1]
  exact congrArg Key.slot heq

end Arena
end MonotoneQueue

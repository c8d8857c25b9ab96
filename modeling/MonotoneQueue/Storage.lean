/- Storage that hands out keys, as a queue relies on it. A value that comes in is known by its key until it
   is taken out, and the key is not handed out a second time, also when the place of the value is used
   again. The laws of `Storage` are all that is asked of the place where a queue keeps its elements;
   `Arena` is one that has them.

   The laws idealise in two respects: there is always room for one value more, and a place can be emptied
   any number of times before its keys run out.

   Correspondence with `SlotMap`:
     `with_capacity_and_key`   ↔ `emptyWithCapacity`
     `len`                     ↔ `size`
     `get`, `contains_key`     ↔ `get?`
     the key out of `insert`   ↔ `nextKey` before it
     `remove`                  ↔ `remove?`
     `get_mut`                 ↔ `modify?`
     `iter`                    ↔ `entries` -/
namespace MonotoneQueue

/-- Names a stored value: its place and the number of times that place had been emptied before. -/
structure Key where
  slot : Nat
  version : Nat
  deriving DecidableEq, Repr

/-- Storage for values of any type, with the keys that it hands out. -/
class Storage (S : Type → Type) where
  /-- Nothing stored, with room for `n` values before more memory is needed. -/
  emptyWithCapacity {α : Type} (n : Nat) : S α
  /-- The number of values stored. -/
  size {α : Type} : S α → Nat
  /-- The value that a key names, if it is still stored. -/
  get? {α : Type} : S α → Key → Option α
  /-- The key under which the next value is stored. -/
  nextKey {α : Type} : S α → Key
  /-- Stores a value under `nextKey`. -/
  insert {α : Type} : S α → α → S α
  /-- Takes out the value that a key names, if it is still stored. -/
  remove? {α : Type} : S α → Key → Option (α × S α)
  /-- Changes the value that a key names, if it is still stored. -/
  modify? {α : Type} : S α → Key → (α → α) → Option (S α)
  /-- Takes out every value. -/
  clear {α : Type} : S α → S α
  /-- The values stored, with the keys that name them, in some order. -/
  entries {α : Type} : S α → List (Key × α)
  /-- The key has been handed out at some time. -/
  Issued {α : Type} : S α → Key → Prop
  size_emptyWithCapacity {α : Type} (n : Nat) : size (emptyWithCapacity n : S α) = 0
  mem_entries {α : Type} {a : S α} {k : Key} {x : α} : (k, x) ∈ entries a ↔ get? a k = some x
  nodup_keys_entries {α : Type} (a : S α) : ((entries a).map Prod.fst).Nodup
  get?_emptyWithCapacity {α : Type} (n : Nat) (k : Key) : get? (emptyWithCapacity n : S α) k = none
  issued_of_get? {α : Type} {a : S α} {k : Key} {x : α} : get? a k = some x → Issued a k
  not_issued_nextKey {α : Type} (a : S α) : ¬ Issued a (nextKey a)
  size_insert {α : Type} (a : S α) (x : α) : size (insert a x) = size a + 1
  get?_insert {α : Type} (a : S α) (x : α) (k : Key) :
    get? (insert a x) k = if k = nextKey a then some x else get? a k
  issued_insert {α : Type} {a : S α} {k : Key} (x : α) : Issued a k → Issued (insert a x) k
  remove?_eq_none_iff {α : Type} {a : S α} {k : Key} : remove? a k = none ↔ get? a k = none
  get?_remove? {α : Type} {a b : S α} {k : Key} {x : α} : remove? a k = some (x, b) →
    get? a k = some x ∧ (∀ j, get? b j = if j = k then none else get? a j) ∧ size b + 1 = size a
  issued_remove? {α : Type} {a b : S α} {j k : Key} {x : α} :
    remove? a k = some (x, b) → Issued a j → Issued b j
  modify?_eq_none_iff {α : Type} {a : S α} {k : Key} {f : α → α} :
    modify? a k f = none ↔ get? a k = none
  get?_modify? {α : Type} {a b : S α} {k : Key} {f : α → α} : modify? a k f = some b →
    ∃ x, get? a k = some x ∧ (∀ j, get? b j = if j = k then some (f x) else get? a j) ∧ size b = size a
  issued_modify? {α : Type} {a b : S α} {j k : Key} {f : α → α} :
    modify? a k f = some b → Issued a j → Issued b j
  size_clear {α : Type} (a : S α) : size (clear a) = 0
  get?_clear {α : Type} (a : S α) (k : Key) : get? (clear a) k = none
  issued_clear {α : Type} {a : S α} {k : Key} : Issued a k → Issued (clear a) k

namespace Storage

attribute [simp] size_emptyWithCapacity get?_emptyWithCapacity size_insert size_clear get?_clear

variable {S : Type → Type} [Storage S] {α : Type}

theorem get?_nextKey (a : S α) : get? a (nextKey a) = none := by
  cases hx : get? a (nextKey a) with
  | none => rfl
  | some x => exact absurd (issued_of_get? hx) (not_issued_nextKey a)

end Storage
end MonotoneQueue

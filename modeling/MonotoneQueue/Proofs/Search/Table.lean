import Mathlib
import MonotoneQueue.Graph.Walk
import MonotoneQueue.Proofs.Result
import MonotoneQueue.Search.Table

/- A table of discovered nodes read by position. Each operation on a sound table changes one entry
   at most (`SetAt`) and leaves the table sound. -/
namespace MonotoneQueue.Search.Table

variable {κ : Type}

/-- The tables differ in the entry at `j` alone, which is `d` in the second. -/
def SetAt (t : Table κ) (j : Nat) (d : Discovery κ) (t' : Table κ) : Prop :=
  ∀ i, t'.entries[i]? = if i = j then some d else t.entries[i]?

namespace SetAt

variable {t t' : Table κ} {j : Nat} {d : Discovery κ}

theorem self (h : SetAt t j d t') : t'.entries[j]? = some d := by
  rw [h j, if_pos rfl]

theorem other (h : SetAt t j d t') {i : Nat} (hi : i ≠ j) : t'.entries[i]? = t.entries[i]? := by
  rw [h i, if_neg hi]

theorem cases (h : SetAt t j d t') {i : Nat} {x : Discovery κ} (hx : t'.entries[i]? = some x) :
    (i = j ∧ x = d) ∨ (i ≠ j ∧ t.entries[i]? = some x) := by
  by_cases hi : i = j
  · rw [hi, h.self, Option.some.injEq] at hx
    exact Or.inl ⟨hi, hx.symm⟩
  · exact Or.inr ⟨hi, by rwa [← h.other hi]⟩

end SetAt

theorem start_entry_iff {key s i : Nat} {zero : κ} {d : Discovery κ} :
    (Table.start key s zero).entries[i]? = some d ↔ i = 0 ∧ d = ⟨s, zero, none, false⟩ := by
  cases i <;> simp [Table.start, eq_comm]

/-- The index finds every entry by the key of its node, and nothing else. All entries are of nodes
    that a search from `s` can meet. -/
structure Indexed (g : Graph κ) (s : Nat) (t : Table κ) : Prop where
  index_iff : ∀ k i, t.index[k]? = some i ↔
    ∃ d : Discovery κ, t.entries[i]? = some d ∧ g.key d.node = k
  mem_nodes : ∀ (i : Nat) (d : Discovery κ), t.entries[i]? = some d → d.node ∈ g.nodes s

/-- The entry at `j` is or becomes `d`, by a way to `n` over the entry at `i` that is better than
    those before. -/
structure Improves (g : Graph κ) (t : Table κ) (n i : Nat) (cost : κ) [LE κ] (j : Nat)
    (d : Discovery κ) : Prop where
  key_eq : g.key d.node = g.key n
  cost_eq : d.cost = cost
  parent_eq : d.parent = some i
  closed_eq : d.closed = false
  /-- An entry that was there before was dearer. -/
  old : ∀ d₀, t.entries[j]? = some d₀ → d₀.closed = false ∧ d.node = d₀.node ∧ ¬ d₀.cost ≤ cost
  new : t.entries[j]? = none → d.node = n

namespace Indexed

variable {g : Graph κ} {s : Nat} {t t' : Table κ} {i j : Nat} {d d' : Discovery κ}

theorem position_unique (h : Indexed g s t) (hi : t.entries[i]? = some d)
    (hj : t.entries[j]? = some d') (hk : g.key d.node = g.key d'.node) : i = j := by
  have hi' := (h.index_iff (g.key d'.node) i).mpr ⟨d, hi, hk⟩
  have hj' := (h.index_iff (g.key d'.node) j).mpr ⟨d', hj, rfl⟩
  rw [hi', Option.some.injEq] at hj'
  exact hj'

theorem start (g : Graph κ) (s : Nat) (zero : κ) : Indexed g s (Table.start (g.key s) s zero) := by
  constructor
  case index_iff =>
    intro k i
    simp only [start_entry_iff]
    rw [Table.start, Std.TreeMap.getElem?_insert]
    split
    · next hk =>
      rw [Nat.compare_eq_eq] at hk
      simp [hk, eq_comm]
    · next hk =>
      rw [Nat.compare_eq_eq] at hk
      simp [hk]
  case mem_nodes =>
    intro i d hd
    rw [(start_entry_iff.mp hd).2]
    exact List.mem_cons_self

/-- An entry may change in all but its node. -/
theorem set (h : Indexed g s t) (hset : SetAt t j d' t') (hindex : t'.index = t.index)
    (hd : t.entries[j]? = some d) (hnode : d'.node = d.node) : Indexed g s t' := by
  constructor
  case index_iff =>
    intro k i
    rw [hindex, h.index_iff]
    by_cases hi : i = j
    · rw [hi, hd, hset.self]
      simp [hnode]
    · rw [hset.other hi]
  case mem_nodes =>
    intro i x hx
    rcases hset.cases hx with ⟨-, rfl⟩ | ⟨-, hx⟩
    · rw [hnode]
      exact h.mem_nodes j d hd
    · exact h.mem_nodes i x hx

theorem push (h : Indexed g s t) (hset : SetAt t t.size d t')
    (hindex : t'.index = t.index.insert (g.key d.node) t.size)
    (hnew : t.index[g.key d.node]? = none) (hd : d.node ∈ g.nodes s) : Indexed g s t' := by
  have hout : t.entries[t.size]? = none := Array.getElem?_eq_none (Nat.le_refl _)
  constructor
  case index_iff =>
    intro k i
    rw [hindex, Std.TreeMap.getElem?_insert, hset i]
    by_cases hk : g.key d.node = k
    · rw [if_pos (Nat.compare_eq_eq.mpr hk), Option.some.injEq]
      constructor
      · rintro rfl
        exact ⟨d, if_pos rfl, hk⟩
      · -- no entry from before has that key
        rintro ⟨x, hx, hxk⟩
        by_contra hi
        rw [if_neg (Ne.symm hi)] at hx
        have := (h.index_iff k i).mpr ⟨x, hx, hxk⟩
        rw [← hk, hnew] at this
        exact nomatch this
    · rw [if_neg (fun hc => hk (Nat.compare_eq_eq.mp hc)), h.index_iff]
      by_cases hi : i = t.size
      · subst hi
        rw [hout]
        simp [hk]
      · rw [if_neg hi]
  case mem_nodes =>
    intro i x hx
    rcases hset.cases hx with ⟨-, rfl⟩ | ⟨-, hx⟩
    · exact hd
    · exact h.mem_nodes i x hx

end Indexed

theorem setAt_setIfInBounds {t : Table κ} {j : Nat} {d₀ : Discovery κ}
    (hj : t.entries[j]? = some d₀) (d : Discovery κ) :
    SetAt t j d { t with entries := t.entries.setIfInBounds j d } := by
  intro i
  have hlt : j < t.entries.size := (Array.getElem?_eq_some_iff.mp hj).1
  show (t.entries.setIfInBounds j d)[i]? = _
  rw [Array.getElem?_setIfInBounds, if_pos hlt]
  simp only [eq_comm]

theorem close_cases {t : Table κ} {i : Nat} {d : Discovery κ} (hd : t.entries[i]? = some d) :
    (d.closed = true ∧ t.close i = .ok none) ∨
    (d.closed = false ∧ ∃ t', t.close i = .ok (some ({ d with closed := true }, t')) ∧
      SetAt t i { d with closed := true } t' ∧ t'.index = t.index) := by
  have hentry : t.entry i = .ok d := by rw [entry, hd]
  cases hc : d.closed with
  | true => exact Or.inl ⟨rfl, by simp only [close, hentry, Result.ok_bind, hc, if_true]⟩
  | false =>
    refine Or.inr ⟨rfl, _, ?_, setAt_setIfInBounds hd _, rfl⟩
    simp only [close, hentry, Result.ok_bind, hc, Bool.false_eq_true, if_false]

theorem exists_entry_of_close {t : Table κ} {i : Nat} {r : Option (Discovery κ × Table κ)}
    (h : t.close i = .ok r) : ∃ d, t.entries[i]? = some d := by
  obtain ⟨d, hentry, -⟩ := Result.bind_eq_ok.mp h
  rw [entry] at hentry
  split at hentry
  · next d' hd => exact ⟨d', hd⟩
  · cases hentry

/-- A way to a node is passed over, if the node is closed or known at no higher cost, or else makes
    an entry for it. -/
theorem Indexed.relax_cases [LE κ] [DecidableLE κ] {g : Graph κ} {s : Nat} {t : Table κ}
    (h : Indexed g s t) {n : Nat} (hn : n ∈ g.nodes s) (i : Nat) (cost : κ) :
    (t.relax (g.key n) n i cost = .ok (t, none) ∧ ∃ (j : Nat) (d : Discovery κ),
      t.entries[j]? = some d ∧ g.key d.node = g.key n ∧ (d.closed = true ∨ d.cost ≤ cost)) ∨
    ∃ j d t', t.relax (g.key n) n i cost = .ok (t', some j) ∧ SetAt t j d t' ∧
      Improves g t n i cost j d ∧ Indexed g s t' := by
  cases hindex : t.index[g.key n]? with
  | none =>
    have hset : SetAt t t.size ⟨n, cost, some i, false⟩
        ⟨t.entries.push ⟨n, cost, some i, false⟩, t.index.insert (g.key n) t.size⟩ :=
      fun _ => Array.getElem?_push
    have hout : t.entries[t.size]? = none := Array.getElem?_eq_none (Nat.le_refl _)
    refine Or.inr ⟨t.size, ⟨n, cost, some i, false⟩, _, by rw [relax, hindex]; rfl, hset, ?_,
      h.push hset rfl hindex hn⟩
    exact ⟨rfl, rfl, rfl, rfl, fun d₀ hd₀ => absurd (hout ▸ hd₀) nofun, fun _ => rfl⟩
  | some j =>
    obtain ⟨d, hd, hk⟩ := (h.index_iff (g.key n) j).mp hindex
    have hentry : t.entry j = .ok d := by rw [entry, hd]
    by_cases hpass : d.closed ∨ d.cost ≤ cost
    · refine Or.inl ⟨?_, j, d, hd, hk, hpass⟩
      simp only [relax, hindex, hentry, Result.ok_bind, if_pos hpass]
    · have hopen : d.closed = false := by simpa using fun hc => hpass (Or.inl hc)
      have hset := setAt_setIfInBounds hd { d with cost, parent := some i }
      refine Or.inr ⟨j, _, _, ?_, hset, ?_, h.set hset rfl hd rfl⟩
      · simp only [relax, hindex, hentry, Result.ok_bind, if_neg hpass]
      · refine ⟨hk, rfl, rfl, hopen, ?_, ?_⟩
        · intro d₀ hd₀
          rw [hd, Option.some.injEq] at hd₀
          subst hd₀
          exact ⟨hopen, rfl, fun hle => hpass (Or.inr hle)⟩
        · intro hnone
          rw [hd] at hnone
          exact nomatch hnone

end MonotoneQueue.Search.Table

import Mathlib
import MonotoneQueue.Proofs.Search.Follow

/- What is queued, against the table. Copies with an outdated priority may stay behind, but every
   open entry has one copy with the right priority and none with a lower one, so that the first copy
   to come out has the right one. Stale copies come out later and are passed over. -/
namespace MonotoneQueue.Search

open Cost (value)

variable {κ : Type} [LE κ] [Cost κ] {H : Nat → Int} {t t' : Table κ} {M M' : Multiset (κ × Nat)}
  {i : Nat} {d : Discovery κ} {p : κ}

/-- The priority under which the entry should be queued. -/
def Discovery.total (H : Nat → Int) (d : Discovery κ) : Int := value d.cost + H d.node

/-- The queue holds every open entry under its total, and under nothing less. -/
structure Pending (H : Nat → Int) (t : Table κ) (M : Multiset (κ × Nat)) : Prop where
  known : ∀ x ∈ M, ∃ d, t.entries[x.2]? = some d
  queued : ∀ (i : Nat) (d : Discovery κ), t.entries[i]? = some d → d.closed = false →
    ∃ p, (p, i) ∈ M ∧ value p = d.total H
  le : ∀ x ∈ M, ∀ d : Discovery κ, t.entries[x.2]? = some d → d.closed = false →
    d.total H ≤ value x.1

/-- Nodes with equal keys go with equal integers. -/
def Respects (g : Graph κ) (s : Nat) (H : Nat → Int) : Prop :=
  ∀ a ∈ g.nodes s, ∀ b ∈ g.nodes s, g.key a = g.key b → H a = H b

omit [LE κ] [Cost κ] in
theorem Respects.zero (g : Graph κ) (s : Nat) : Respects g s fun _ => 0 := fun _ _ _ _ _ => rfl

omit [LE κ] [Cost κ] in
theorem Respects.of_distinctKeys {g : Graph κ} {s : Nat} (hg : g.DistinctKeys s) (H : Nat → Int) :
    Respects g s H := by
  intro a ha b hb hk
  rw [hg a ha b hb hk]

namespace Pending

theorem start (key s : Nat) (hp : value p = H s) :
    Pending H (.start key s Cost.zero) {(p, 0)} := by
  have htotal : (⟨s, Cost.zero, none, false⟩ : Discovery κ).total H = H s := by
    rw [Discovery.total, Cost.value_zero, zero_add]
  constructor
  case known =>
    intro x hx
    rw [Multiset.mem_singleton.mp hx]
    exact ⟨_, Table.start_entry_iff.mpr ⟨rfl, rfl⟩⟩
  case queued =>
    intro i d hd _
    obtain ⟨rfl, rfl⟩ := Table.start_entry_iff.mp hd
    exact ⟨p, Multiset.mem_singleton_self _, by rw [htotal, hp]⟩
  case le =>
    intro x hx d hd _
    rw [Multiset.mem_singleton.mp hx] at hd ⊢
    obtain ⟨-, rfl⟩ := Table.start_entry_iff.mp hd
    exact (htotal.trans hp.symm).le

/-- A least copy that comes out for an open entry has its total as priority. -/
theorem eq_total_of_least (h : Pending H t ((p, i) ::ₘ M)) (hd : t.entries[i]? = some d)
    (hopen : d.closed = false) (hleast : ∀ x ∈ (p, i) ::ₘ M, value p ≤ value x.1) :
    value p = d.total H := by
  obtain ⟨p', hp', heq⟩ := h.queued i d hd hopen
  apply Int.le_antisymm
  · -- some copy has the total, and this one is no greater
    rw [← heq]
    exact hleast (p', i) hp'
  · exact h.le (p, i) (Multiset.mem_cons_self _ _) d hd hopen

theorem close (h : Pending H t ((p, i) ::ₘ M))
    (hset : t.SetAt i { d with closed := true } t') : Pending H t' M := by
  constructor
  case known =>
    intro x hx
    by_cases hi : x.2 = i
    · rw [hi]
      exact ⟨_, hset.self⟩
    · rw [hset.other hi]
      exact h.known x (Multiset.mem_cons_of_mem hx)
  case queued =>
    intro j d' hd' hopen
    rcases hset.cases hd' with ⟨-, rfl⟩ | ⟨hj, hd'⟩
    · exact nomatch hopen
    obtain ⟨p', hp', heq⟩ := h.queued j d' hd' hopen
    refine ⟨p', ?_, heq⟩
    rcases Multiset.mem_cons.mp hp' with e | hmem
    · exact absurd (congrArg Prod.snd e) hj
    · exact hmem
  case le =>
    intro x hx d' hd' hopen
    rcases hset.cases hd' with ⟨-, rfl⟩ | ⟨-, hd'⟩
    · exact nomatch hopen
    · exact h.le x (Multiset.mem_cons_of_mem hx) d' hd' hopen

theorem pass (h : Pending H t ((p, i) ::ₘ M)) (hd : t.entries[i]? = some d)
    (hclosed : d.closed = true) : Pending H t M := by
  apply h.close (d := d)
  intro j
  split
  · next hj =>
    rw [hj, hd, ← hclosed]
  · rfl

theorem follows {g : Graph κ} {s : Nat} {budget : Option κ} {base : κ} {e : Edge κ}
    (h : Pending H t M) (hH : Respects g s H) (ht : t.Indexed g s) (he : e.target ∈ g.nodes s)
    (hf : Follows g budget H i base e t M t' M') : Pending H t' M' := by
  cases hf with
  | refused => exact h
  | known => exact h
  | @improved j d cost p t' hset himp hcost hp =>
    have hnode : d.node ∈ g.nodes s := by
      cases hj : t.entries[j]? with
      | none => rwa [himp.new hj]
      | some d₀ =>
        rw [(himp.old d₀ hj).2.1]
        exact ht.mem_nodes j d₀ hj
    have htotal : value p = d.total H := by
      rw [hp, Discovery.total, himp.cost_eq, hH d.node hnode e.target he himp.key_eq]
    constructor
    case known =>
      intro x hx
      by_cases hj : x.2 = j
      · rw [hj]
        exact ⟨d, hset.self⟩
      · rw [hset.other hj]
        rcases Multiset.mem_cons.mp hx with rfl | hx
        · exact absurd rfl hj
        · exact h.known x hx
    case queued =>
      intro k d' hd' hopen
      rcases hset.cases hd' with ⟨rfl, rfl⟩ | ⟨-, hd'⟩
      · -- the copy that is queued now is the right one
        exact ⟨p, Multiset.mem_cons_self _ _, htotal⟩
      · obtain ⟨p', hp', heq⟩ := h.queued k d' hd' hopen
        exact ⟨p', Multiset.mem_cons_of_mem hp', heq⟩
    case le =>
      intro x hx d' hd' hopen
      rcases Multiset.mem_cons.mp hx with rfl | hx
      · obtain rfl : d = d' := Option.some.inj (hset.self ▸ hd')
        exact htotal.ge
      rcases hset.cases hd' with ⟨hj, rfl⟩ | ⟨-, hd'⟩
      · -- a copy from before has the total of a dearer way
        obtain ⟨d₀, hd₀⟩ := h.known x hx
        obtain ⟨hopen₀, hnode₀, hlt⟩ := himp.old d₀ (hj ▸ hd₀)
        rw [Cost.le_iff_value_le, ← himp.cost_eq] at hlt
        calc d'.total H = value d'.cost + H d₀.node := by rw [Discovery.total, hnode₀]
          _ ≤ value d₀.cost + H d₀.node := by omega
          _ ≤ value x.1 := h.le x hx d₀ hd₀ hopen₀
      · exact h.le x hx d' hd' hopen

end Pending
end MonotoneQueue.Search

import Mathlib
import MonotoneQueue.Proofs.PriorityQueue.Coupled
import MonotoneQueue.Proofs.Search.Visit

/- A search within a budget next to the same search within a larger one or none, as long as what comes out
   of the queue is within the smaller budget. The table of the first is that of the second without the
   entries over the budget (`Table.Trims`), which are all open, and the queues agree up to the budget. Where
   both follow an edge within the budget they do the same; a way over the budget changes nothing but the part
   that the first search does not have. Positions differ in the two tables, so entries are told apart by their
   nodes. -/
namespace MonotoneQueue.Search

open Cost (value)
open PriorityQueue.Coupled (Couples)

variable {κ : Type}

namespace Table

/-! Tables. -/

/-- The entries at these positions are of the same node. -/
def SameNode (t t' : Table κ) (i i' : Nat) : Prop :=
  ∃ d d' : Discovery κ, t.entries[i]? = some d ∧ t'.entries[i']? = some d' ∧ d.node = d'.node

/-- Every entry of the first table stays one of the same node. -/
def KeepsNodes (t t₁ : Table κ) : Prop :=
  ∀ (i : Nat) (d : Discovery κ), t.entries[i]? = some d → ∃ d₁, t₁.entries[i]? = some d₁ ∧ d₁.node = d.node

/-- The entries differ only where their parents stand. -/
structure Alike (t t' : Table κ) (d d' : Discovery κ) : Prop where
  node_eq : d.node = d'.node
  cost_eq : d.cost = d'.cost
  closed_eq : d.closed = d'.closed
  parents : Option.Rel (SameNode t t') d.parent d'.parent

variable {t t' t₁ t₁' : Table κ} {i i' j j' : Nat} {d d' : Discovery κ}

theorem KeepsNodes.refl (t : Table κ) : t.KeepsNodes t := fun _ d hd => ⟨d, hd, rfl⟩

theorem KeepsNodes.of_setAt (hset : t.SetAt j d t₁)
    (hold : ∀ d₀, t.entries[j]? = some d₀ → d.node = d₀.node) : t.KeepsNodes t₁ := by
  intro i x hx
  by_cases hi : i = j
  · exact ⟨d, hi ▸ hset.self, hold x (hi ▸ hx)⟩
  · exact ⟨x, (hset.other hi).trans hx, rfl⟩

theorem SameNode.mono (h : SameNode t t' i i') (hkeep : t.KeepsNodes t₁) (hkeep' : t'.KeepsNodes t₁') :
    SameNode t₁ t₁' i i' := by
  obtain ⟨d, d', hd, hd', hnode⟩ := h
  obtain ⟨d₁, hd₁, hnode₁⟩ := hkeep i d hd
  obtain ⟨d₁', hd₁', hnode₁'⟩ := hkeep' i' d' hd'
  exact ⟨d₁, d₁', hd₁, hd₁', by rw [hnode₁, hnode, hnode₁']⟩

theorem Alike.mono (h : Alike t t' d d') (hkeep : t.KeepsNodes t₁) (hkeep' : t'.KeepsNodes t₁') :
    Alike t₁ t₁' d d' := by
  refine ⟨h.node_eq, h.cost_eq, h.closed_eq, ?_⟩
  have hparents := h.parents
  generalize d.parent = p at hparents ⊢
  generalize d'.parent = p' at hparents ⊢
  cases hparents with
  | some hsame => exact .some (hsame.mono hkeep hkeep')
  | none => exact .none

variable [LE κ] [Cost κ] {g : Graph κ} {s : Nat} {most : κ}

/-- The second table has the entries within the budget, like those of the first, and no others. What the
    first has beyond is open. -/
structure Trims (most : κ) (t t' : Table κ) : Prop where
  exists_left : ∀ (i' : Nat) (d' : Discovery κ), t'.entries[i']? = some d' →
    value d'.cost ≤ value most ∧ ∃ (i : Nat) (d : Discovery κ), t.entries[i]? = some d ∧ Alike t t' d d'
  exists_right : ∀ (i : Nat) (d : Discovery κ), t.entries[i]? = some d → value d.cost ≤ value most →
    ∃ (i' : Nat) (d' : Discovery κ), t'.entries[i']? = some d' ∧ d.node = d'.node
  closed_le : ∀ (i : Nat) (d : Discovery κ), t.entries[i]? = some d → d.closed = true →
    value d.cost ≤ value most

namespace Trims

theorem alike (h : Trims most t t') (ht : t.Indexed g s) (hd : t.entries[i]? = some d)
    (hd' : t'.entries[i']? = some d') (hnode : d.node = d'.node) : Alike t t' d d' := by
  obtain ⟨-, j, x, hx, hlike⟩ := h.exists_left i' d' hd'
  have hij : i = j := ht.position_unique hd hx (by rw [hnode, hlike.node_eq])
  rw [← hij, hd, Option.some.injEq] at hx
  rwa [hx]

theorem set_both (h : Trims most t t') (hset : t.SetAt j d t₁) (hset' : t'.SetAt j' d' t₁')
    (hkeep : t.KeepsNodes t₁) (hkeep' : t'.KeepsNodes t₁') (ht₁' : t₁'.Indexed g s)
    (hlike : Alike t₁ t₁' d d') (hle : value d'.cost ≤ value most) : Trims most t₁ t₁' := by
  constructor
  case exists_left =>
    intro i' x' hx'
    rcases hset'.cases hx' with ⟨-, rfl⟩ | ⟨hi', hx'₀⟩
    · exact ⟨hle, j, d, hset.self, hlike⟩
    obtain ⟨hxle, i, x, hx, hxlike⟩ := h.exists_left i' x' hx'₀
    refine ⟨hxle, i, x, ?_, hxlike.mono hkeep hkeep'⟩
    rw [hset.other, hx]
    -- the entry that was changed is of another node
    rintro rfl
    obtain ⟨d₁, hd₁, hnode⟩ := hkeep i x hx
    obtain rfl : d = d₁ := Option.some.inj (hset.self.symm.trans hd₁)
    apply hi'
    apply ht₁'.position_unique hx' hset'.self
    rw [← hlike.node_eq, hnode, hxlike.node_eq]
  case exists_right =>
    intro i x hx hxle
    rcases hset.cases hx with ⟨-, rfl⟩ | ⟨-, hx⟩
    · exact ⟨j', d', hset'.self, hlike.node_eq⟩
    · obtain ⟨i', x', hx', hnode⟩ := h.exists_right i x hx hxle
      obtain ⟨x₁', hx₁', hnode₁'⟩ := hkeep' i' x' hx'
      exact ⟨i', x₁', hx₁', by rw [hnode, hnode₁']⟩
  case closed_le =>
    intro i x hx hc
    rcases hset.cases hx with ⟨-, rfl⟩ | ⟨-, hx⟩
    · rwa [hlike.cost_eq]
    · exact h.closed_le i x hx hc

/-- An open entry over the budget may be added to the first table or changed there. -/
theorem set_left (h : Trims most t t') (hset : t.SetAt j d t₁) (hkeep : t.KeepsNodes t₁)
    (hopen : d.closed = false) (hover : value most < value d.cost)
    (hold : ∀ d₀, t.entries[j]? = some d₀ → value most < value d₀.cost) : Trims most t₁ t' := by
  constructor
  case exists_left =>
    intro i' x' hx'
    obtain ⟨hxle, i, x, hx, hxlike⟩ := h.exists_left i' x' hx'
    refine ⟨hxle, i, x, ?_, hxlike.mono hkeep (.refl t')⟩
    rw [hset.other, hx]
    rintro rfl
    have hlt := hold x hx
    rw [hxlike.cost_eq] at hlt
    omega
  case exists_right =>
    intro i x hx hxle
    rcases hset.cases hx with ⟨-, rfl⟩ | ⟨-, hx⟩
    · omega
    · exact h.exists_right i x hx hxle
  case closed_le =>
    intro i x hx hc
    rcases hset.cases hx with ⟨-, rfl⟩ | ⟨-, hx⟩
    · rw [hopen] at hc
      exact nomatch hc
    · exact h.closed_le i x hx hc

theorem start (key s : Nat) (h : 0 ≤ value most) :
    Trims most (Table.start key s (Cost.zero : κ)) (Table.start key s Cost.zero) := by
  have hzero : value (Cost.zero : κ) ≤ value most := Cost.value_zero (κ := κ) ▸ h
  constructor
  case exists_left =>
    intro i' d' hd'
    obtain ⟨rfl, rfl⟩ := start_entry_iff.mp hd'
    exact ⟨hzero, 0, _, start_entry_iff.mpr ⟨rfl, rfl⟩, rfl, rfl, rfl, .none⟩
  case exists_right =>
    intro i d hd _
    exact ⟨i, d, hd, rfl⟩
  case closed_le =>
    intro i d hd _
    obtain ⟨-, rfl⟩ := start_entry_iff.mp hd
    exact hzero

/-- Going back from entries of one node leads over the same nodes. -/
theorem ancestors_eq (h : Trims most t t') (ht : t.Indexed g s) {n n' : Nat} {after path path' : List Nat}
    (hsame : SameNode t t' i i') (hpath : t.ancestors n i after = .ok path)
    (hpath' : t'.ancestors n' i' after = .ok path') : path = path' := by
  induction n generalizing n' i i' after with
  | zero => exact nomatch hpath
  | succ n ih =>
    cases n' with
    | zero => exact nomatch hpath'
    | succ n' =>
      obtain ⟨d, d', hd, hd', hnode⟩ := hsame
      have hentry : t.entry i = .ok d := by rw [entry, hd]
      have hentry' : t'.entry i' = .ok d' := by rw [entry, hd']
      have hparents := (h.alike ht hd hd' hnode).parents
      simp only [ancestors, hentry, Result.ok_bind] at hpath
      simp only [ancestors, hentry', Result.ok_bind, ← hnode] at hpath'
      generalize d.parent = p at hpath hparents
      generalize d'.parent = p' at hpath' hparents
      cases hparents with
      | none =>
        rw [← Except.ok.inj hpath, ← Except.ok.inj hpath']
      | some hsame => exact ih hsame hpath hpath'

end Trims

/-! Recording ways. -/

variable {e : Edge κ} {cost : κ}

omit [Cost κ] in
theorem Improves.keepsNodes {n : Nat} (himp : t.Improves g n i cost j d) (hset : t.SetAt j d t₁) :
    t.KeepsNodes t₁ := .of_setAt hset fun d₀ hd₀ => (himp.old d₀ hd₀).2.1

omit [Cost κ] in
/-- Where no two nodes are equal, the entry is of the node itself. -/
theorem Improves.node_eq (himp : t.Improves g e.target i cost j d) (hg : g.DistinctKeys s)
    (he : e ∈ g.edges) (hset : t.SetAt j d t₁) (ht₁ : t₁.Indexed g s) : d.node = e.target :=
  hg d.node (ht₁.mem_nodes j d hset.self) e.target (Graph.mem_nodes_of_mem_edges he s) himp.key_eq

variable [DecidableLE κ]

/-- A way within the budget is passed over in both tables, or recorded alike. -/
theorem Trims.relax_both (h : Trims most t t') (ht : t.Indexed g s) (ht' : t'.Indexed g s)
    (hg : g.DistinctKeys s) (he : e ∈ g.edges) (hsame : SameNode t t' i i')
    (hle : value cost ≤ value most) :
    (t.relax (g.key e.target) e.target i cost = .ok (t, none) ∧
      t'.relax (g.key e.target) e.target i' cost = .ok (t', none)) ∨
    ∃ j t₁ j' t₁', t.relax (g.key e.target) e.target i cost = .ok (t₁, some j) ∧
      t'.relax (g.key e.target) e.target i' cost = .ok (t₁', some j') ∧
      Trims most t₁ t₁' ∧ t₁.Indexed g s ∧ t₁'.Indexed g s ∧ t.KeepsNodes t₁ ∧ t'.KeepsNodes t₁' ∧
      SameNode t₁ t₁' j j' := by
  have htarget := Graph.mem_nodes_of_mem_edges he s
  rcases ht.relax_cases htarget i cost with
    ⟨hrelax, j, d, hd, hk, hknown⟩ | ⟨j, d, t₁, hrelax, hset, himp, ht₁⟩ <;>
  rcases ht'.relax_cases htarget i' cost with
    ⟨hrelax', j', d', hd', hk', hknown'⟩ | ⟨j', d', t₁', hrelax', hset', himp', ht₁'⟩
  · exact Or.inl ⟨hrelax, hrelax'⟩
  · -- the first table knows the node within the budget, so the second knows it as well
    have hdle : value d.cost ≤ value most := by
      rcases hknown with hc | hd_le
      · exact h.closed_le j d hd hc
      · exact Int.le_trans ((Cost.le_iff_value_le _ _).mp hd_le) hle
    obtain ⟨k, x, hx, hnode⟩ := h.exists_right j d hd hdle
    have hlike := h.alike ht hd hx hnode
    obtain ⟨x₁, hx₁, hnode₁⟩ := himp'.keepsNodes hset' k x hx
    have hpos : k = j' :=
      ht₁'.position_unique hx₁ hset'.self (by rw [hnode₁, ← hnode, hk, himp'.key_eq])
    obtain ⟨hopen, -, hnot⟩ := himp'.old x (hpos ▸ hx)
    rcases hknown with hc | hd_le
    · rw [hlike.closed_eq, hopen] at hc
      exact nomatch hc
    · exact absurd (hlike.cost_eq ▸ hd_le) hnot
  · -- the first table has every entry of the second
    obtain ⟨-, k, x, hx, hlike⟩ := h.exists_left j' d' hd'
    obtain ⟨x₁, hx₁, hnode₁⟩ := himp.keepsNodes hset k x hx
    have hpos : k = j :=
      ht₁.position_unique hx₁ hset.self (by rw [hnode₁, hlike.node_eq, hk', himp.key_eq])
    obtain ⟨hopen, -, hnot⟩ := himp.old x (hpos ▸ hx)
    rcases hknown' with hc | hd_le
    · rw [← hlike.closed_eq, hopen] at hc
      exact nomatch hc
    · exact absurd (hlike.cost_eq ▸ hd_le) hnot
  · have hkeep := himp.keepsNodes hset
    have hkeep' := himp'.keepsNodes hset'
    have hnode : d.node = d'.node := by
      rw [himp.node_eq hg he hset ht₁, himp'.node_eq hg he hset' ht₁']
    have hlike : Alike t₁ t₁' d d' := by
      refine ⟨hnode, by rw [himp.cost_eq, himp'.cost_eq], by rw [himp.closed_eq, himp'.closed_eq], ?_⟩
      rw [himp.parent_eq, himp'.parent_eq]
      exact .some (hsame.mono hkeep hkeep')
    exact Or.inr ⟨j, t₁, j', t₁', hrelax, hrelax',
      h.set_both hset hset' hkeep hkeep' ht₁' hlike (himp'.cost_eq ▸ hle), ht₁, ht₁', hkeep, hkeep',
      d, d', hset.self, hset'.self, hnode⟩

/-- A way over the budget changes the first table at most, and beyond the budget. -/
theorem Trims.relax_left (h : Trims most t t') (ht : t.Indexed g s) (he : e ∈ g.edges) (i : Nat)
    (hover : value most < value cost) :
    t.relax (g.key e.target) e.target i cost = .ok (t, none) ∨
    ∃ j t₁, t.relax (g.key e.target) e.target i cost = .ok (t₁, some j) ∧ Trims most t₁ t' ∧
      t₁.Indexed g s ∧ t.KeepsNodes t₁ := by
  rcases ht.relax_cases (Graph.mem_nodes_of_mem_edges he s) i cost with
    ⟨hrelax, -⟩ | ⟨j, d, t₁, hrelax, hset, himp, ht₁⟩
  · exact Or.inl hrelax
  · have hkeep := himp.keepsNodes hset
    refine Or.inr ⟨j, t₁, hrelax, h.set_left hset hkeep himp.closed_eq ?_ ?_, ht₁, hkeep⟩
    · rwa [himp.cost_eq]
    · intro d₀ hd₀
      have hnot := (himp.old d₀ hd₀).2.2
      rw [Cost.le_iff_value_le] at hnot
      omega

end Table

/-! Following edges. -/

namespace Frontier

open Table (SameNode KeepsNodes)

variable {Q : Type} [LE κ] [Cost κ] [PriorityQueue Q κ Nat] [PriorityQueue.Coupled Q] {g : Graph κ}
  {s : Nat} {most : κ} {f f' f₁ f₁' : Frontier Q κ} {rank : Nat → κ → Result κ} {i i' : Nat} {base : κ}

/-- The second frontier is the first one without what is over the budget. -/
structure Trims (g : Graph κ) (s : Nat) (most : κ) (f f' : Frontier Q κ) : Prop where
  table : f.table.Trims most f'.table
  left : f.table.Indexed g s
  right : f'.table.Indexed g s
  queue : Couples most (SameNode f.table f'.table) f.queue f'.queue

/-- Both frontiers have gone on, and the nodes that they had are where they were. -/
structure Onward (g : Graph κ) (s : Nat) (most : κ) (f f' f₁ f₁' : Frontier Q κ) : Prop where
  trims : f₁.Trims g s most f₁'
  left : f.table.KeepsNodes f₁.table
  right : f'.table.KeepsNodes f₁'.table

theorem Trims.onward_refl (h : f.Trims g s most f') : Onward g s most f f' f f' :=
  ⟨h, .refl _, .refl _⟩

theorem Trims.start [PriorityQueue.Lawful Q] {p : κ} {M : Multiset (κ × Nat)} (h0 : 0 ≤ value most)
    (hsound : f.Sound g s M) (hf : Frontier.start g s p = .ok f) : f.Trims g s most f := by
  obtain ⟨queue, hpush, hf⟩ := Result.bind_eq_ok.mp hf
  obtain rfl := Except.ok.inj hf
  have hsame : SameNode (Table.start (g.key s) s (Cost.zero : κ)) (Table.start (g.key s) s Cost.zero) 0 0 :=
    ⟨_, _, Table.start_entry_iff.mpr ⟨rfl, rfl⟩, Table.start_entry_iff.mpr ⟨rfl, rfl⟩, rfl⟩
  obtain ⟨queue', hpush', hcouples⟩ := PriorityQueue.Coupled.push_both
    (PriorityQueue.Coupled.couples_empty most _) hsame hpush
  obtain rfl : queue = queue' := Except.ok.inj (hpush.symm.trans hpush')
  exact ⟨.start _ _ h0, hsound.indexed, hsound.indexed, hcouples⟩

theorem Trims.close {d d' : Discovery κ} {t₁ t₁' : Table κ} (h : f.Trims g s most f')
    (hd : f.table.entries[i]? = some d) (hd' : f'.table.entries[i']? = some d') (hnode : d.node = d'.node)
    (hset : f.table.SetAt i { d with closed := true } t₁)
    (hset' : f'.table.SetAt i' { d' with closed := true } t₁') (hindex : t₁.index = f.table.index)
    (hindex' : t₁'.index = f'.table.index) :
    (⟨t₁, f.queue⟩ : Frontier Q κ).Trims g s most ⟨t₁', f'.queue⟩ := by
  have hkeep : f.table.KeepsNodes t₁ := .of_setAt hset fun d₀ hd₀ => by
    rw [← Option.some.inj (hd.symm.trans hd₀)]
  have hkeep' : f'.table.KeepsNodes t₁' := .of_setAt hset' fun d₀ hd₀ => by
    rw [← Option.some.inj (hd'.symm.trans hd₀)]
  have hlike := (h.table.alike h.left hd hd' hnode).mono hkeep hkeep'
  have hright : t₁'.Indexed g s := h.right.set hset' hindex' hd' rfl
  constructor
  case table =>
    apply h.table.set_both hset hset' hkeep hkeep' hright
    · exact ⟨hlike.node_eq, hlike.cost_eq, rfl, hlike.parents⟩
    · exact (h.table.exists_left i' d' hd').1
  case left => exact h.left.set hset hindex hd rfl
  case right => exact hright
  case queue => exact PriorityQueue.Coupled.mono (fun _ _ hv => hv.mono hkeep hkeep') h.queue

variable [DecidableLE κ]

/-- What following an edge within the larger budget makes of the first frontier, following it within the
    smaller one makes of the second. -/
theorem Trims.follow (h : f.Trims g s most f') (hg : g.DistinctKeys s) {budget : Option κ}
    (hbudget : ∀ c : κ, Cost.within (some most) c = true → Cost.within budget c = true)
    (hrank : ∀ n c p, rank n c = .ok p → value c ≤ value p) {e : Edge κ} (he : e ∈ g.edges)
    (hsame : SameNode f.table f'.table i i') (hf : Frontier.follow g budget rank i base f e = .ok f₁) :
    ∃ f₁', Frontier.follow g (some most) rank i' base f' e = .ok f₁' ∧
      Onward g s most f f' f₁ f₁' := by
  rw [Frontier.follow] at hf
  obtain ⟨cost, hsum, hf⟩ := Result.bind_eq_ok.mp hf
  by_cases ha : Cost.within (some most) cost = true
  · rw [if_pos (hbudget cost ha)] at hf
    obtain ⟨p, hp, hf⟩ := Result.bind_eq_ok.mp hf
    rcases h.table.relax_both h.left h.right hg he hsame (affordable_some.mp (Cost.within_iff.mp ha)) with
      ⟨hrelax, hrelax'⟩ | ⟨j, t₁, j', t₁', hrelax, hrelax', htrims, ht₁, ht₁', hkeep, hkeep', hj⟩
    · simp only [hrelax, Result.ok_bind] at hf
      obtain rfl := Except.ok.inj hf
      refine ⟨f', ?_, h.onward_refl⟩
      simp only [Frontier.follow, hsum, Result.ok_bind, if_pos ha, hp, hrelax']
    · simp only [hrelax, Result.ok_bind] at hf
      obtain ⟨queue, hpush, hf⟩ := Result.bind_eq_ok.mp hf
      obtain rfl := Except.ok.inj hf
      have hqueue : Couples most (SameNode t₁ t₁') f.queue f'.queue :=
        PriorityQueue.Coupled.mono (fun _ _ hv => hv.mono hkeep hkeep') h.queue
      obtain ⟨queue', hpush', hqueue'⟩ := PriorityQueue.Coupled.push_both hqueue hj hpush
      refine ⟨⟨t₁', queue'⟩, ?_, ⟨htrims, ht₁, ht₁', hqueue'⟩, hkeep, hkeep'⟩
      simp only [Frontier.follow, hsum, Result.ok_bind, if_pos ha, hp, hrelax', hpush']
  · have hover : value most < value cost := by
      rw [Cost.within_iff, affordable_some] at ha
      exact Int.not_le.mp ha
    have hf' : Frontier.follow g (some most) rank i' base f' e = .ok f' := by
      simp only [Frontier.follow, hsum, Result.ok_bind, if_neg ha]
    by_cases hb : Cost.within budget cost = true
    · rw [if_pos hb] at hf
      obtain ⟨p, hp, hf⟩ := Result.bind_eq_ok.mp hf
      rcases h.table.relax_left h.left he i hover with hrelax | ⟨j, t₁, hrelax, htrims, ht₁, hkeep⟩
      · simp only [hrelax, Result.ok_bind] at hf
        obtain rfl := Except.ok.inj hf
        exact ⟨f', hf', h.onward_refl⟩
      · simp only [hrelax, Result.ok_bind] at hf
        obtain ⟨queue, hpush, hf⟩ := Result.bind_eq_ok.mp hf
        obtain rfl := Except.ok.inj hf
        have hqueue : Couples most (SameNode t₁ f'.table) f.queue f'.queue :=
          PriorityQueue.Coupled.mono (fun _ _ hv => hv.mono hkeep (.refl _)) h.queue
        have hp_not : ¬ p ≤ most := by
          have hpcost := hrank _ _ _ hp
          rw [Cost.le_iff_value_le]
          omega
        exact ⟨f', hf', ⟨htrims, ht₁, h.right, PriorityQueue.Coupled.push_left hqueue hp_not hpush⟩,
          hkeep, .refl _⟩
    · -- the way is over both budgets
      rw [if_neg hb] at hf
      obtain rfl := Except.ok.inj hf
      exact ⟨f', hf', h.onward_refl⟩

theorem Trims.foldlM_follow (h : f.Trims g s most f') (hg : g.DistinctKeys s) {budget : Option κ}
    (hbudget : ∀ c : κ, Cost.within (some most) c = true → Cost.within budget c = true)
    (hrank : ∀ n c p, rank n c = .ok p → value c ≤ value p) {es : List (Edge κ)}
    (hes : ∀ e ∈ es, e ∈ g.edges) (hsame : SameNode f.table f'.table i i')
    (hf : es.foldlM (Frontier.follow g budget rank i base) f = .ok f₁) :
    ∃ f₁', es.foldlM (Frontier.follow g (some most) rank i' base) f' = .ok f₁' ∧ f₁.Trims g s most f₁' := by
  induction es generalizing f f' with
  | nil =>
    obtain rfl := Except.ok.inj hf
    exact ⟨f', rfl, h⟩
  | cons e rest ih =>
    obtain ⟨f₂, hfollow, hf⟩ := Result.bind_eq_ok.mp hf
    obtain ⟨f₂', hfollow', honward⟩ := h.follow hg hbudget hrank (hes e List.mem_cons_self) hsame hfollow
    obtain ⟨f₁', hf', htrims⟩ := ih honward.trims (fun e he => hes e (List.mem_cons_of_mem _ he))
      (hsame.mono honward.left honward.right) hf
    refine ⟨f₁', ?_, htrims⟩
    rw [List.foldlM_cons, hfollow', Result.ok_bind, hf']

end Frontier
end MonotoneQueue.Search

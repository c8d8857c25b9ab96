import Mathlib
import MonotoneQueue.Proofs.Search.Follow

/- Where the entries came from. The closed entries are kept in the order in which they were closed,
   the last one first. The way to every entry comes from one that was closed before, so going back
   from entry to entry ends after different nodes, and what an entry costs is the weight of the way
   there. -/
namespace MonotoneQueue.Search

open Cost (value)

variable {κ : Type} [LE κ] [Cost κ] {g : Graph κ} {s : Nat} {t t' : Table κ} {i : Nat}
  {d : Discovery κ}

/-- The entry is that of the start, or its way comes along an edge from one of those `before`. -/
def Reached (g : Graph κ) (s : Nat) (before : List (Nat × Discovery κ)) (i : Nat)
    (d : Discovery κ) : Prop :=
  (i = 0 ∧ d.node = s ∧ d.parent = none ∧ value d.cost = 0) ∨
  ∃ x ∈ before, ∃ e ∈ g.leaving x.2.node, d.parent = some x.1 ∧ g.key e.target = g.key d.node ∧
    value d.cost = value x.2.cost + value e.weight

/-- Every entry was reached from those behind it in the list. -/
def Traced (g : Graph κ) (s : Nat) : List (Nat × Discovery κ) → Prop
  | [] => True
  | x :: before => Reached g s before x.1 x.2 ∧ Traced g s before

theorem Reached.walk (hg : g.DistinctKeys s) (hnode : d.node ∈ g.nodes s)
    {before : List (Nat × Discovery κ)} (hbefore : ∀ x ∈ before, g.Walk s x.2.node (value x.2.cost))
    (h : Reached g s before i d) : g.Walk s d.node (value d.cost) := by
  rcases h with ⟨-, hnode, -, hcost⟩ | ⟨x, hx, e, he, -, hk, hcost⟩
  · rw [hnode, hcost]
    exact .here
  · have htarget : e.target ∈ g.nodes s := Graph.mem_nodes_of_mem_edges (Graph.mem_leaving.mp he).1 s
    rw [← hg e.target htarget d.node hnode hk, hcost]
    exact (hbefore x hx).onward he

theorem Traced.walk (hg : g.DistinctKeys s) {done : List (Nat × Discovery κ)}
    (hnodes : ∀ x ∈ done, x.2.node ∈ g.nodes s) (h : Traced g s done) :
    ∀ x ∈ done, g.Walk s x.2.node (value x.2.cost) := by
  induction done with
  | nil => exact nofun
  | cons y before ih =>
    have hbefore := ih (fun x hx => hnodes x (List.mem_cons_of_mem _ hx)) h.2
    intro x hx
    rcases List.mem_cons.mp hx with rfl | hx
    · exact h.1.walk hg (hnodes x List.mem_cons_self) hbefore
    · exact hbefore x hx

theorem Reached.mono {before before' : List (Nat × Discovery κ)} (h : Reached g s before i d)
    (hsub : before ⊆ before') : Reached g s before' i d := by
  rcases h with hroot | ⟨x, hx, hfrom⟩
  · exact Or.inl hroot
  · exact Or.inr ⟨x, hsub hx, hfrom⟩

theorem Traced.reached {done : List (Nat × Discovery κ)} (h : Traced g s done) :
    ∀ x ∈ done, Reached g s done x.1 x.2 := by
  induction done with
  | nil => exact nofun
  | cons y before ih =>
    intro x hx
    rcases List.mem_cons.mp hx with rfl | hx
    · exact h.1.mono (List.subset_cons_self _ _)
    · exact (ih h.2 x hx).mono (List.subset_cons_self _ _)

/-- The list is that of the closed entries, the last one first, and every entry was reached from
    entries that were closed before. -/
structure Routed (g : Graph κ) (s : Nat) (t : Table κ) (done : List (Nat × Discovery κ)) :
    Prop where
  mem_done : ∀ i d, (i, d) ∈ done ↔ t.entries[i]? = some d ∧ d.closed = true
  nodup : done.Nodup
  root : ∃ d : Discovery κ, t.entries[0]? = some d ∧ d.node = s ∧ value d.cost ≤ 0
  reached : ∀ (i : Nat) (d : Discovery κ), t.entries[i]? = some d → d.closed = false →
    Reached g s done i d
  traced : Traced g s done

namespace Routed

variable {done : List (Nat × Discovery κ)}

theorem start (g : Graph κ) (s : Nat) : Routed g s (.start (g.key s) s Cost.zero) [] := by
  constructor
  case mem_done =>
    intro i d
    rw [Table.start_entry_iff]
    constructor
    · exact nofun
    · rintro ⟨⟨-, rfl⟩, hc⟩
      exact nomatch hc
  case nodup => exact List.nodup_nil
  case root => exact ⟨_, Table.start_entry_iff.mpr ⟨rfl, rfl⟩, rfl, Cost.value_zero.le⟩
  case reached =>
    intro i d hd _
    obtain ⟨rfl, rfl⟩ := Table.start_entry_iff.mp hd
    exact Or.inl ⟨rfl, rfl, rfl, Cost.value_zero⟩
  case traced => trivial

theorem close (h : Routed g s t done) (hd : t.entries[i]? = some d) (hopen : d.closed = false)
    (hset : t.SetAt i { d with closed := true } t') :
    Routed g s t' ((i, { d with closed := true }) :: done) := by
  -- the entry was open, so it is not in the list yet
  have hnot : ∀ d', (i, d') ∉ done := by
    intro d' hmem
    obtain ⟨hd', hc⟩ := (h.mem_done i d').mp hmem
    obtain rfl : d = d' := Option.some.inj (hd ▸ hd')
    rw [hopen] at hc
    exact nomatch hc
  constructor
  case mem_done =>
    intro j d'
    rw [List.mem_cons, h.mem_done, Prod.mk.injEq, hset j]
    by_cases hj : j = i
    · subst hj
      rw [if_pos rfl, hd]
      constructor
      · rintro (⟨-, rfl⟩ | ⟨hd', hc⟩)
        · exact ⟨rfl, rfl⟩
        · exact absurd ((h.mem_done j d').mpr ⟨hd ▸ hd', hc⟩) (hnot d')
      · rintro ⟨hd', -⟩
        exact Or.inl ⟨rfl, (Option.some.inj hd').symm⟩
    · rw [if_neg hj]
      simp [hj]
  case nodup => exact List.nodup_cons.mpr ⟨hnot _, h.nodup⟩
  case root =>
    obtain ⟨d₀, hd₀, hnode, hcost⟩ := h.root
    by_cases hi : 0 = i
    · subst hi
      obtain rfl : d = d₀ := Option.some.inj (hd ▸ hd₀)
      exact ⟨_, hset.self, hnode, hcost⟩
    · exact ⟨d₀, by rwa [hset.other hi], hnode, hcost⟩
  case reached =>
    intro j d' hd' hopen'
    rcases hset.cases hd' with ⟨-, rfl⟩ | ⟨-, hd'⟩
    · exact nomatch hopen'
    exact (h.reached j d' hd' hopen').mono (List.subset_cons_self _ _)
  case traced => exact ⟨h.reached i d hd hopen, h.traced⟩

theorem follows {budget : Option κ} {H : Nat → Int} {e : Edge κ} {M M' : Multiset (κ × Nat)}
    (h : Routed g s t done) (hi : (i, d) ∈ done) (he : e ∈ g.leaving d.node)
    (hf : Follows g budget H i d.cost e t M t' M') : Routed g s t' done := by
  constructor
  case mem_done =>
    intro j d'
    rw [h.mem_done, hf.closed_iff]
  case nodup => exact h.nodup
  case root =>
    obtain ⟨d₀, hd₀, hnode, hcost⟩ := h.root
    obtain ⟨d', hd', hnode', hcost', -⟩ := hf.persists hd₀
    exact ⟨d', hd', hnode'.trans hnode, hcost'.trans hcost⟩
  case reached =>
    intro j d' hd' hopen
    cases hf with
    | refused => exact h.reached j d' hd' hopen
    | known => exact h.reached j d' hd' hopen
    | improved hset himp hcost =>
      rcases hset.cases hd' with ⟨-, rfl⟩ | ⟨-, hd'⟩
      · -- the new way comes along `e`
        refine Or.inr ⟨(i, d), hi, e, he, himp.parent_eq, himp.key_eq.symm, ?_⟩
        rw [himp.cost_eq, hcost]
      · exact h.reached j d' hd' hopen
  case traced => exact h.traced

theorem reached_of_entry (h : Routed g s t done) (hd : t.entries[i]? = some d) : Reached g s done i d := by
  cases hc : d.closed with
  | true => exact h.traced.reached (i, d) ((h.mem_done i d).mpr ⟨hd, hc⟩)
  | false => exact h.reached i d hd hc

theorem nodup_keys (h : Routed g s t done) (ht : t.Indexed g s) :
    (done.map fun x => g.key x.2.node).Nodup := by
  apply h.nodup.map_on
  intro x hx y hy hxy
  have hx' := ((h.mem_done x.1 x.2).mp hx).1
  have hy' := ((h.mem_done y.1 y.2).mp hy).1
  have hpos : x.1 = y.1 := ht.position_unique hx' hy' hxy
  rw [hpos, hy', Option.some.injEq] at hx'
  exact Prod.ext hpos hx'.symm

theorem nodup_nodes (h : Routed g s t done) (ht : t.Indexed g s) :
    (done.map fun x => x.2.node).Nodup := by
  apply List.Nodup.of_map g.key
  rw [List.map_map]
  exact h.nodup_keys ht

/-! Going back. -/

/-- From a closed entry the start is reached in as many steps as entries were closed before, each of
    them passed once at most, and the way there weighs what the entry costs. -/
theorem exists_ancestors_of_traced (hdone : ∀ x ∈ done, t.entries[x.1]? = some x.2)
    (htraced : Traced g s done) {x : Nat × Discovery κ} (hx : x ∈ done) {n : Nat}
    (hn : done.length ≤ n) (after : List Nat) :
    ∃ path, t.ancestors n x.1 after = .ok (path ++ x.2.node :: after) ∧
      (path ++ [x.2.node]).Sublist (done.map fun x => x.2.node).reverse ∧
      (path ++ [x.2.node]).head? = some s ∧
      ∀ c, g.Way (x.2.node :: after) c → g.Way (path ++ x.2.node :: after) (value x.2.cost + c) := by
  -- along the list; the entries behind an entry bound the way back from it
  induction done generalizing x n after with
  | nil => exact nomatch hx
  | cons y before ih =>
    have hbefore : ∀ z ∈ before, t.entries[z.1]? = some z.2 :=
      fun z hz => hdone z (List.mem_cons_of_mem _ hz)
    rw [List.map_cons, List.reverse_cons]
    rcases List.mem_cons.mp hx with rfl | hx
    · obtain ⟨m, rfl⟩ : ∃ m, n = m + 1 := ⟨n - 1, by rw [List.length_cons] at hn; omega⟩
      have hentry : t.entry x.1 = .ok x.2 := by rw [Table.entry, hdone x List.mem_cons_self]
      rcases htraced.1 with ⟨-, hnode, hp, hcost⟩ | ⟨z, hz, e, he, hp, hk, hcost⟩
      · refine ⟨[], ?_, List.sublist_append_right _ _, congrArg some hnode, ?_⟩
        · simp only [Table.ancestors, hentry, Result.ok_bind, hp, List.nil_append]
        · intro c hc
          rwa [hcost, zero_add]
      · obtain ⟨path, hpath, hsub, hhead, hway⟩ := ih hbefore htraced.2 hz
          (Nat.le_of_succ_le_succ hn) (x.2.node :: after)
        refine ⟨path ++ [z.2.node], ?_, hsub.append (List.Sublist.refl _), ?_, ?_⟩
        · simp only [Table.ancestors, hentry, Result.ok_bind, hp, hpath, List.append_assoc,
            List.singleton_append]
        · rw [List.head?_append, hhead, Option.some_or]
        · intro c hc
          have hway' := hway _ (.cons he hk hc)
          rwa [← Int.add_assoc, ← hcost, List.append_cons] at hway'
    · obtain ⟨path, hpath, hsub, hrest⟩ := ih hbefore htraced.2 hx (Nat.le_of_succ_le hn) after
      exact ⟨path, hpath, hsub.trans (List.sublist_append_left _ _), hrest⟩

theorem nodup_positions (h : Routed g s t done) : (done.map Prod.fst).Nodup := by
  apply h.nodup.map_on
  intro x hx y hy hxy
  have hx' := ((h.mem_done x.1 x.2).mp hx).1
  have hy' := ((h.mem_done y.1 y.2).mp hy).1
  rw [hxy, hy', Option.some.injEq] at hx'
  exact Prod.ext hxy hx'.symm

theorem length_le_size (h : Routed g s t done) : done.length ≤ t.size := by
  have hsub : done.map Prod.fst ⊆ List.range t.size := by
    intro i hi
    obtain ⟨x, hx, rfl⟩ := List.mem_map.mp hi
    exact List.mem_range.mpr (Array.getElem?_eq_some_iff.mp ((h.mem_done x.1 x.2).mp hx).1).1
  simpa using (List.subperm_of_subset h.nodup_positions hsub).length_le

/-- There are as many closed entries as entries, if none is open. -/
theorem length_eq_size (h : Routed g s t done)
    (hclosed : ∀ (i : Nat) (d : Discovery κ), t.entries[i]? = some d → d.closed = true) :
    done.length = t.size := by
  apply Nat.le_antisymm h.length_le_size
  have hsub : List.range t.size ⊆ done.map Prod.fst := by
    intro i hi
    have hlt : i < t.entries.size := List.mem_range.mp hi
    have hd : t.entries[i]? = some t.entries[i] := Array.getElem?_eq_getElem hlt
    exact List.mem_map.mpr ⟨_, (h.mem_done i _).mpr ⟨hd, hclosed i _ hd⟩, rfl⟩
  simpa using (List.subperm_of_subset List.nodup_range hsub).length_le

/-- The path to a closed entry can be read off. It leads from the start over different closed entries
    and weighs what the entry costs. -/
theorem exists_pathTo (h : Routed g s t done) (hi : (i, d) ∈ done) :
    ∃ path, t.pathTo i = .ok path ∧ path.Sublist (done.map fun x => x.2.node).reverse ∧
      path.head? = some s ∧ path.getLast? = some d.node ∧ g.Way path (value d.cost) := by
  obtain ⟨path, hpath, hsub, hhead, hway⟩ := exists_ancestors_of_traced
    (fun x hx => ((h.mem_done x.1 x.2).mp hx).1) h.traced hi h.length_le_size []
  refine ⟨path ++ [d.node], hpath, hsub, hhead, List.getLast?_concat, ?_⟩
  simpa only [add_zero] using hway 0 (.single d.node)

/-! Walks. -/

/-- Where no two nodes are equal, a walk leads to the node of an entry at the cost of the entry. -/
theorem walk (h : Routed g s t done) (ht : t.Indexed g s) (hg : g.DistinctKeys s)
    (hd : t.entries[i]? = some d) : g.Walk s d.node (value d.cost) := by
  have hnodes : ∀ x ∈ done, x.2.node ∈ g.nodes s :=
    fun x hx => ht.mem_nodes x.1 x.2 ((h.mem_done x.1 x.2).mp hx).1
  have hwalks : ∀ x ∈ done, g.Walk s x.2.node (value x.2.cost) := h.traced.walk hg hnodes
  cases hc : d.closed with
  | true => exact hwalks (i, d) ((h.mem_done i d).mpr ⟨hd, hc⟩)
  | false => exact (h.reached i d hd hc).walk hg (ht.mem_nodes i d hd) hwalks

end Routed
end MonotoneQueue.Search

import Mathlib
import MonotoneQueue.Proofs.Search.Ends

/- What the steps of a search come to, all together. A `Course` is the loop of a search without a bound on
   its steps. A step that goes on takes one element out of the queue and expands one node at most, whose
   entry was open and is closed from then on (`Frontier.Advances`). So no two nodes that are expanded are
   equal, and all that comes out of the queue was put in at the start or along an edge that leaves a node
   that was expanded (`Course.accounted`). Nothing is asked of the keys, the weights and the ranks. -/
namespace MonotoneQueue.Search

/-! Loops. -/

section

variable {σ ρ : Type} {step : σ → Progress σ ρ}

/-- A loop that comes to an end, with the states from which it takes its steps. -/
inductive Course (step : σ → Progress σ ρ) : σ → List σ → ρ → Prop
  | ended {st : σ} {r : ρ} : step st = .ended r → Course step st [st] r
  | going {st st' : σ} {passed : List σ} {r : ρ} :
    step st = .going st' → Course step st' passed r → Course step st (st :: passed) r

/-- A loop with a bound on its steps that is not cut short by it is a loop without one. -/
theorem exists_course (step : σ → Progress σ ρ) (loop : Nat → σ → ρ) (Cut : ρ → Prop)
    (hzero : ∀ st, Cut (loop 0 st))
    (hgoing : ∀ {n st st'}, step st = .going st' → loop (n + 1) st = loop n st')
    (hended : ∀ {n st r}, step st = .ended r → loop (n + 1) st = r) {n : Nat} {st : σ}
    (h : ¬ Cut (loop n st)) : ∃ passed, Course step st passed (loop n st) := by
  induction n generalizing st with
  | zero => exact absurd (hzero st) h
  | succ n ih =>
    cases hstep : step st with
    | ended r =>
      rw [hended hstep]
      exact ⟨[st], .ended hstep⟩
    | going st' =>
      rw [hgoing hstep] at h ⊢
      obtain ⟨passed, hcourse⟩ := ih h
      exact ⟨st :: passed, .going hstep hcourse⟩

end

variable {Q κ : Type}

/-! Tables. -/

/-- A node with this key is closed. -/
def Table.Closed (g : Graph κ) (t : Table κ) (k : Nat) : Prop :=
  ∃ (i : Nat) (d : Discovery κ), t.entries[i]? = some d ∧ d.closed = true ∧ g.key d.node = k

theorem Table.Closed.set {g : Graph κ} {t t' : Table κ} {i k : Nat} {d : Discovery κ}
    (h : t.Closed g k) (hd : t.entries[i]? = some d) (hset : t.SetAt i { d with closed := true } t') :
    t'.Closed g k := by
  obtain ⟨j, x, hx, hc, hk⟩ := h
  by_cases hj : j = i
  · rw [hj, hd, Option.some.injEq] at hx
    exact ⟨i, _, hset.self, rfl, by rw [← hk, ← hx]⟩
  · exact ⟨j, x, by rwa [hset.other hj], hc, hk⟩

/-! Frontiers. -/

namespace Frontier

section

variable [PriorityQueue Q κ Nat] {f : Frontier Q κ} {d : Discovery κ}

/-- An element comes out of the queue. -/
def yields (f : Frontier Q κ) : Bool :=
  match PriorityQueue.pop f.queue with
  | .ok (some _) => true
  | _ => false

/-- The entry for which a copy comes out of the queue next, if it is open. -/
def opened (f : Frontier Q κ) : Option (Discovery κ) :=
  match PriorityQueue.pop f.queue with
  | .ok (some top) => f.table.entries[top.value]?.filter fun d => !d.closed
  | _ => none

theorem opened_of_pop {top : Popped Q κ Nat} (hpop : PriorityQueue.pop f.queue = .ok (some top)) :
    f.opened = f.table.entries[top.value]?.filter fun d => !d.closed := by
  rw [opened, hpop]

theorem exists_entry_of_opened (h : f.opened = some d) :
    ∃ i : Nat, f.table.entries[i]? = some d ∧ d.closed = false := by
  rw [opened] at h
  split at h
  · next top hpop =>
    obtain ⟨hd, hopen⟩ := Option.filter_eq_some_iff.mp h
    exact ⟨top.value, hd, by simpa using hopen⟩
  · cases h

end

variable [LE κ] [Cost κ] [PriorityQueue Q κ Nat] [DecidableLE κ] {g : Graph κ} {s : Nat}
  {f f' : Frontier Q κ} {M : Multiset (κ × Nat)} {n : Option Nat}

/-- An expansion looks at no edges but those that leave the node. -/
theorem expand_of_leaving {g' : Graph κ} {budget : Option κ} {rank : Nat → κ → Result κ}
    {node i : Nat} {base : κ} (hkey : g'.key = g.key) (hleaving : g'.leaving node = g.leaving node) :
    f.expand g' budget rank node i base = f.expand g budget rank node i base := by
  have hfollow : follow (Q := Q) g' budget rank i base = follow g budget rank i base := by
    funext f e
    simp only [follow, hkey]
  rw [expand, expand, hleaving, hfollow]

/-- What a step that goes on makes of a frontier, with the node that it expands, if it does. -/
inductive Advances (g : Graph κ) (f : Frontier Q κ) : Option Nat → Frontier Q κ → Prop
  | pass {top : Popped Q κ Nat} :
    PriorityQueue.pop f.queue = .ok (some top) → Advances g f none ⟨f.table, top.rest⟩
  | close {top : Popped Q κ Nat} {d : Discovery κ} {t : Table κ} :
    PriorityQueue.pop f.queue = .ok (some top) → f.table.entries[top.value]? = some d →
    f.table.SetAt top.value { d with closed := true } t → t.index = f.table.index →
    Advances g f none ⟨t, top.rest⟩
  | expand {top : Popped Q κ Nat} {d : Discovery κ} {t : Table κ} {budget : Option κ}
      {rank : Nat → κ → Result κ} {H : Nat → Int} {base : κ} {f' : Frontier Q κ} :
    PriorityQueue.pop f.queue = .ok (some top) → f.table.entries[top.value]? = some d →
    f.table.SetAt top.value { d with closed := true } t → t.index = f.table.index →
    Ranks rank H →
    (⟨t, top.rest⟩ : Frontier Q κ).expand g budget rank d.node top.value base = .ok f' →
    Advances g f (some d.node) f'

theorem Advances.yields (h : f.Advances g n f') : f.yields = true := by
  cases h with
  | pass hpop => rw [Frontier.yields, hpop]
  | close hpop => rw [Frontier.yields, hpop]
  | expand hpop => rw [Frontier.yields, hpop]

variable [PriorityQueue.Lawful Q]

/-- What a step that goes on costs. The element that comes out and the edges of the node that is expanded
    pay for what is queued. What is expanded is closed, and what was closed before stays so. -/
structure Charged (g : Graph κ) (s : Nat) (f : Frontier Q κ) (M : Multiset (κ × Nat)) (n : Option Nat)
    (f' : Frontier Q κ) (M' : Multiset (κ × Nat)) : Prop where
  sound : f'.Sound g s M'
  card_lt : M'.card < M.card + (n.toList.map fun n => (g.leaving n).length).sum
  closed : ∀ k, f.table.Closed g k → f'.table.Closed g k
  expanded : ∀ m ∈ n, f'.table.Closed g (g.key m)

omit [DecidableLE κ] in
theorem Sound.exists_of_pop (h : f.Sound g s M) {top : Popped Q κ Nat}
    (hpop : PriorityQueue.pop f.queue = .ok (some top)) :
    ∃ M', M = (top.priority, top.value) ::ₘ M' ∧ (⟨f.table, top.rest⟩ : Frontier Q κ).Sound g s M' := by
  obtain ⟨-, hnone⟩ | ⟨top₀, M', hpop₀, hM, -, hsound, -⟩ := h.pop_cases
  · cases hnone.symm.trans hpop
  · obtain rfl : top₀ = top := Option.some.inj (Except.ok.inj (hpop₀.symm.trans hpop))
    exact ⟨M', hM, hsound⟩

omit [DecidableLE κ] in
theorem Sound.card_pos (h : f.Sound g s M) (hyields : f.yields = true) : 0 < M.card := by
  rw [yields] at hyields
  split at hyields
  · next top hpop =>
    obtain ⟨M', rfl, -⟩ := h.exists_of_pop hpop
    rw [Multiset.card_cons]
    omega
  · cases hyields

omit [Cost κ] [DecidableLE κ] in
theorem Sound.not_closed (h : f.Sound g s M) {d : Discovery κ} (hopened : f.opened = some d) :
    ¬ f.table.Closed g (g.key d.node) := by
  rintro ⟨j, x, hx, hc, hk⟩
  obtain ⟨i, hd, hopen⟩ := exists_entry_of_opened hopened
  have hpos : j = i := h.indexed.position_unique hx hd hk
  rw [hpos, hd, Option.some.injEq] at hx
  rw [← hx, hopen] at hc
  cases hc

theorem Advances.exists_charged (hadv : f.Advances g n f') (h : f.Sound g s M) :
    ∃ M', Charged g s f M n f' M' := by
  cases hadv with
  | pass hpop =>
    obtain ⟨M', rfl, hsound⟩ := h.exists_of_pop hpop
    exact ⟨M', hsound, by simp, fun _ hk => hk, nofun⟩
  | close hpop hd hset hindex =>
    obtain ⟨M', rfl, hsound⟩ := h.exists_of_pop hpop
    exact ⟨M', ⟨h.indexed.set hset hindex hd rfl, hsound.holds⟩, by simp, fun _ hk => hk.set hd hset,
      nofun⟩
  | @expand top d t budget rank H base _ hpop hd hset hindex hranks hexpand =>
    obtain ⟨M', rfl, hsound⟩ := h.exists_of_pop hpop
    have hclosed : (⟨t, top.rest⟩ : Frontier Q κ).Sound g s M' :=
      ⟨h.indexed.set hset hindex hd rfl, hsound.holds⟩
    obtain ⟨hf, -⟩ | ⟨hf, -⟩ | ⟨f₁, M₁, hf, hsound₁, hexp⟩ :=
      hclosed.expand_cases hranks budget d.node top.value base
    · cases hf.symm.trans hexpand
    · cases hf.symm.trans hexpand
    obtain rfl : f₁ = f' := Except.ok.inj (hf.symm.trans hexpand)
    -- the edges close nothing
    have hkeep : ∀ k, t.Closed g k → f₁.table.Closed g k := by
      rintro k ⟨i, x, hx, hc, hk⟩
      obtain ⟨hx', -⟩ := hexp.closed_iff.mpr ⟨hx, hc⟩
      exact ⟨i, x, hx', hc, hk⟩
    refine ⟨M₁, hsound₁, ?_, fun k hk => hkeep k (hk.set hd hset), ?_⟩
    · have := hexp.card_le
      simp only [Multiset.card_cons, Option.toList_some, List.map_cons, List.map_nil, List.sum_cons,
        List.sum_nil]
      omega
    · intro m hm
      obtain rfl := Option.some.inj hm
      exact hkeep _ ⟨top.value, _, hset.self, rfl, rfl⟩

end Frontier

/-! Whole courses. -/

section

variable {σ ρ : Type} [LE κ] [Cost κ] [PriorityQueue Q κ Nat] [DecidableLE κ] {g : Graph κ} {s : Nat}
  {step : σ → Progress σ ρ} {frontier : σ → Frontier Q κ} {expands : σ → Option Nat}

/-- No two nodes that are expanded are equal, and no more elements come out of the queue than the one for
    the start and one for every edge that leaves a node that is expanded. -/
structure Accounted (g : Graph κ) (frontier : σ → Frontier Q κ) (expands : σ → Option Nat)
    (passed : List σ) : Prop where
  once : ((passed.filterMap expands).map g.key).Nodup
  taken_le : passed.countP (fun st => (frontier st).yields) ≤
    1 + ((passed.filterMap expands).map fun n => (g.leaving n).length).sum

/-- A step expands the node of an open entry, if any, and that is what a step that goes on makes of the
    frontier. -/
structure Explores (g : Graph κ) (step : σ → Progress σ ρ) (frontier : σ → Frontier Q κ)
    (expands : σ → Option Nat) : Prop where
  opened : ∀ {st n}, n ∈ expands st → ∃ d, (frontier st).opened = some d ∧ d.node = n
  advances : ∀ {st st'}, step st = .going st' → (frontier st).Advances g (expands st) (frontier st')

variable [PriorityQueue.Lawful Q] {st : σ} {passed : List σ} {r : ρ} {M : Multiset (κ × Nat)}

theorem Explores.not_closed (h : Explores g step frontier expands) (hsound : (frontier st).Sound g s M)
    {n : Nat} (hn : n ∈ expands st) : ¬ (frontier st).table.Closed g (g.key n) := by
  obtain ⟨d, hd, rfl⟩ := h.opened hn
  exact hsound.not_closed hd

namespace Course

/-- Nothing is expanded later that is equal to a node that is closed now. -/
theorem not_closed (h : Course step st passed r) (he : Explores g step frontier expands)
    (hsound : (frontier st).Sound g s M) :
    ∀ n ∈ passed.filterMap expands, ¬ (frontier st).table.Closed g (g.key n) := by
  induction h generalizing M with
  | ended =>
    intro n hmem
    obtain ⟨st₀, hst₀, hn⟩ := List.mem_filterMap.mp hmem
    obtain rfl := List.mem_singleton.mp hst₀
    exact he.not_closed hsound hn
  | going hstep _ ih =>
    obtain ⟨M', hcharged⟩ := (he.advances hstep).exists_charged hsound
    intro n hmem
    obtain ⟨st₀, hst₀, hn⟩ := List.mem_filterMap.mp hmem
    rcases List.mem_cons.mp hst₀ with rfl | hlater
    · exact he.not_closed hsound hn
    · -- what is closed now is closed later as well
      intro hclosed
      exact ih hcharged.sound n (List.mem_filterMap.mpr ⟨st₀, hlater, hn⟩) (hcharged.closed _ hclosed)

theorem nodup_keys (h : Course step st passed r) (he : Explores g step frontier expands)
    (hsound : (frontier st).Sound g s M) : ((passed.filterMap expands).map g.key).Nodup := by
  induction h generalizing M with
  | @ended st r hstep =>
    cases hn : expands st with
    | none =>
      rw [List.filterMap_cons_none hn]
      exact List.nodup_nil
    | some n =>
      rw [List.filterMap_cons_some hn]
      exact List.nodup_singleton _
  | @going st st' passed r hstep hcourse ih =>
    obtain ⟨M', hcharged⟩ := (he.advances hstep).exists_charged hsound
    cases hn : expands st with
    | none =>
      rw [List.filterMap_cons_none hn]
      exact ih hcharged.sound
    | some n =>
      rw [List.filterMap_cons_some hn, List.map_cons, List.nodup_cons]
      refine ⟨?_, ih hcharged.sound⟩
      intro hmem
      obtain ⟨m, hm, hkey⟩ := List.mem_map.mp hmem
      exact hcourse.not_closed he hcharged.sound m hm (hkey ▸ hcharged.expanded n hn)

/-- What comes out of the queue is queued now, or an edge pays for it. -/
theorem taken_le (h : Course step st passed r) (he : Explores g step frontier expands)
    (hsound : (frontier st).Sound g s M) :
    passed.countP (fun st => (frontier st).yields) ≤
      M.card + ((passed.filterMap expands).map fun n => (g.leaving n).length).sum := by
  induction h generalizing M with
  | @ended st r hstep =>
    apply Nat.le_add_right_of_le
    rw [List.countP_singleton]
    split
    · next hyields => exact hsound.card_pos hyields
    · exact Nat.zero_le _
  | @going st st' passed r hstep _ ih =>
    have hadv := he.advances hstep
    obtain ⟨M', hcharged⟩ := hadv.exists_charged hsound
    have hlater := ih hcharged.sound
    have hcard := hcharged.card_lt
    rw [List.countP_cons_of_pos (p := fun st => (frontier st).yields) hadv.yields]
    cases hn : expands st with
    | none =>
      rw [hn, Option.toList_none, List.map_nil, List.sum_nil] at hcard
      rw [List.filterMap_cons_none hn]
      omega
    | some n =>
      rw [hn, Option.toList_some, List.map_singleton, List.sum_singleton] at hcard
      rw [List.filterMap_cons_some hn, List.map_cons, List.sum_cons]
      omega

theorem accounted (h : Course step st passed r) (he : Explores g step frontier expands) {p : κ}
    (hsound : (frontier st).Sound g s {(p, 0)}) : Accounted g frontier expands passed :=
  ⟨h.nodup_keys he hsound, h.taken_le he hsound⟩

end Course
end

/-! Searches for a goal. -/

section

variable [LE κ] [Cost κ] [DecidableLE κ] [PriorityQueue Q κ Nat] {q : Query κ} {st st' : State Q κ}

/-- A step that goes on has taken one element out of the queue and counted it. -/
theorem yields_of_going (h : step q st = .going st') :
    st.frontier.yields = true ∧ st'.pops = st.pops + 1 := by
  obtain ⟨top, f, hpop, -, -, -, hpops⟩ := exists_visit_of_going h
  exact ⟨by rw [Frontier.yields, hpop], hpops⟩

/-- A step ends a search since nothing is left in the queue, or since the bound on pops is reached, though
    an element came out, or else with the visit of that element, which it has counted. -/
theorem ended_cases {r : Run κ} (h : step q st = .ended r) :
    (st.frontier.yields = false ∧ r.pops = st.pops ∧
      ∀ found, r.outcome = .ok found → ∃ n, r.log.getLast? = some (.exhausted st.pops n)) ∨
    (st.frontier.yields = true ∧ q.limits.reached st.pops = true ∧
      r.log.getLast? = some (.stopped st.pops)) ∨
    (st.frontier.yields = true ∧ r.pops = st.pops + 1 ∧
      ∀ found, r.outcome = .ok found → ∃ n, r.log.getLast? = some (.reached (st.pops + 1) n)) := by
  have hproceeds := step_proceeds q st
  generalize step q st = p at h hproceeds
  cases hproceeds with
  | broken hpop =>
    obtain rfl := Progress.ended.inj h
    exact Or.inl ⟨by rw [Frontier.yields, hpop], rfl, by rintro _ ⟨⟩⟩
  | exhausted hpop =>
    obtain rfl := Progress.ended.inj h
    exact Or.inl ⟨by rw [Frontier.yields, hpop], rfl, fun _ _ => ⟨_, List.getLast?_concat⟩⟩
  | stopped hpop hreached =>
    obtain rfl := Progress.ended.inj h
    exact Or.inr (Or.inl ⟨by rw [Frontier.yields, hpop], hreached, List.getLast?_concat⟩)
  | @visited top hpop hreached =>
    generalize visit q (⟨st.frontier.table, top.rest⟩ : Frontier Q κ) top.value = x at h
    refine Or.inr (Or.inr ⟨by rw [Frontier.yields, hpop], ?_⟩)
    cases x with
    | error why =>
      obtain rfl := Progress.ended.inj h
      exact ⟨rfl, by rintro _ ⟨⟩⟩
    | ok x =>
      cases x with
      | onward f => cases h
      | arrived route =>
        obtain rfl := Progress.ended.inj h
        exact ⟨rfl, fun _ _ => ⟨_, List.getLast?_concat⟩⟩

theorem exists_run_course (Q : Type) [PriorityQueue Q κ Nat] [PriorityQueue.Lawful Q] (q : Query κ) :
    ∃ (f : Frontier Q κ) (passed : List (State Q κ)),
      Frontier.start q.graph q.start (q.estimate q.start) = .ok f ∧
      f.Sound q.graph q.start {(q.estimate q.start, 0)} ∧ Course (step q) ⟨f, 0, []⟩ passed (run Q q) := by
  obtain ⟨f, hf, hsound, -⟩ := Frontier.exists_start (Q := Q) q.graph q.start (q.estimate q.start)
  have hrun : run Q q = runFor q (stepBound q.graph) ⟨f, 0, []⟩ := by rw [run, hf]
  obtain ⟨passed, hcourse⟩ := exists_course (step q) (runFor q)
    (fun r => r.outcome = .error (.defect .stepBound)) (fun _ => rfl)
    (fun h => by rw [runFor, h]) (fun h => by rw [runFor, h]) (hrun ▸ run_not_defect Q q .stepBound)
  exact ⟨f, passed, hf, hsound, hrun ▸ hcourse⟩

/-- Without a bound on pops a search counts every element that comes out of its queue. -/
theorem Course.pops_eq {passed : List (State Q κ)} {r : Run κ} (h : Course (step q) st passed r)
    (hbound : ∀ pops, q.limits.reached pops = false) :
    r.pops = st.pops + passed.countP fun st => st.frontier.yields := by
  induction h with
  | @ended st r hstep =>
    rw [List.countP_singleton]
    obtain ⟨hyields, hpops, -⟩ | ⟨-, hreached, -⟩ | ⟨hyields, hpops, -⟩ := ended_cases hstep
    · rw [hpops, hyields]
      rfl
    · cases (hbound st.pops).symm.trans hreached
    · rw [hpops, hyields]
      rfl
  | @going st st' passed r hstep _ ih =>
    obtain ⟨hyields, hpops⟩ := yields_of_going hstep
    rw [List.countP_cons_of_pos (p := fun st : State Q κ => st.frontier.yields) hyields, ih, hpops]
    omega

end

end MonotoneQueue.Search

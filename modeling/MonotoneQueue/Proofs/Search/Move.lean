import Mathlib
import MonotoneQueue.Proofs.Search.Effort
import MonotoneQueue.Proofs.Search.Pending
import MonotoneQueue.Search

/- What a search does between two pops, told without its queue. A `View` is the table, the multiset of
   what is queued, the closed entries and the number of pops. A `Move` takes one least element out: a
   stale copy is passed over, or an open entry is closed and its edges are followed. Whatever the
   weights, keys and estimates are, a move leaves a view tracked (`Move.tracked`): the table is indexed,
   what is queued is known, and every entry was reached from one closed before. A loop of moves comes to
   an end (`exists_end`), so a search is known by the view in which it ends. -/
namespace MonotoneQueue.Search

open Cost (value)
open PriorityQueue.Lawful (Holds Accepts)

variable {κ : Type}

/-- A search on its way, without its queue. The entry closed last stands first. -/
structure View (κ : Type) where
  table : Table κ
  queued : Multiset (κ × Nat)
  closed : List (Nat × Discovery κ)
  pops : Nat

variable [LE κ] [Cost κ]

/-- Only the start is discovered, and it is queued at a priority. -/
def View.start (g : Graph κ) (s : Nat) (p : κ) : View κ :=
  ⟨.start (g.key s) s Cost.zero, {(p, 0)}, [], 0⟩

/-- A least element comes out of the queue, for the entry `d` at `i`, and the others stay. -/
structure View.Takes (v : View κ) (p : κ) (i : Nat) (d : Discovery κ)
    (others : Multiset (κ × Nat)) : Prop where
  queued_eq : v.queued = (p, i) ::ₘ others
  least : ∀ x ∈ v.queued, value p ≤ value x.1
  entry_eq : v.table.entries[i]? = some d

/-- The edges that are followed from an entry: those that leave its node, or none if it is over the
    budget. -/
def Due (g : Graph κ) (budget : Option κ) (d : Discovery κ) (es : List (Edge κ)) : Prop :=
  es = g.leaving d.node ∨ (es = [] ∧ ¬ Affordable budget (value d.cost))

theorem Due.mem_leaving {g : Graph κ} {budget : Option κ} {d : Discovery κ} {es : List (Edge κ)}
    (h : Due g budget d es) {e : Edge κ} (he : e ∈ es) : e ∈ g.leaving d.node := by
  rcases h with rfl | ⟨rfl, -⟩
  · exact he
  · exact nomatch he

/-- What one pop makes of a search. -/
inductive Move (g : Graph κ) (s : Nat) (budget : Option κ) (H : Nat → Int) (v : View κ) : View κ → Prop
  /-- The copy is that of a closed entry. -/
  | pass {p : κ} {i : Nat} {d : Discovery κ} {M : Multiset (κ × Nat)} :
    v.Takes p i d M → d.closed = true →
    Move g s budget H v { v with queued := M, pops := v.pops + 1 }
  /-- The entry is closed and its edges are followed. -/
  | visit {p : κ} {i : Nat} {d : Discovery κ} {M M' : Multiset (κ × Nat)} {es : List (Edge κ)}
      {t₁ t' : Table κ} :
    v.Takes p i d M → d.closed = false → v.table.SetAt i { d with closed := true } t₁ →
    Due g budget d es → Expands g s budget H i d.cost es t₁ M t' M' →
    Move g s budget H v ⟨t', M', (i, { d with closed := true }) :: v.closed, v.pops + 1⟩

/-! What is true of every search. -/

/-- What is queued is known to the table. -/
def Known (t : Table κ) (M : Multiset (κ × Nat)) : Prop := ∀ x ∈ M, ∃ d, t.entries[x.2]? = some d

theorem Known.follows {g : Graph κ} {budget : Option κ} {H : Nat → Int} {i : Nat} {base : κ}
    {e : Edge κ} {t t' : Table κ} {M M' : Multiset (κ × Nat)} (h : Known t M)
    (hf : Follows g budget H i base e t M t' M') : Known t' M' := by
  have hkeep : Known t' M := by
    intro x hx
    obtain ⟨d, hd⟩ := h x hx
    obtain ⟨d', hd', -⟩ := hf.persists hd
    exact ⟨d', hd'⟩
  cases hf with
  | refused => exact hkeep
  | known => exact hkeep
  | improved hset =>
    intro x hx
    rcases Multiset.mem_cons.mp hx with rfl | hx
    · exact ⟨_, hset.self⟩
    · exact hkeep x hx

/-- The table is indexed, what is queued is known, every entry was reached from one closed before, and
    every pop is paid for. -/
structure View.Tracked (g : Graph κ) (s : Nat) (v : View κ) : Prop where
  indexed : v.table.Indexed g s
  known : Known v.table v.queued
  routed : Routed g s v.table v.closed
  paid : Paid g v.closed v.queued 0 v.pops

variable {g : Graph κ} {s : Nat} {budget : Option κ} {H : Nat → Int} {v v' : View κ}

theorem View.Tracked.start (g : Graph κ) (s : Nat) (p : κ) : (View.start g s p).Tracked g s where
  indexed := .start g s Cost.zero
  known := by
    intro x hx
    rw [Multiset.mem_singleton.mp hx]
    exact ⟨_, Table.start_entry_iff.mpr ⟨rfl, rfl⟩⟩
  routed := .start g s
  paid := .start g _

theorem Move.pops_eq (hm : Move g s budget H v v') : v'.pops = v.pops + 1 := by
  cases hm <;> rfl

theorem Move.tracked (h : v.Tracked g s) (hm : Move g s budget H v v') : v'.Tracked g s := by
  cases hm with
  | @pass p i d M htakes hc =>
    have hpaid := h.paid
    rw [htakes.queued_eq] at hpaid
    refine ⟨h.indexed, ?_, h.routed, hpaid.pass⟩
    intro x hx
    exact h.known x (htakes.queued_eq ▸ Multiset.mem_cons_of_mem hx)
  | @visit p i d M M' es t₁ t' htakes hc hset hes hexp =>
    have hpaid := h.paid
    rw [htakes.queued_eq] at hpaid
    have hrouted := h.routed.close htakes.entry_eq hc hset
    have hknown : Known t₁ M := by
      intro x hx
      by_cases hi : x.2 = i
      · rw [hi]
        exact ⟨_, hset.self⟩
      · rw [hset.other hi]
        exact h.known x (htakes.queued_eq ▸ Multiset.mem_cons_of_mem hx)
    -- the edges of the closed entry pay for what they queue
    have hclosed := hpaid.pass.close (i, { d with closed := true })
    have hpaid' : Paid g ((i, { d with closed := true }) :: v.closed) M es.length (v.pops + 1) := by
      rcases hes with rfl | ⟨rfl, -⟩
      · exact hclosed
      · exact hclosed.waive
    obtain ⟨hknown', hrouted', hpaid''⟩ := hexp.carries
      (fun es t M => Known t M ∧ Routed g s t ((i, { d with closed := true }) :: v.closed) ∧
        Paid g ((i, { d with closed := true }) :: v.closed) M es.length (v.pops + 1))
      (fun he _ hP hf => ⟨hP.1.follows hf, hP.2.1.follows List.mem_cons_self (hes.mem_leaving he) hf,
        Paid.follows hP.2.2 hf⟩)
      ⟨hknown, hrouted, hpaid'⟩
    exact ⟨hexp.indexed, hknown', hrouted', hpaid''⟩

/-- Every open entry stays queued under its total, and under nothing less. -/
theorem Move.pending (hH : Respects g s H) (h : Pending H v.table v.queued)
    (hm : Move g s budget H v v') : Pending H v'.table v'.queued := by
  cases hm with
  | @pass p i d M htakes hc => exact (htakes.queued_eq ▸ h).pass htakes.entry_eq hc
  | @visit p i d M M' es t₁ t' htakes hc hset hes hexp =>
    refine hexp.carries (fun _ t M => Pending H t M) ?_ ((htakes.queued_eq ▸ h).close hset)
    intro e _ t M t' M' he ht hP hf
    have hmem : e ∈ g.edges := (Graph.mem_leaving.mp (hes.mem_leaving he)).1
    exact hP.follows hH ht (Graph.mem_nodes_of_mem_edges hmem s) hf

/-! The edges of an entry whose copy has come out. -/

namespace View.Takes

variable {p : κ} {i : Nat} {d : Discovery κ} {M : Multiset (κ × Nat)}

/-- The copy that comes out for an open entry has its total as priority. -/
theorem eq_total (h : v.Takes p i d M) (hp : Pending H v.table v.queued) (hopen : d.closed = false) :
    value p = d.total H := by
  have hleast := h.least
  rw [h.queued_eq] at hp hleast
  exact hp.eq_total_of_least h.entry_eq hopen hleast

/-- With consistent estimates no edge of an open entry leads below what comes out for it. -/
theorem le_rank (h : v.Takes p i d M) (hp : Pending H v.table v.queued) (hopen : d.closed = false)
    (hH : g.Consistent H) {e : Edge κ} (he : e ∈ g.leaving d.node) :
    value p ≤ value d.cost + value e.weight + H e.target := by
  obtain ⟨hmem, hsource⟩ := Graph.mem_leaving.mp he
  have hest := hH e hmem
  rw [hsource] at hest
  calc value p = value d.cost + H d.node := h.eq_total hp hopen
    _ ≤ value d.cost + (value e.weight + H e.target) := Int.add_le_add_left hest _
    _ = value d.cost + value e.weight + H e.target := (Int.add_assoc _ _ _).symm

end View.Takes

/-- Why following an edge breaks off, from an entry at cost `c` whose copy came out at `low`. -/
inductive Breaks (budget : Option κ) (H : Nat → Int) (c low : Int) (e : Edge κ) : Failure → Prop
  | overflow : Overflows budget H c e → Breaks budget H c low e .costOverflow
  /-- The rank of the target is below what came out. -/
  | refusal : c + value e.weight + H e.target < low → Breaks budget H c low e .belowFloor

/-- With consistent estimates following an edge breaks off at a sum that overflows only. -/
theorem View.Takes.overflows {p : κ} {i : Nat} {d : Discovery κ} {M : Multiset (κ × Nat)}
    (h : v.Takes p i d M) (hp : Pending H v.table v.queued) (hopen : d.closed = false)
    (hH : g.Consistent H) {e : Edge κ} (he : e ∈ g.leaving d.node) {why : Failure}
    (hbreaks : Breaks budget H (value d.cost) (value p) e why) :
    why = .costOverflow ∧ Overflows budget H (value d.cost) e := by
  cases hbreaks with
  | overflow hover => exact ⟨rfl, hover⟩
  | refusal hlt => exact absurd (h.le_rank hp hopen hH he) (Int.not_le.mpr hlt)

/-! Whole runs. -/

section

variable {S R : Type} {step : S → Progress S R} {At : S → View κ → Prop} {End : View κ → R → Prop}

/-- From a state that is told by a tracked view, a step ends the run or is a move to such a state. -/
def Steps (g : Graph κ) (s : Nat) (budget : Option κ) (H : Nat → Int) (step : S → Progress S R)
    (At : S → View κ → Prop) (End : View κ → R → Prop) : Prop :=
  ∀ {st v}, v.Tracked g s → At st v →
    (∃ run, step st = .ended run ∧ End v run) ∨
    ∃ st' v', step st = .going st' ∧ Move g s budget H v v' ∧ At st' v'

theorem Steps.of_going (hstep : Steps g s budget H step At End) (h : v.Tracked g s) {st st' : S} (hat : At st v)
    (hgoing : step st = .going st') : ∃ v', Move g s budget H v v' ∧ At st' v' := by
  obtain ⟨run, hrun, -⟩ | ⟨st₁, v', hrun, hm, hat'⟩ := hstep h hat
  · cases hgoing.symm.trans hrun
  · obtain rfl := Progress.going.inj (hgoing.symm.trans hrun)
    exact ⟨v', hm, hat'⟩

/-- A loop whose steps are moves or ends comes to an end, in a view that has whatever the first one has
    and every move hands on. Every move takes an element out of the queue, so the bound on steps is not
    reached. -/
theorem exists_end (hstep : Steps g s budget H step At End) (loop : Nat → S → R) (I : View κ → Prop)
    (hgoing : ∀ {n st st'}, step st = .going st' → loop (n + 1) st = loop n st')
    (hended : ∀ {n st run}, step st = .ended run → loop (n + 1) st = run)
    (hmove : ∀ {v v'}, v.Tracked g s → I v → Move g s budget H v v' → I v')
    (n : Nat) (st : S) (h : v.Tracked g s) (hat : At st v) (hI : I v)
    (hn : v.pops + n = stepBound g) :
    ∃ st' v', v'.Tracked g s ∧ At st' v' ∧ I v' ∧ End v' (loop n st) := by
  induction n generalizing st v with
  | zero =>
    -- that many elements cannot have come out of the queue
    have hpops : v.pops ≤ g.edges.length + 1 := h.paid.pops_le h.routed h.indexed
    rw [stepBound] at hn
    omega
  | succ n ih =>
    rcases hstep h hat with ⟨run, hrun, hend⟩ | ⟨st', v', hrun, hm, hat'⟩
    · rw [hended hrun]
      exact ⟨st, v, h, hat, hI, hend⟩
    · rw [hgoing hrun]
      have hpops : v'.pops = v.pops + 1 := hm.pops_eq
      exact ih st' (hm.tracked h) hat' (hmove h hI hm) (by omega)

end

/-! What an expansion of a frontier makes of a view. -/

variable {Q : Type} [PriorityQueue Q κ Nat] [PriorityQueue.Lawful Q] [DecidableLE κ] {f : Frontier Q κ}
  {M : Multiset (κ × Nat)} {rank : Nat → κ → Result κ}

theorem Frontier.Sound.expands (h : f.Sound g s M) (hr : Ranks rank H) {p : κ}
    (hacc : ∀ p', value p ≤ value p' → Accepts f.queue p') (budget : Option κ) (node i : Nat) (base : κ) :
    (∃ e ∈ g.leaving node, ∃ why, Breaks budget H (value base) (value p) e why ∧
      f.expand g budget rank node i base = .error why) ∨
    ∃ f' M', f.expand g budget rank node i base = .ok f' ∧ Holds f'.queue M' ∧
      Expands g s budget H i base (g.leaving node) f.table M f'.table M' := by
  rcases h.expand_cases hr budget node i base with
    ⟨hf, e, he, hover⟩ | ⟨hf, e, he, p', hp', hnot⟩ | ⟨f', M', hf, hsound, hexp⟩
  · exact Or.inl ⟨e, he, _, .overflow hover, hf⟩
  · refine Or.inl ⟨e, he, _, .refusal ?_, hf⟩
    rw [← hp']
    exact Int.not_le.mp fun hle => hnot (hacc p' hle)
  · exact Or.inr ⟨f', M', hf, hsound.holds, hexp⟩

end MonotoneQueue.Search

import Mathlib
import MonotoneQueue.Proofs.Radix.Lawful
import MonotoneQueue.Proofs.Search.Optimal

/- Searches whose estimates may be inconsistent, without bounds and on graphs where no two nodes are
   equal. Such a search finds a goal if one can be reached, unless it breaks off, but not always at the
   least cost: an estimate that is too high by itself keeps a node waiting while another way closes what
   lies behind it, and an edge to a closed node is passed over without a push that could be refused
   (`radix_misled`). What holds is that no answer is dearer than a steady walk to a goal, one along which
   the estimates are consistent (`astar_steady`). -/
namespace MonotoneQueue.Search

open Cost (value)

variable {κ : Type} [LE κ] [Cost κ] {g : Graph κ} {s : Nat} {H : Nat → Int} {t t' : Table κ}
  {M M' : Multiset (κ × Nat)} {i : Nat} {d : Discovery κ} {e : Edge κ}

/-- A walk along which the ranks never fall: no estimate on it exceeds the weight of the next edge plus
    the estimate behind it. -/
inductive Steady (g : Graph κ) (H : Nat → Int) (a : Nat) : Nat → Int → Prop
  | here : Steady g H a a 0
  | onward {b : Nat} {c : Int} {e : Edge κ} :
    Steady g H a b c → e ∈ g.leaving b → H b ≤ value e.weight + H e.target →
    Steady g H a e.target (c + value e.weight)

/-- No closed entry is dearer than a steady walk to it. Every edge of a closed entry has led to an entry,
    which is no dearer than a steady walk along that edge, but for the edges in `owed`, which are still
    to be followed. -/
structure Fair (g : Graph κ) (s : Nat) (H : Nat → Int) (t : Table κ) (owed : List (Nat × Edge κ)) :
    Prop where
  closed_le : ∀ (j : Nat) (d : Discovery κ), t.entries[j]? = some d → d.closed = true →
    ∀ c, Steady g H s d.node c → value d.cost ≤ c
  led : ∀ (j : Nat) (d : Discovery κ), t.entries[j]? = some d → d.closed = true →
    ∀ e ∈ g.leaving d.node, (j, e) ∈ owed ∨
      ∃ (k : Nat) (d' : Discovery κ), t.entries[k]? = some d' ∧ g.key d'.node = g.key e.target ∧
        ∀ c, Steady g H s d.node c → H d.node ≤ value e.weight + H e.target →
          value d'.cost ≤ c + value e.weight

namespace Fair

variable {owed : List (Nat × Edge κ)}

theorem start (g : Graph κ) (s : Nat) (H : Nat → Int) (key : Nat) :
    Fair g s H (.start key s Cost.zero) [] := by
  have hopen : ∀ (j : Nat) (d : Discovery κ),
      (Table.start key s (Cost.zero : κ)).entries[j]? = some d → d.closed ≠ true := by
    intro j d hd hc
    obtain ⟨-, rfl⟩ := Table.start_entry_iff.mp hd
    exact nomatch hc
  exact ⟨fun j d hd hc => absurd hc (hopen j d hd), fun j d hd hc => absurd hc (hopen j d hd)⟩

theorem close (h : Fair g s H t []) (hd : t.entries[i]? = some d)
    (hle : ∀ c, Steady g H s d.node c → value d.cost ≤ c)
    (hset : t.SetAt i { d with closed := true } t') :
    Fair g s H t' ((g.leaving d.node).map (i, ·)) := by
  constructor
  case closed_le =>
    intro j d' hd' hc
    rcases hset.cases hd' with ⟨-, rfl⟩ | ⟨-, hd'⟩
    · exact hle
    · exact h.closed_le j d' hd' hc
  case led =>
    intro j d' hd' hc e he
    rcases hset.cases hd' with ⟨rfl, rfl⟩ | ⟨-, hd'⟩
    · exact Or.inl (List.mem_map_of_mem he)
    rcases h.led j d' hd' hc e he with hmem | ⟨k, x, hx, hk, hcost⟩
    · exact nomatch hmem
    by_cases hki : k = i
    · subst hki
      obtain rfl : d = x := Option.some.inj (hd ▸ hx)
      exact Or.inr ⟨k, _, hset.self, hk, hcost⟩
    · exact Or.inr ⟨k, x, by rwa [hset.other hki], hk, hcost⟩

theorem follows (h : Fair g s H t ((i, e) :: owed)) (hg : g.DistinctKeys s) (ht : t.Indexed g s)
    (he : e ∈ g.edges) (hd : t.entries[i]? = some d) (hclosed : d.closed = true)
    (hf : Follows g none H i d.cost e t M t' M') : Fair g s H t' owed := by
  constructor
  case closed_le =>
    intro j d' hd' hc
    exact h.closed_le j d' (hf.closed_iff.mp ⟨hd', hc⟩).1 hc
  case led =>
    intro j d' hd' hc e' he'
    obtain ⟨hd', -⟩ := hf.closed_iff.mp ⟨hd', hc⟩
    rcases h.led j d' hd' hc e' he' with hmem | ⟨k, x, hx, hk, hcost⟩
    · rcases List.mem_cons.mp hmem with heq | hmem
      · rw [Prod.mk.injEq] at heq
        obtain ⟨rfl, rfl⟩ := heq
        obtain rfl : d = d' := Option.some.inj (hd.symm.trans hd')
        rcases hf.target_known with hover | ⟨k, x, hx, hk, hknown⟩
        · exact absurd nofun hover
        refine Or.inr ⟨k, x, hx, hk, ?_⟩
        intro c hc hlevel
        rcases hknown with hxc | hle
        · -- the target was closed before, when it was no dearer than this walk to it
          have hx₀ := (hf.closed_iff.mp ⟨hx, hxc⟩).1
          have hnode : x.node = e'.target :=
            hg x.node (ht.mem_nodes k x hx₀) e'.target (Graph.mem_nodes_of_mem_edges he s) hk
          exact h.closed_le k x hx₀ hxc _ (hnode ▸ hc.onward he' hlevel)
        · have hcost := h.closed_le j d hd hclosed c hc
          omega
      · exact Or.inl hmem
    · obtain ⟨x', hx', hnode, hle, -⟩ := hf.persists hx
      refine Or.inr ⟨k, x', hx', by rw [hnode, hk], ?_⟩
      intro c hc hlevel
      exact Int.le_trans hle (hcost c hc hlevel)

theorem met (h : Fair g s H t []) (hg : g.DistinctKeys s) (ht : t.Indexed g s)
    (hroot : ∃ d : Discovery κ, t.entries[0]? = some d ∧ d.node = s ∧ value d.cost ≤ 0) {n : Nat}
    {c : Int} (hw : Steady g H s n c) : Met H t n c := by
  induction hw with
  | here =>
    obtain ⟨d, hd, hnode, hle⟩ := hroot
    rw [← hnode]
    exact .of_entry hd hle
  | @onward b c e hb he hlevel ih =>
    have hmem := (Graph.mem_leaving.mp he).1
    rcases ih with ⟨j, d, hd, hc, rfl, -⟩ | ⟨j, d, hd, hc, hle⟩
    · rcases h.led j d hd hc e he with hnone | ⟨k, x, hx, hk, hcost⟩
      · exact nomatch hnone
      have hxnode : x.node = e.target :=
        hg x.node (ht.mem_nodes k x hx) e.target (Graph.mem_nodes_of_mem_edges hmem s) hk
      rw [← hxnode]
      exact .of_entry hx (hcost c hb hlevel)
    · refine Or.inr ⟨j, d, hd, hc, ?_⟩
      calc d.total H ≤ c + H b := hle
        _ ≤ c + (value e.weight + H e.target) := Int.add_le_add_left hlevel c
        _ = c + value e.weight + H e.target := (Int.add_assoc _ _ _).symm

end Fair

/-! Views. -/

variable {v v' : View κ}

/-- Every open entry is queued, and steady walks are served. -/
structure View.FairTo (g : Graph κ) (s : Nat) (H : Nat → Int) (v : View κ) : Prop where
  pending : Pending H v.table v.queued
  fair : Fair g s H v.table []

theorem View.FairTo.start (g : Graph κ) {p : κ} (hp : value p = H s) :
    (View.start g s p).FairTo g s H := ⟨.start _ _ hp, .start g s H _⟩

namespace View.FairTo

/-- The end of a steady walk is closed at no higher cost, or something is queued that is not above its
    rank. -/
theorem met (h : v.FairTo g s H) (hg : g.DistinctKeys s) (ht : v.Tracked g s) {n : Nat} {c : Int}
    (hw : Steady g H s n c) :
    (∃ x ∈ v.closed, x.2.node = n ∧ value x.2.cost ≤ c) ∨ ∃ x ∈ v.queued, value x.1 ≤ c + H n := by
  rcases h.fair.met hg ht.indexed ht.routed.root hw with
    ⟨j, d, hd, hclosed, hnode, hle⟩ | ⟨j, d, hd, hopen, hle⟩
  · exact Or.inl ⟨(j, d), (ht.routed.mem_done j d).mpr ⟨hd, hclosed⟩, hnode, hle⟩
  · obtain ⟨p, hp, hvalue⟩ := h.pending.queued j d hd hopen
    exact Or.inr ⟨(p, j), hp, hvalue ▸ hle⟩

theorem cost_le (h : v.FairTo g s H) (hg : g.DistinctKeys s) (ht : v.Tracked g s) {p : κ}
    (htakes : v.Takes p i d M) (hopen : d.closed = false) {c : Int} (hw : Steady g H s d.node c) :
    value d.cost ≤ c := by
  have htotal : value p = d.total H := htakes.eq_total h.pending hopen
  rcases h.met hg ht hw with ⟨x, hx, hnode, -⟩ | ⟨x, hx, hle⟩
  · -- the node has one entry only
    obtain ⟨hentry, hclosed⟩ := (ht.routed.mem_done x.1 x.2).mp hx
    have hpos : x.1 = i := ht.indexed.position_unique hentry htakes.entry_eq (by rw [hnode])
    rw [hpos, htakes.entry_eq, Option.some.injEq] at hentry
    rw [← hentry, hopen] at hclosed
    exact nomatch hclosed
  · have hleast := htakes.least x hx
    rw [Discovery.total] at htotal
    omega

/-- With nothing queued whatever can be walked to is closed. -/
theorem exists_closed (h : v.FairTo g s H) (hg : g.DistinctKeys s) (ht : v.Tracked g s)
    (hM : v.queued = 0) {n : Nat} {c : Int} (hw : g.Walk s n c) : ∃ x ∈ v.closed, x.2.node = n := by
  have hclosed : ∀ (j : Nat) (d : Discovery κ), v.table.entries[j]? = some d →
      (j, d) ∈ v.closed := by
    intro j d hd
    refine (ht.routed.mem_done j d).mpr ⟨hd, ?_⟩
    by_contra hc
    obtain ⟨p, hp, -⟩ := h.pending.queued j d hd (Bool.not_eq_true _ ▸ hc)
    rw [hM] at hp
    exact Multiset.notMem_zero _ hp
  induction hw with
  | here =>
    obtain ⟨d, hd, hnode, -⟩ := ht.routed.root
    exact ⟨(0, d), hclosed 0 d hd, hnode⟩
  | @onward b c e hb he ih =>
    obtain ⟨x, hx, rfl⟩ := ih
    obtain ⟨hentry, hxc⟩ := (ht.routed.mem_done x.1 x.2).mp hx
    rcases h.fair.led x.1 x.2 hentry hxc e he with hnone | ⟨k, y, hy, hk, -⟩
    · exact nomatch hnone
    have hmem := (Graph.mem_leaving.mp he).1
    exact ⟨(k, y), hclosed k y hy,
      hg y.node (ht.indexed.mem_nodes k y hy) e.target (Graph.mem_nodes_of_mem_edges hmem s) hk⟩

end View.FairTo

theorem Move.fairTo (hg : g.DistinctKeys s) (ht : v.Tracked g s) (h : v.FairTo g s H)
    (hm : Move g s none H v v') : v'.FairTo g s H := by
  have hpending : Pending H v'.table v'.queued := hm.pending (.of_distinctKeys hg H) h.pending
  refine ⟨hpending, ?_⟩
  cases hm with
  | pass => exact h.fair
  | @visit p i d M M' es t₁ t' htakes hc hset hes hexp =>
    have hle : ∀ c, Steady g H s d.node c → value d.cost ≤ c :=
      fun c hw => h.cost_le hg ht htakes hc hw
    have hfair : Fair g s H t₁ (es.map (i, ·)) := by
      rcases hes with rfl | ⟨-, ha⟩
      · exact h.fair.close htakes.entry_eq hle hset
      · exact absurd nofun ha
    -- one edge after the other, from the closed entry
    obtain ⟨hfair', -⟩ := hexp.carries
      (fun es t _ => Fair g s H t (es.map (i, ·)) ∧ t.entries[i]? = some { d with closed := true })
      (fun he ht hP hf => by
        have hmem := (Graph.mem_leaving.mp (hes.mem_leaving he)).1
        exact ⟨hP.1.follows hg ht hmem hP.2 rfl hf, (hf.closed_iff.mpr ⟨hP.2, rfl⟩).1⟩)
      ⟨hfair, hset.self⟩
    exact hfair'

/-! Searches. -/

/-- What a search without bounds may come to. It breaks off at a sum that overflows, or at a push that is
    refused, and then some estimate is not consistent. Otherwise it finds no way just if no goal can be
    reached, and a way that it finds is no dearer than any steady walk to a goal. -/
inductive Serves (q : Query κ) : Result (Option (Route κ)) → Prop
  | overflow : SumOverflows q → Serves q (.error .costOverflow)
  | refusal : ¬ q.graph.Consistent q.guess → Serves q (.error .belowFloor)
  | exhausted : q.graph.goalWeights q.start = ∅ → Serves q (.ok none)
  | arrived {route : Route κ} :
    value route.cost ∈ q.graph.goalWeights q.start →
    (∀ b c, q.graph.isGoal b = true → Steady q.graph q.guess q.start b c → value route.cost ≤ c) →
    Serves q (.ok (some route))

/-- A search without bounds, with estimates that are zero at the goals. -/
structure Unbounded (q : Query κ) : Prop where
  limits : q.limits = {}
  distinct : q.graph.DistinctKeys q.start
  goal : ∀ b, q.graph.isGoal b = true → q.guess b = 0

theorem Ends.serves {q : Query κ} {run : Run κ} (h : Ends q v run) (hq : Unbounded q)
    (ht : v.Tracked q.graph q.start) (hu : v.Unmet q) (hfair : v.FairTo q.graph q.start q.guess) :
    Serves q run.outcome := by
  have hnone : ∀ c, Affordable q.limits.maxCost c := by
    rw [hq.limits]
    exact fun _ => nofun
  cases h with
  | exhausted hM =>
    apply Serves.exhausted
    apply Set.eq_empty_iff_forall_notMem.mpr
    rintro c ⟨b, hgoal, hw⟩
    obtain ⟨x, hx, rfl⟩ := hfair.exists_closed hq.distinct ht hM hw
    exact hu x hx hgoal (hnone _)
  | stopped _ hreached =>
    rw [Limits.reached, hq.limits] at hreached
    cases hreached
  | @arrived p i d M t' path log htakes hc ha hgoal =>
    apply Serves.arrived
    · exact ⟨d.node, hgoal, ht.routed.walk ht.indexed hq.distinct htakes.entry_eq⟩
    · intro b c hb hw
      have htotal : value p = value d.cost + q.guess d.node := htakes.eq_total hfair.pending hc
      rcases hfair.met hq.distinct ht hw with ⟨x, hx, rfl, -⟩ | ⟨x, hx, hle⟩
      · exact absurd (hnone _) (hu x hx hb)
      · -- everything that is cheaper would have come out before
        have hleast := htakes.least x hx
        rw [hq.goal d.node hgoal] at htotal
        rw [hq.goal b hb] at hle
        show value d.cost ≤ c
        omega
  | @broken p i d M e why log htakes hc ha he hbreaks =>
    have hw := ht.routed.walk ht.indexed hq.distinct htakes.entry_eq
    cases hbreaks with
    | overflow hover => exact .overflow ⟨_, _, hw, ha, e, he, hover⟩
    | refusal hlt =>
      apply Serves.refusal
      intro hcons
      exact absurd (htakes.le_rank hfair.pending hc hcons he) (Int.not_le.mpr hlt)

variable {Q : Type} [PriorityQueue Q κ Nat] [PriorityQueue.Lawful Q] [DecidableLE κ]

theorem run_serves {q : Query κ} (hq : Unbounded q) : Serves q (run Q q).outcome := by
  obtain ⟨v, ht, hu, hfair, hends⟩ := exists_ends Q q (fun v => v.FairTo q.graph q.start q.guess)
    (.start _ rfl) (fun ht h hm => by
      rw [hq.limits] at hm
      exact hm.fairTo hq.distinct ht h)
  exact hends.serves hq ht hu hfair

/-- A search by cost and estimate serves steady walks, on either queue, whatever the estimates are where
    there is no goal. -/
theorem astar_steady {w : Nat} {S : Type → Type} [Storage S] (hw : w ≤ 128) (g : Graph (BitVec w))
    (estimate : Nat → BitVec w) (s : Nat) (hkeys : g.DistinctKeys s)
    (hgoal : ∀ b, g.isGoal b = true → value (estimate b) = 0) :
    Serves (.astar g estimate s {}) (run (Radix w Nat S) (.astar g estimate s {})).outcome ∧
    Serves (.astar g estimate s {}) (run (Stable (BitVec w) Nat) (.astar g estimate s {})).outcome := by
  have hq : Unbounded (Query.astar g estimate s {}) := ⟨rfl, hkeys, hgoal⟩
  have : PriorityQueue.Lawful (Radix w Nat S) := Radix.lawful hw
  exact ⟨run_serves hq, run_serves hq⟩

/-- The estimate for node 1 is not consistent with that for node 2. While node 1 waits, node 2 is closed at
    a higher cost than that of the way over node 1. -/
def misled (w : Nat) : Query (BitVec w) :=
  .astar (.ofLists [⟨0, 1, 1⟩, ⟨0, 2, 3⟩, ⟨1, 2, 1⟩, ⟨2, 3, 20⟩] [3] #[]) (Graph.estimates #[0, 10]) 0 {}

/-- The same without the edge that closes node 2, so that the push back below the floor is refused. -/
def warned (w : Nat) : Query (BitVec w) :=
  .astar (.ofLists [⟨0, 1, 1⟩, ⟨1, 2, 1⟩, ⟨2, 3, 20⟩] [3] #[]) (Graph.estimates #[0, 10]) 0 {}

theorem astar_steady_misled :
    (run (Radix 8 Nat) (misled 8)).outcome = .ok (some ⟨[0, 2, 3], 23⟩) ∧
    Serves (misled 8) (run (Radix 8 Nat) (misled 8)).outcome ∧
    (run (Radix 8 Nat) (warned 8)).outcome = .error .belowFloor ∧
    Serves (warned 8) (run (Radix 8 Nat) (warned 8)).outcome := by
  have hgoal : ∀ b, [3].contains b = true →
      value (Graph.estimates (#[0, 10] : Array (BitVec 8)) b) = 0 := by
    intro b hb
    obtain rfl : b = 3 := by simpa using hb
    rfl
  refine ⟨by rfl, (astar_steady (by decide) _ _ 0 ?_ hgoal).1, by rfl,
    (astar_steady (by decide) _ _ 0 ?_ hgoal).1⟩
  · unfold Graph.DistinctKeys
    decide
  · unfold Graph.DistinctKeys
    decide

/-- An inconsistent estimate need not be noticed on a radix heap: the search may neither break off nor
    find the least cost. -/
theorem radix_misled :
    ¬ ∀ (g : Graph (BitVec 32)) (estimate : Nat → BitVec 32) (s : Nat), g.DistinctKeys s →
      (∀ b, g.isGoal b = true → value (estimate b) = 0) →
      (run (Radix 32 Nat) (.astar g estimate s {})).outcome ≠ .error .costOverflow →
      (run (Radix 32 Nat) (.astar g estimate s {})).outcome = .error .belowFloor ∨
      Exact g s none (run (Radix 32 Nat) (.astar g estimate s {})).outcome := by
  intro h
  have hrun : (run (Radix 32 Nat) (misled 32)).outcome = .ok (some ⟨[0, 2, 3], 23⟩) := by rfl
  have hkeys : (misled 32).graph.DistinctKeys 0 := by
    unfold Graph.DistinctKeys
    decide
  have hgoal : ∀ b, (misled 32).graph.isGoal b = true → value ((misled 32).estimate b) = 0 := by
    intro b hb
    obtain rfl : b = 3 := by simpa [misled, Query.astar, Graph.ofLists] using hb
    rfl
  have hcheap : (22 : Int) ∈ (misled 32).graph.goalWeights 0 := by
    have h₁ : (misled 32).graph.Walk 0 1 1 := .onward (e := ⟨0, 1, 1⟩) .here (by decide)
    have h₂ : (misled 32).graph.Walk 0 2 2 := .onward (e := ⟨1, 2, 1⟩) h₁ (by decide)
    exact ⟨3, rfl, .onward (e := ⟨2, 3, 20⟩) h₂ (by decide)⟩
  have hoverflow : (run (Radix 32 Nat) (misled 32)).outcome ≠ .error .costOverflow := by
    rw [hrun]
    intro hfull
    cases hfull
  rcases h _ _ 0 hkeys hgoal hoverflow with hpanic | hexact
  · cases hrun.symm.trans hpanic
  · have hleast : (23 : Int) ≤ 22 := (hexact.least _ hrun).1.2 hcheap
    omega

end MonotoneQueue.Search

import Dataflow.Proofs.Expansion.Closure
import Dataflow.Proofs.Expansion.Deadlock

/-!
# Deadlocks of single-rate graphs

In a single-rate graph whose actors fire equally often, the first firings decide about the whole
iteration.  The first firing of an actor is held back by the first firing of another if an edge
between the two holds less than one firing takes.  If these dependencies have no circuit, the first
firings can be put in order, and so can the second ones and all others behind them.

The precedences of the graph are the edges without any initial tokens, and so do not see those that
hold some tokens but too few for a firing.  The homogeneous form does, because it counts initial
tokens in firings.

* `Graph.HoldsBack` — the first firing of one actor waits for the first firing of another.
* **`Graph.wellFounded_holdsBack_iff`** — an iteration is completed exactly if no actors hold each
  other back.
* `Graph.precedes_homogeneousForm` — these dependencies are the precedences of the homogeneous form.
* **`Graph.cyclic_precedences_iff`** — what the precedences of a graph and of its homogeneous form
  say about deadlocks.
-/

namespace Dataflow

/-- An edge that holds the tokens of one firing lets the target be one firing ahead. -/
lemma Edge.demand_succ_le {e : Edge} (hp : 0 < e.production) (hrates : e.production = e.consumption)
    (k : Nat) : e.demand (k + 1) ≤ if e.delay < e.consumption then k + 1 else k := by
  split_ifs with hdelay
  · rw [demand_le_iff hp, hrates, Nat.mul_comm]
    exact Nat.le_add_left _ _
  · rw [demand_le_iff hp, hrates, Nat.add_mul, Nat.mul_comm k]
    omega

namespace Graph

variable {τ : Type} {g : Graph τ} {a b : Nat}

/-- The first firing of the second actor waits for the first firing of the first: an edge between
the two holds fewer tokens than one firing takes. -/
def HoldsBack (g : Graph τ) (a b : Nat) : Prop :=
  ∃ e ∈ g.edges, e.delay < e.consumption ∧ e.source = a ∧ e.target = b

lemma Precedes.holdsBack (hc : ∀ e ∈ g.edges, 0 < e.consumption) (h : g.Precedes a b) :
    g.HoldsBack a b := by
  obtain ⟨e, he, hdelay, hsource, htarget⟩ := h
  exact ⟨e, he, hdelay ▸ hc e he, hsource, htarget⟩

/-- Without initial tokens that are too few for a firing, only precedences hold firings back. -/
lemma HoldsBack.precedes (hdelays : ∀ e ∈ g.edges, e.delay = 0 ∨ e.consumption ≤ e.delay)
    (h : g.HoldsBack a b) : g.Precedes a b := by
  obtain ⟨e, he, hdelay, hsource, htarget⟩ := h
  exact ⟨e, he, (hdelays e he).resolve_right (not_le.2 hdelay), hsource, htarget⟩

variable [Clock τ] {s : Simulation g}

/-! ## Completed iterations -/

omit [Clock τ] in
/-- From an actor that fires in some order of firings, what holds back leads back only finitely
often. -/
lemma Reaches.acc_holdsBack (hp : ∀ e ∈ g.edges, 0 < e.production) {m : Marking}
    (hm : g.Reaches m) (ha : 0 < m.counts a) : Acc g.HoldsBack a := by
  refine hm.inherits (P := fun a _ => Acc g.HoldsBack a) hp (fun b i _ hneeded => ?_) a 0 ha
  refine Acc.intro _ fun c hc => ?_
  obtain ⟨e, he, hdelay, rfl, htarget⟩ := hc
  refine hneeded e he htarget 0 ((Edge.demand_pos_iff (hp e he)).2 ?_)
  exact hdelay.trans_le (Nat.le_mul_of_pos_left _ (Nat.succ_pos i))

lemma wellFounded_of_completed (hg : g.WellFormed) (hs : g.simulation.run = .finished s)
    (hcompleted : s.phase = .completed) : WellFounded g.HoldsBack := by
  obtain ⟨m, hm, hcounts⟩ := (Simulation.completed_iff_exists hg.consumption_pos hs).1 hcompleted
  refine ⟨fun b => Acc.intro b fun a hab => ?_⟩
  obtain ⟨e, he, _, rfl, _⟩ := hab
  have hsource := (g.closed e he).1
  refine hm.acc_holdsBack hg.production_pos ?_
  rw [hcounts _ hsource]
  exact hg.repetitions_pos hsource

/-! ## Graphs without circuits -/

/-- In a run no firing is missing if no actors hold each other back.  The first firings occur in the
order in which they are held back, and every later one behind the firings before it. -/
theorem le_firings_of_wellFounded (hg : g.WellFormed)
    (hrates : ∀ e ∈ g.edges, e.production = e.consumption)
    (hcounts : ∀ e ∈ g.edges, g.repetitions e.source = g.repetitions e.target)
    (hwf : WellFounded g.HoldsBack) (hs : g.simulation.run = .finished s) (k : Nat) :
    ∀ a, k ≤ g.repetitions a → k ≤ s.ledger.firings a := by
  have hsound := Simulation.sound_run hg.consumption_pos hs
  obtain ⟨hinitial, hrunning⟩ := Simulation.ne_of_isFinal (Simulation.run_isFinal hs)
  induction k with
  | zero => exact fun a _ => Nat.zero_le _
  | succ k ihk =>
    intro a
    induction a using hwf.induction with
    | _ a iha =>
      intro hk
      refine hsound.begun_of_fed hinitial hg hk fun e he htarget => ?_
      subst htarget
      rw [hsound.ended_eq hrunning]
      have hsource : k + 1 ≤ g.repetitions e.source := (hcounts e he).symm ▸ hk
      refine (Edge.demand_succ_le (hg.production_pos e he) (hrates e he) k).trans ?_
      split_ifs with hdelay
      · exact iha _ ⟨e, he, hdelay, rfl, rfl⟩ hsource
      · exact ihk _ (Nat.le_of_succ_le hsource)

/-- An iteration is completed exactly if no actors hold each other back. -/
theorem wellFounded_holdsBack_iff (hg : g.WellFormed)
    (hrates : ∀ e ∈ g.edges, e.production = e.consumption)
    (hcounts : ∀ e ∈ g.edges, g.repetitions e.source = g.repetitions e.target)
    (hs : g.simulation.run = .finished s) :
    WellFounded g.HoldsBack ↔ s.phase = .completed := by
  have hsound := Simulation.sound_run hg.consumption_pos hs
  refine ⟨fun hwf => ?_, wellFounded_of_completed hg hs⟩
  refine (hsound.completed_iff (Simulation.run_isFinal hs)).2 fun a _ => ?_
  exact Nat.le_antisymm (hsound.consistent.firings_le a)
    (le_firings_of_wellFounded hg hrates hcounts hwf hs _ a le_rfl)

/-! ## Precedences -/

omit [Clock τ] in
lemma cyclic_precedenceForm (g : Graph τ) (name : String) :
    (g.precedenceForm name).Cyclic ↔ ¬ WellFounded g.Precedes := by
  have hjoins : (g.precedenceForm name).Joins = g.Precedes := by
    ext a b
    exact joins_precedenceForm g name
  rw [← hjoins, ← not_cyclic_iff, not_not]

omit [Clock τ] in
lemma exists_of_mem_homogeneousForm {name : String} {e' : Edge}
    (he' : e' ∈ (g.homogeneousForm name).edges) :
    ∃ e ∈ g.edges, ∃ base, e' = { e with base := base }.homogeneous := by
  obtain ⟨i, hi'⟩ := Array.getElem?_of_mem he'
  rw [getElem?_edges_homogeneousForm, Option.map_eq_some_iff] at hi'
  obtain ⟨e, hi, rfl⟩ := hi'
  exact ⟨e, Array.mem_of_getElem? hi, _, rfl⟩

omit [Clock τ] in
/-- What holds firings back precedes them in the homogeneous form. -/
lemma precedes_homogeneousForm (hp : ∀ e ∈ g.edges, 0 < e.production)
    (hrates : ∀ e ∈ g.edges, e.production = e.consumption) (name : String) :
    (g.homogeneousForm name).Precedes = g.HoldsBack := by
  have hunits : ∀ e ∈ g.edges, e.delay / e.production = 0 ↔ e.delay < e.consumption := by
    intro e he
    rw [Nat.div_eq_zero_iff, ← hrates e he]
    exact or_iff_right (hp e he).ne'
  ext a b
  constructor
  · rintro ⟨e', he', hdelay, rfl, rfl⟩
    obtain ⟨e, he, base, rfl⟩ := exists_of_mem_homogeneousForm he'
    exact ⟨e, he, (hunits e he).1 hdelay, rfl, rfl⟩
  · rintro ⟨e, he, hdelay, rfl, rfl⟩
    obtain ⟨i, hi⟩ := Array.getElem?_of_mem he
    have hi' := getElem?_edges_homogeneousForm g name i
    rw [hi, Option.map_some] at hi'
    exact ⟨_, Array.mem_of_getElem? hi', (hunits e he).2 hdelay, rfl, rfl⟩

lemma validateSingleRate_homogeneousForm (hg : g.WellFormed)
    (hrates : ∀ e ∈ g.edges, e.production = e.consumption) (name : String) :
    (g.homogeneousForm name).validateSingleRate = .ok () := by
  refine validateSingleRate_eq_ok_iff.2 ⟨hg.homogeneousForm hrates name, fun e' he' => ?_⟩
  obtain ⟨e, _, base, rfl⟩ := exists_of_mem_homogeneousForm he'
  rfl

/-- **Deadlocks of single-rate graphs.**  Suppose that a single-rate graph, whose actors fire
equally often, has an outcome.  If its precedences have a circuit, it deadlocks.  If it deadlocks,
the precedences of its homogeneous form have a circuit, and so have its own if no edge holds initial
tokens that are too few for a firing. -/
theorem cyclic_precedences_iff (hg : g.validateSingleRate = .ok ())
    (hcounts : ∀ e ∈ g.edges, g.repetitions e.source = g.repetitions e.target) {o : Outcome τ}
    (ho : g.schedule = .ok o) :
    ∃ d h f, g.precedences = .ok d ∧ g.homogeneous = .ok h ∧ h.precedences = .ok f ∧
      (d.Cyclic → o.phase = .deadlocked) ∧
      ((∀ e ∈ g.edges, e.delay = 0 ∨ e.consumption ≤ e.delay) →
        (d.Cyclic ↔ o.phase = .deadlocked)) ∧
      (f.Cyclic ↔ o.phase = .deadlocked) := by
  obtain ⟨hwell, hrates⟩ := validateSingleRate_eq_ok_iff.1 hg
  obtain ⟨_, s, hs, rfl⟩ := schedule_eq_ok.1 ho
  have hform := validateSingleRate_homogeneousForm hwell hrates (g.name ++ "_HSDF")
  have hdeadlocked : s.phase = .deadlocked ↔ ¬ WellFounded g.HoldsBack := by
    rw [wellFounded_holdsBack_iff hwell hrates hcounts hs]
    rcases Simulation.completed_or_deadlocked (Simulation.run_isFinal hs) with hp | hp
    · simp [hp]
    · simp [hp]
  have hcircuit : ¬ WellFounded g.Precedes → s.phase = .deadlocked := by
    rw [hdeadlocked]
    exact mt (Subrelation.wf (Precedes.holdsBack hwell.consumption_pos))
  refine ⟨_, _, _, precedences_eq_ok hg, homogeneous_eq_ok hg, precedences_eq_ok hform, ?_, ?_, ?_⟩
  · rw [cyclic_precedenceForm]
    exact hcircuit
  · intro hdelays
    rw [cyclic_precedenceForm]
    refine ⟨hcircuit, fun hp => ?_⟩
    exact mt (Subrelation.wf (HoldsBack.precedes hdelays)) (hdeadlocked.1 hp)
  · rw [cyclic_precedenceForm, precedes_homogeneousForm hwell.production_pos hrates]
    exact hdeadlocked.symm

/-- Two actors that exchange two tokens at a time, some of which are on their way. -/
def exchange (tokens : Nat) : Graph ℚ where
  name := "exchange"
  actors := #[.atomic "X" 1 1, .atomic "Y" 1 1]
  edges := #[numberedEdge 0 0 0 1 2 2 tokens, numberedEdge 0 0 1 0 2 2 0]
  closed := by simp [numberedEdge]

lemma repetitions_exchange (tokens : Nat) :
    ∀ e ∈ (exchange tokens).edges,
      (exchange tokens).repetitions e.source = (exchange tokens).repetitions e.target := by
  intro e he
  simp only [exchange, List.mem_toArray, List.mem_cons, List.not_mem_nil, or_false] at he
  rcases he with rfl | rfl <;> rfl

/-- Without tokens the exchange deadlocks and has a circuit; with one token it deadlocks and its
homogeneous form has one; with two tokens it is live and has none. -/
theorem exchange_circuits :
    (∃ d, (exchange 0).precedences = .ok d ∧ d.Cyclic) ∧
      (∃ h f, (exchange 1).homogeneous = .ok h ∧ h.precedences = .ok f ∧ f.Cyclic) ∧
      ∃ d, (exchange 2).precedences = .ok d ∧ ¬ d.Cyclic := by
  refine ⟨?_, ?_, ?_⟩
  · obtain ⟨o, ho, hphase⟩ := exists_of_any_ok (x := (exchange 0).schedule)
      (p := fun o => o.phase == .deadlocked) (by cbv)
    obtain ⟨d, _, _, hd, _, _, _, hiff, _⟩ :=
      cyclic_precedences_iff (g := exchange 0) (by cbv) (repetitions_exchange 0) ho
    exact ⟨d, hd, (hiff (by simp [exchange, numberedEdge])).2 (beq_iff_eq.1 hphase)⟩
  · obtain ⟨o, ho, hphase⟩ := exists_of_any_ok (x := (exchange 1).schedule)
      (p := fun o => o.phase == .deadlocked) (by cbv)
    obtain ⟨_, h, f, _, hh, hf, _, _, hiff⟩ :=
      cyclic_precedences_iff (g := exchange 1) (by cbv) (repetitions_exchange 1) ho
    exact ⟨h, f, hh, hf, hiff.2 (beq_iff_eq.1 hphase)⟩
  · obtain ⟨o, ho, hphase⟩ := exists_of_any_ok (x := (exchange 2).schedule)
      (p := fun o => o.phase == .completed) (by cbv)
    obtain ⟨d, _, _, hd, _, _, hcircuit, _⟩ :=
      cyclic_precedences_iff (g := exchange 2) (by cbv) (repetitions_exchange 2) ho
    refine ⟨d, hd, fun hcyclic => ?_⟩
    rw [beq_iff_eq.1 hphase] at hcircuit
    cases hcircuit hcyclic

/-- With one token the precedences of the exchange itself have no circuit, although it deadlocks:
the edge that holds the token is no precedence. -/
theorem exchange_not_cyclic :
    (exchange 1).validateSingleRate = .ok () ∧
      (∀ a < (exchange 1).actors.size, (exchange 1).repetitions a = 1) ∧
      ∃ d o, (exchange 1).precedences = .ok d ∧ (exchange 1).schedule = .ok o ∧
        o.phase = .deadlocked ∧ ¬ d.Cyclic := by
  have hvalid : (exchange 1).validateSingleRate = .ok () := by cbv
  obtain ⟨o, ho, hphase⟩ := exists_of_any_ok (x := (exchange 1).schedule)
    (p := fun o => o.phase == .deadlocked) (by cbv)
  refine ⟨hvalid, by decide, _, o, precedences_eq_ok hvalid, ho, beq_iff_eq.1 hphase, ?_⟩
  -- the only precedence leads from the second actor to the first
  have hdescends : ∀ {a b}, (exchange 1).Precedes a b → 1 - a < 1 - b := by
    rintro a b ⟨e, he, hdelay, rfl, rfl⟩
    simp only [exchange, List.mem_toArray, List.mem_cons, List.not_mem_nil, or_false] at he
    rcases he with rfl | rfl
    · cases hdelay
    · decide
  rw [cyclic_precedenceForm, not_not]
  exact Subrelation.wf hdescends (measure fun a => 1 - a).wf

end Graph

end Dataflow

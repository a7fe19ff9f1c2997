import Dataflow.Proofs.Expansion.Fifo
import Dataflow.Proofs.Expansion.Precedence
import Dataflow.Proofs.Simulation.Dates
import Dataflow.Proofs.Simulation.Verdict

/-!
# Deadlocks are circuits

Whether an iteration can be completed is seen in its precedences.  An order of firings that
completes it follows the precedences, so that they have no circuit.  Without a circuit the firings
can be taken in the order of their precedences, and none of them is stuck for lack of tokens.

* `Graph.Reaches.inherits` — induction along the firings that a firing needs.
* `Graph.Reaches.acc` — precedences that lead to firings of some order cannot be followed backwards
  forever.
* `Graph.Orders.lt_firings` — without circuits every firing of a run occurs.
* **`Graph.cyclic_iterationPrecedences`** — both directions for the outcome of a graph.
-/

namespace Dataflow.Graph

variable {τ : Type} [Clock τ] {g d : Graph τ} {a : Nat}

/-! ## Live graphs -/

omit [Clock τ] in
lemma Reaches.demand_le {m : Marking} (hm : g.Reaches m) (henabled : g.Enables m a) {e : Edge}
    (he : e ∈ g.edges) (hp : 0 < e.production) (htarget : e.target = a) :
    e.demand (m.counts a + 1) ≤ m.counts e.source := by
  obtain ⟨i, hi⟩ := Array.getElem?_of_mem he
  have hq := hm.tokens_eq hi
  have hready := henabled i e hi htarget
  rw [htarget] at hq
  rw [Edge.demand_le_iff hp, Nat.mul_comm, Nat.mul_add]
  omega

omit [Clock τ] in
/-- What a firing has as soon as the firings that it needs have it, all firings of an order have. -/
theorem Reaches.inherits {P : Nat → Nat → Prop} (hp : ∀ e ∈ g.edges, 0 < e.production)
    (inherits : ∀ a i, i < g.repetitions a →
      (∀ e ∈ g.edges, e.target = a → ∀ j < e.demand (i + 1), P e.source j) → P a i)
    {m : Marking} (hm : g.Reaches m) : ∀ a, ∀ i < m.counts a, P a i := by
  induction hm with
  | start => exact fun a i hi => absurd hi (Nat.not_lt_zero i)
  | @fire m a reached owed enabled ih =>
    intro b i hi
    by_cases hbefore : i < m.counts b
    · exact ih b i hbefore
    · -- the last firing of the order
      obtain ⟨rfl, rfl⟩ : b = a ∧ i = m.counts a := by
        by_cases hb : b = a
        · subst hb
          simp only [fireOnce, Function.update_self] at hi
          exact ⟨rfl, by omega⟩
        · simp only [fireOnce, Function.update_of_ne hb] at hi
          exact absurd hi hbefore
      refine inherits b _ owed fun e he htarget j hj => ih e.source j ?_
      exact Nat.lt_of_lt_of_le hj (reached.demand_le enabled he (hp e he) htarget)

/-- From the firings of an order, precedences lead back only finitely often. -/
theorem Reaches.acc (hd : g.Orders d) {m : Marking} (hm : g.Reaches m) :
    ∀ a, ∀ i < m.counts a, Acc d.Joins (Expansion.firstInstance g a + i) := by
  refine hm.inherits hd.wellFormed.production_pos fun a i hi hneeded => ?_
  refine Acc.intro _ fun x hx => ?_
  obtain ⟨e, he, htarget, j, hj, rfl⟩ := hd.exists_sender hi hx
  exact hneeded e he htarget j hj

lemma Orders.wellFounded_joins (hd : g.Orders d)
    (hacc : ∀ a, ∀ i < g.repetitions a, Acc d.Joins (Expansion.firstInstance g a + i)) :
    WellFounded d.Joins := by
  refine ⟨fun x => Acc.intro x fun y hy => ?_⟩
  obtain ⟨a, i, hi, rfl⟩ := hd.exists_instance hy.lt_size.1
  exact hacc a i hi

lemma Orders.not_cyclic_of_completed (hd : g.Orders d) {s : Simulation g}
    (hs : g.simulation.run = .finished s) (hcompleted : s.phase = .completed) : ¬ d.Cyclic := by
  obtain ⟨m, hm, hcounts⟩ :=
    (Simulation.completed_iff_exists hd.wellFormed.consumption_pos hs).1 hcompleted
  refine not_cyclic_iff.2 (hd.wellFounded_joins fun a i hi => hm.acc hd a i ?_)
  rwa [hcounts a (lt_size_of_lt_repetitions hi)]

/-! ## Graphs without circuits -/

/-- In a run no firing is missing whose precedences lead back only finitely often. -/
theorem Orders.lt_firings (hd : g.Orders d) (hsupplied : g.Supplied) (hwf : WellFounded d.Joins)
    {s : Simulation g} (hs : g.simulation.run = .finished s) {a i : Nat}
    (hi : i < g.repetitions a) : i < s.ledger.firings a := by
  have hg := hd.wellFormed
  have hsound := Simulation.sound_run hg.consumption_pos hs
  obtain ⟨hinitial, hrunning⟩ := Simulation.ne_of_isFinal (Simulation.run_isFinal hs)
  generalize hx : Expansion.firstInstance g a + i = x
  induction x using hwf.induction generalizing a i with
  | _ x ih =>
    subst hx
    refine hsound.begun_of_fed hinitial hg hi fun e he htarget => ?_
    subst htarget
    rw [hsound.ended_eq hrunning]
    cases hdemand : e.demand (i + 1) with
    | zero => exact Nat.zero_le _
    | succ j =>
      obtain ⟨hsender, hjoins⟩ := hd.joins_last hsupplied he hi hdemand
      exact ih _ hjoins hsender rfl

/-! ## The outcome of a graph -/

/-- **Deadlocks are circuits.**  The precedences inside an iteration of a graph that completes it
have no circuit.  Those of a balanced graph that deadlocks have one. -/
theorem cyclic_iterationPrecedences {o : Outcome τ} (hd : g.iterationPrecedences = .ok d)
    (ho : g.schedule = .ok o) :
    (o.live = true → ¬ d.Cyclic) ∧ (g.Balanced → o.phase = .deadlocked → d.Cyclic) := by
  have hd := orders_of_iterationPrecedences hd
  obtain ⟨hg, s, hs, rfl⟩ := schedule_eq_ok.1 ho
  refine ⟨fun hlive => hd.not_cyclic_of_completed hs (beq_iff_eq.1 hlive), ?_⟩
  intro hbalanced hdeadlocked
  by_contra hacyclic
  have hsound := Simulation.sound_run hg.consumption_pos hs
  have hcompleted : s.phase = .completed := by
    refine (hsound.completed_iff (Simulation.run_isFinal hs)).2 fun a _ => ?_
    refine Nat.le_antisymm (hsound.consistent.firings_le a) (Nat.le_of_not_lt fun howed => ?_)
    have hmore := hd.lt_firings hbalanced.supplied (not_cyclic_iff.1 hacyclic) hs howed
    exact Nat.lt_irrefl _ hmore
  rw [show s.phase = .deadlocked from hdeadlocked] at hcompleted
  cases hcompleted

/-- The precedences of the handshake have a circuit or none, by the tokens on the edge back. -/
theorem handshake_circuits :
    (∃ d, (handshake 2).iterationPrecedences = .ok d ∧ ¬ d.Cyclic) ∧
      ∃ d, (handshake 1).iterationPrecedences = .ok d ∧ d.Cyclic := by
  constructor
  · obtain ⟨d, hd, _⟩ := exists_of_any_ok (x := (handshake 2).iterationPrecedences)
      (p := fun _ => true) (by cbv)
    obtain ⟨o, ho, hlive⟩ := exists_of_any_ok (x := (handshake 2).schedule)
      (p := Outcome.live) (by cbv)
    exact ⟨d, hd, (cyclic_iterationPrecedences hd ho).1 hlive⟩
  · obtain ⟨d, hd, _⟩ := exists_of_any_ok (x := (handshake 1).iterationPrecedences)
      (p := fun _ => true) (by cbv)
    obtain ⟨o, ho, hphase⟩ := exists_of_any_ok (x := (handshake 1).schedule)
      (p := fun o => o.phase == .deadlocked) (by cbv)
    have hbalanced := balanced_handshake 1
    exact ⟨d, hd, (cyclic_iterationPrecedences hd ho).2 hbalanced (beq_iff_eq.1 hphase)⟩

end Dataflow.Graph

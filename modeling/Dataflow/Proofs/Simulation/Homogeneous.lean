import Dataflow.Proofs.Expansion.Coalescing
import Dataflow.Proofs.Simulation.Units

/-!
# Simulating the homogeneous form

The homogeneous form of a single-rate graph is the graph with the tokens of every edge counted in
its rate.  So the two run in lockstep, and initial tokens that do not fill the rate of their edge
never matter.

* `Graph.inUnits_homogeneousForm` — the homogeneous form counts in rates.
* **`Graph.homogeneous_lockstep`** — the two simulations side by side, and their outcomes.
-/

namespace Dataflow

namespace Graph

variable {τ : Type} {g : Graph τ} [Clock τ]

/-- The rate of an edge of a single-rate graph. -/
def rate (g : Graph τ) (i : Nat) : Nat := (g.edges[i]?.map Edge.production).getD 1

/-- The homogeneous form counts the tokens of every edge in its rate. -/
theorem inUnits_homogeneousForm (hg : g.WellFormed)
    (hrates : ∀ e ∈ g.edges, e.production = e.consumption) (name : String) :
    g.InUnits g.rate (g.homogeneousForm name) where
  unit_pos i := by
    cases he : g.edges[i]? with
    | none => simp [rate, he]
    | some e => simpa [rate, he] using hg.production_pos e (Array.mem_of_getElem? he)
  actors_size := by
    simp [homogeneousForm, withOrigins, updateEdges, updateActors, rename]
  edges_size := by
    simp [homogeneousForm, withOrigins, updateEdges, updateActors, rename]
  actors a x y hx hy := by
    rw [getElem?_actors_homogeneousForm, hx, Option.map_some] at hy
    obtain rfl := Option.some.inj hy
    exact ⟨rfl, rfl, rfl, rfl⟩
  edges i e e' he he' := by
    have hrate : g.rate i = e.production := by simp [rate, he]
    rw [getElem?_edges_homogeneousForm, he, Option.map_some] at he'
    obtain rfl := Option.some.inj he'
    rw [hrate]
    exact
      { source := rfl
        target := rfl
        production := (Nat.mul_one _).symm
        consumption := (hrates e (Array.mem_of_getElem? he)).symm.trans (Nat.mul_one _).symm
        delay := rfl
        sourcePort := rfl
        targetPort := rfl }

/-- **Homogeneous lockstep.**  A single-rate graph has a homogeneous form, which can do every step
that the graph can do.  After any number of steps the two simulations are in the same phase, with
the same firings in flight and the same latest date; every actor has fired as often and last
started and finished at the same dates; and every edge of the homogeneous form holds the tokens of
the graph divided by the rate, rounded down.  So the two have the same outcome. -/
theorem homogeneous_lockstep (hg : g.validateSingleRate = .ok ()) :
    ∃ h, g.homogeneous = .ok h ∧
      (∀ n s, g.simulation.after n = .ok s → ∃ s', h.simulation.after n = .ok s' ∧
        s'.phase = s.phase ∧ s'.agenda = s.agenda ∧ s'.elapsed = s.elapsed ∧
        (∀ a, s'.ledger.firings a = s.ledger.firings a ∧
          s'.ledger.startDate a = s.ledger.startDate a ∧
          s'.ledger.finishDate a = s.ledger.finishDate a) ∧
        ∀ (i : Nat) (e : Edge), g.edges[i]? = some e →
          s'.ledger.tokens i = s.ledger.tokens i / e.production) ∧
      ∀ o, g.schedule = .ok o → h.schedule = .ok o := by
  have hform : g.homogeneous = .ok (g.homogeneousForm (g.name ++ "_HSDF")) := by
    rw [homogeneous, hg]
    rfl
  obtain ⟨hwell, hrates⟩ := validateSingleRate_eq_ok_iff.1 hg
  have hu := inUnits_homogeneousForm hwell hrates (g.name ++ "_HSDF")
  refine ⟨_, hform, ?_, fun _ ho => hu.schedule_eq ho⟩
  intro n s hs
  obtain ⟨s', hs', hagree⟩ := (Simulation.inUnits_simulation hu).after hu n hs
  refine ⟨s', hs', hagree.phase, hagree.agenda, hagree.elapsed, ?_, ?_⟩
  · exact fun a => ⟨hagree.ledger.firings a, hagree.ledger.starts a, hagree.ledger.finishes a⟩
  · intro i e he
    rw [hagree.ledger.tokens i, rate, he]
    rfl

/-- Two actors that fire twice, on edges whose initial tokens are no multiples of the rates. -/
def leftovers : Graph ℚ where
  name := "leftovers"
  actors := #[.atomic "X" 2 1, .atomic "Y" 2 3]
  edges := #[numberedEdge 0 0 0 1 3 3 4, numberedEdge 0 0 1 0 2 2 5]
  closed := by simp [numberedEdge]

/-- After three steps the second edge holds three tokens, one unit and a left over token, and an
iteration takes four units of time in both graphs. -/
theorem leftovers_lockstep :
    ∃ h s s', leftovers.homogeneous = .ok h ∧ leftovers.simulation.after 3 = .ok s ∧
      s.ledger.tokens 1 = 3 ∧ h.simulation.after 3 = .ok s' ∧ s'.ledger.tokens 1 = 1 ∧
      h.schedule = .ok ⟨4, .completed⟩ := by
  obtain ⟨h, hh, hsteps, hschedule⟩ := homogeneous_lockstep (g := leftovers) (by cbv)
  obtain ⟨s, hs, htokens⟩ := exists_of_any_ok (x := leftovers.simulation.after 3)
    (p := fun s => s.ledger.tokens 1 == 3) (by cbv)
  obtain ⟨o, ho, hfour⟩ := exists_of_any_ok (x := leftovers.schedule)
    (p := fun o => o == ⟨4, .completed⟩) (by cbv)
  obtain ⟨s', hs', _, _, _, _, hunits⟩ := hsteps 3 s hs
  have hthree : s.ledger.tokens 1 = 3 := by simpa using htokens
  refine ⟨h, s, s', hh, hs, hthree, hs', ?_, ?_⟩
  · rw [hunits 1 (numberedEdge 0 0 1 0 2 2 5) rfl, hthree]
    rfl
  · rw [hschedule o ho, eq_of_beq hfour]

end Graph

end Dataflow

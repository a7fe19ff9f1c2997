import Dataflow.Balance
import Dataflow.Proofs.Clock.Exact
import Dataflow.Proofs.Simulation.Accounts

/-!
# The states that a simulation visits

A simulation can be advanced one transition at a time and looked at in between.  What can be seen
then does not depend on the clock: dates may be added with rounding, or not be numbers at all.

* `Simulation.Visited` — the states that finished transitions lead to from the start.
* `Simulation.Visited.sound`, `Simulation.Visited.filled` — in each of them the books balance, and
  no batch of the agenda is empty.
* **`Simulation.visited_accounts`** — the books in full, and what is left of them at the end.
-/

namespace Dataflow

namespace Simulation

variable {τ : Type} {g : Graph τ} {s s' : Simulation g} [Clock τ]

/-- The states that finished transitions lead to from the start. -/
inductive Visited : Simulation g → Prop
  | start : Visited g.simulation
  | step {s s' : Simulation g} (visited : Visited s) (step : s.step.outcome = .ok s') : Visited s'

lemma visited_of_run (h : g.simulation.run.outcome = .ok s) : Visited s :=
  runFor_induction (P := Visited)
    (fun _ _ hs hstep => .step hs (Attempt.outcome_eq_ok.2 hstep)) (Attempt.outcome_eq_ok.1 h) .start

theorem Visited.sound (hc : ∀ e ∈ g.edges, 0 < e.consumption) (h : Visited s) : s.Sound := by
  induction h with
  | start => exact sound_simulation g
  | step _ hstep ih => exact sound_step hc ih (Attempt.outcome_eq_ok.1 hstep)

/-! ## Batches are never empty -/

lemma filled_fires {date : τ} {actors : List Nat} (hin : ∀ a ∈ actors, a < g.actors.size)
    (h : Attempt.each (fire date) actors s = .finished s')
    (hs : ∀ batch ∈ s.agenda, batch.Filled) : ∀ batch ∈ s'.agenda, batch.Filled := by
  refine Attempt.each_induction (P := fun m => ∀ batch ∈ m.agenda, batch.Filled) h ?_ hs
  intro a ha m m' hm hfire
  rcases fire_cases (hin a ha) hfire with ⟨_, rfl⟩ | ⟨hpos, hb⟩
  · exact hm
  · exact Agenda.filled_enter hpos hb.agenda hm

lemma filled_step (h : s.step = .finished s') (hs : ∀ batch ∈ s.agenda, batch.Filled) :
    ∀ batch ∈ s'.agenda, batch.Filled := by
  cases step_cases h with
  | begins initial fires =>
    rename_i m
    have hm : ∀ batch ∈ m.agenda, batch.Filled :=
      filled_fires (fun a ha => List.mem_range.1 ha) fires hs
    exact hm
  | completes running agenda delivers fires =>
    refine filled_fires downstream_lt fires ?_
    rw [delivers.agenda]
    rw [agenda] at hs
    exact (List.forall_mem_cons.1 hs).2
  | finishes running agenda => simpa using hs
  | rests final => exact hs

theorem Visited.filled (h : Visited s) : ∀ batch ∈ s.agenda, batch.Filled := by
  induction h with
  | start => simp [Graph.simulation]
  | step _ hstep ih => exact filled_step (Attempt.outcome_eq_ok.1 hstep) ih

/-! ## The books in full -/

omit [Clock τ] in
lemma Sound.tokens_eq_delay (hs : s.Sound) (hp : s.phase = .completed) {i : Nat} {e : Edge}
    (he : g.edges[i]? = some e) (hbalanced : e.Balances g.repetitions) :
    s.ledger.tokens i = e.delay := by
  obtain ⟨hsource, htarget⟩ := g.closed e (Array.mem_of_getElem? he)
  have hall := isComplete_iff.1 (hs.completed hp)
  have hq := hs.consistent.tokens_eq i e he
  rw [hs.ended_eq (by simp [hp]), hall _ hsource, hall _ htarget, hbalanced] at hq
  omega

/-- **The books of a simulation.**  In every state that is visited, no actor has begun more firings
than it owes in the iteration, or has more of them in flight than it has begun.  Every edge holds
its delay and what ended firings of its source have put in, less what the firings of its target
have taken out; the books balance without a negative entry.  No batch and no entry of a batch is
empty.  After the first transition no actor could fire, and after the last one nothing is in flight,
so that a completed iteration leaves the delay in every balanced edge. -/
theorem visited_accounts (hc : ∀ e ∈ g.edges, 0 < e.consumption) (hs : Visited s) :
    (∀ a, s.ledger.firings a ≤ g.repetitions a ∧
      Agenda.inFlight s.agenda a ≤ s.ledger.firings a) ∧
    (∀ i e, g.edges[i]? = some e →
      s.ledger.tokens i + e.consumption * s.ledger.firings e.target = e.delay +
        e.production * (s.ledger.firings e.source - Agenda.inFlight s.agenda e.source)) ∧
    (∀ batch ∈ s.agenda, batch.firings ≠ [] ∧ ∀ entry ∈ batch.firings, 1 ≤ entry.2) ∧
    (s.phase ≠ .initial → ∀ a, s.ledger.enabled a = 0) ∧
    (s.phase = .completed ∨ s.phase = .deadlocked → s.agenda = []) ∧
    (s.phase = .completed → ∀ i e, g.edges[i]? = some e → e.Balances g.repetitions →
      s.ledger.tokens i = e.delay) := by
  have hsound := hs.sound hc
  refine ⟨fun a => ⟨hsound.consistent.firings_le a, hsound.consistent.inFlight_le a⟩,
    hsound.consistent.tokens_eq, fun batch hmem => ?_, hsound.quiet, fun hp => hsound.idle ?_,
    fun hp i e he hbalanced => hsound.tokens_eq_delay hp he hbalanced⟩
  · have hfilled := hs.filled batch hmem
    exact ⟨hfilled.firings_ne_nil, hfilled.count_pos⟩
  · rcases hp with hp | hp <;> simp [hp]

/-- While the first firing of the pair's second actor is in flight, its tokens are missing in the
edge back; in the end the four tokens of that edge are there again. -/
theorem parallelPair_accounts :
    (∀ e ∈ (parallelPair 4 4).edges, 0 < e.consumption) ∧
    (∃ s : Simulation (parallelPair 4 4), Visited s ∧ Agenda.inFlight s.agenda 1 = 1 ∧
      s.ledger.tokens 2 + 3 * s.ledger.firings 0 = 4 + 2 * (s.ledger.firings 1 - 1) ∧
      ∀ a, s.ledger.enabled a = 0) ∧
    ∃ s : Simulation (parallelPair 4 4), Visited s ∧ s.phase = .completed ∧ s.agenda = [] ∧
      s.ledger.tokens 2 = 4 := by
  have hc : ∀ e ∈ (parallelPair 4 4).edges, 0 < e.consumption := by decide
  obtain ⟨m, hm, hflight⟩ := exists_of_any_ok
    (x := (parallelPair 4 4).simulation.step.outcome >>= fun s => s.step.outcome)
    (p := fun s => s.phase == .running && Agenda.inFlight s.agenda 1 == 1) (by cbv)
  obtain ⟨m', hm', hm⟩ := bind_eq_ok.1 hm
  simp only [Bool.and_eq_true, beq_iff_eq] at hflight
  have hvisited : Visited m := .step (.step .start hm') hm
  obtain ⟨s, hs, hphase⟩ := exists_of_any_ok (x := (parallelPair 4 4).simulation.run.outcome)
    (p := fun s => s.phase == .completed) (by cbv)
  rw [beq_iff_eq] at hphase
  obtain ⟨_, htokens, _, hquiet, _⟩ := visited_accounts hc hvisited
  obtain ⟨_, _, _, _, hidle, hback⟩ := visited_accounts hc (visited_of_run hs)
  refine ⟨hc, ⟨m, hvisited, hflight.2, ?_, hquiet (by simp [hflight.1])⟩, s, visited_of_run hs,
    hphase, hidle (Or.inl hphase), hback hphase 2 _ rfl rfl⟩
  have := htokens 2 _ rfl
  rwa [show (parallelPair 4 4).edges[2].source = 1 from rfl, hflight.2] at this

end Simulation

end Dataflow

import Dataflow.Proofs.Clock.Exact
import Dataflow.Proofs.Marking
import Dataflow.Proofs.Simulation.Accounts
import Mathlib.Order.Bounds.Basic

/-!
# Why a simulation ends where it does

A simulation begins firings in batches and at dates, and a graph can deadlock.  Neither the batches
nor the dates decide where it ends: its firing counts are the greatest that any order of single
firings reaches.

* `Simulation.Reached` — the counts of a simulation are those of some order of firings: what is
  taken out when firings begin is there for them one after another, and what they have not put in
  yet can only be missing.
* `Simulation.Sound.counts_le` — when a simulation has ended, no order of firings goes beyond it.
* **`Simulation.run_isGreatest`** — the two together, what they say about completion, and that
  durations do not matter.
-/

namespace Dataflow

namespace Simulation

variable {τ : Type} {g : Graph τ} {s s' : Simulation g}

/-! ## The counts of a simulation are reached by single firings -/

/-- The books balance, and the counts are those of some order of firings. -/
structure Reached (s : Simulation g) : Prop where
  consistent : s.Consistent
  reaches : ∃ m, g.Reaches m ∧ m.counts = s.ledger.firings

section Reached

variable [Clock τ]

lemma Begins.reached {date : τ} {a : Nat} (hc : ∀ e ∈ g.edges, 0 < e.consumption)
    (h : Begins date a (s.ledger.enabled a) s s') (hs : s.Reached) : s'.Reached := by
  obtain ⟨howed, henough⟩ := (Ledger.le_enabled_iff hc).1 (Nat.le_refl (s.ledger.enabled a))
  refine ⟨h.consistent hs.consistent howed, ?_⟩
  obtain ⟨m, hm, hcounts⟩ := hs.reaches
  have hquota : m.counts a + s.ledger.enabled a ≤ g.repetitions a := by
    have := hs.consistent.firings_le a
    rw [hcounts]
    omega
  obtain ⟨m', hm', hcounts'⟩ := hm.repeat hquota fun i e he ht => by
    -- firings that have not ended would only add tokens
    have hended : s.ended e.source ≤ s.ledger.firings e.source := Nat.sub_le _ _
    have hput := Nat.mul_le_mul_left e.production hended
    have hq := hs.consistent.tokens_eq i e he
    have htake := henough i e he ht
    rw [hcounts, Nat.mul_add, Nat.mul_comm e.consumption (s.ledger.enabled a)]
    rw [ht] at hq
    omega
  refine ⟨m', hm', ?_⟩
  rw [hcounts', hcounts]
  funext b
  rw [h.firings b, Function.update_apply]
  by_cases hb : b = a
  · simp [hb]
  · simp [hb]

lemma fires_reached {date : τ} {actors : List Nat} (hc : ∀ e ∈ g.edges, 0 < e.consumption)
    (hin : ∀ a ∈ actors, a < g.actors.size)
    (h : Attempt.each (fire date) actors s = .finished s') (hs : s.Reached) : s'.Reached := by
  refine Attempt.each_induction (P := Reached) h ?_ hs
  intro a ha m m' hm hfire
  rcases fire_cases (hin a ha) hfire with ⟨_, rfl⟩ | ⟨_, hb⟩
  · exact hm
  · exact hb.reached hc hm

lemma reached_simulation (g : Graph τ) : g.simulation.Reached where
  consistent := (sound_simulation g).consistent
  reaches := ⟨g.initialMarking, .start, funext fun a => (Ledger.firings_ledger g a).symm⟩

/-- A finished transition leads from counts that are reached to counts that are. -/
lemma reached_step (hc : ∀ e ∈ g.edges, 0 < e.consumption) (hs : s.Reached)
    (h : s.step = .finished s') : s'.Reached := by
  cases step_cases h with
  | begins initial fires =>
    have hm := fires_reached hc (fun a ha => List.mem_range.1 ha) fires hs
    exact ⟨hm.consistent.inPhase .running, hm.reaches⟩
  | completes running agenda delivers fires =>
    rename_i m batch rest
    refine fires_reached hc downstream_lt fires
      ⟨(delivers.consistent agenda hs.consistent).1, ?_⟩
    have hfirings : m.ledger.firings = s.ledger.firings := funext delivers.firings
    rw [hfirings]
    exact hs.reaches
  | finishes running agenda =>
    have hfirings : (finish s).ledger.firings = s.ledger.firings := funext (firings_finish s)
    exact ⟨hs.consistent.finish, hfirings ▸ hs.reaches⟩
  | rests final => exact hs

end Reached

/-! ## No order of firings goes further -/

/-- When nothing is in flight and no actor could fire, no order of firings goes beyond the
counts. -/
lemma Sound.counts_le (hc : ∀ e ∈ g.edges, 0 < e.consumption) (hs : s.Sound)
    (hi : s.phase ≠ .initial) (hr : s.phase ≠ .running) {m : Marking} (hm : g.Reaches m) (a : Nat) :
    m.counts a ≤ s.ledger.firings a := by
  refine hm.counts_le (fun b howed => ?_) a
  -- one more firing of `b` is owed but not enabled, so that some edge holds too little
  by_contra hnone
  push Not at hnone
  have hone : 1 ≤ s.ledger.enabled b := by
    refine (Ledger.le_enabled_iff hc).2 ⟨by omega, fun i e he ht => ?_⟩
    have hq := hs.consistent.tokens_eq i e he
    have hall := hnone i e he ht
    rw [hs.ended_eq hr, ht] at hq
    rw [Nat.mul_add] at hall
    omega
  have := hs.quiet hi b
  omega

end Simulation

/-! ## The end of a run -/

/-- The graph with other durations. -/
def Graph.withDurations {τ : Type} (g : Graph τ) (duration : Nat → τ) : Graph τ :=
  g.updateActors fun i a => { a with duration := duration i }

lemma Graph.repetitions_withDurations {τ : Type} (g : Graph τ) (duration : Nat → τ) (a : Nat) :
    (g.withDurations duration).repetitions a = g.repetitions a := by
  simp only [repetitions, withDurations, updateActors, Array.getElem?_mapIdx, Option.map_map]
  rfl

/-- Orders of firings do not depend on durations. -/
lemma Graph.reaches_withDurations {τ : Type} (g : Graph τ) (duration : Nat → τ) {m : Marking} :
    (g.withDurations duration).Reaches m ↔ g.Reaches m := by
  constructor
  · intro h
    induction h with
    | start => exact .start
    | fire _ owed enabled ih =>
      exact .fire ih (by rwa [repetitions_withDurations] at owed) enabled
  · intro h
    induction h with
    | start => exact .start
    | fire _ owed enabled ih =>
      exact .fire ih (by rwa [repetitions_withDurations]) enabled

namespace Simulation

variable {τ : Type} {g : Graph τ} {s : Simulation g}

variable [Clock τ]

/-- The firing counts at the end of a run are the greatest that any order of firings reaches. -/
lemma isGreatest_firings (hc : ∀ e ∈ g.edges, 0 < e.consumption)
    (hs : g.simulation.run = .finished s) :
    IsGreatest {n | ∃ m, g.Reaches m ∧ m.counts = n} s.ledger.firings := by
  have hreached : s.Reached := runFor_induction (P := Reached)
    (fun _ _ hm hstep => reached_step hc hm hstep) hs (reached_simulation g)
  refine ⟨hreached.reaches, ?_⟩
  rintro n ⟨m, hm, rfl⟩ a
  obtain ⟨hinitial, hrunning⟩ := ne_of_isFinal (run_isFinal hs)
  exact (sound_run hc hs).counts_le hc hinitial hrunning hm a

/-- At the end of a run the firing counts determine the tokens. -/
lemma tokens_eq_of_run (hc : ∀ e ∈ g.edges, 0 < e.consumption)
    (hs : g.simulation.run = .finished s) {i : Nat} {e : Edge} (he : g.edges[i]? = some e) :
    s.ledger.tokens i + e.consumption * s.ledger.firings e.target =
      e.delay + e.production * s.ledger.firings e.source := by
  have hsound := sound_run hc hs
  rw [hsound.consistent.tokens_eq i e he, hsound.ended_eq (ne_of_isFinal (run_isFinal hs)).2]

/-- An iteration is completed exactly when some order of firings completes it. -/
lemma completed_iff_exists (hc : ∀ e ∈ g.edges, 0 < e.consumption)
    (hs : g.simulation.run = .finished s) :
    s.phase = .completed ↔
      ∃ m, g.Reaches m ∧ ∀ a < g.actors.size, m.counts a = g.repetitions a := by
  have hsound := sound_run hc hs
  obtain ⟨⟨m, hm, hcounts⟩, hgreatest⟩ := isGreatest_firings hc hs
  rw [hsound.completed_iff (run_isFinal hs)]
  constructor
  · intro h
    exact ⟨m, hm, fun a ha => by rw [hcounts, h a ha]⟩
  · rintro ⟨m', hm', h⟩ a ha
    have hle : m'.counts a ≤ s.ledger.firings a := hgreatest ⟨m', hm', rfl⟩ a
    rw [h a ha] at hle
    exact Nat.le_antisymm (hsound.consistent.firings_le a) hle

/-- With other durations a run ends with the same counts and tokens. -/
lemma run_withDurations (hc : ∀ e ∈ g.edges, 0 < e.consumption)
    (hs : g.simulation.run = .finished s) {duration : Nat → τ}
    {s' : Simulation (g.withDurations duration)}
    (hs' : (g.withDurations duration).simulation.run = .finished s') :
    s'.ledger.firings = s.ledger.firings ∧ s'.ledger.tokens = s.ledger.tokens := by
  have hgreatest := isGreatest_firings (g := g.withDurations duration) hc hs'
  simp only [Graph.reaches_withDurations] at hgreatest
  have hfirings := hgreatest.unique (isGreatest_firings hc hs)
  refine ⟨hfirings, funext fun i => ?_⟩
  by_cases hi : i < g.edges.size
  · have he : g.edges[i]? = some g.edges[i] := Array.getElem?_eq_getElem hi
    have h := tokens_eq_of_run hc hs he
    have h' := tokens_eq_of_run (g := g.withDurations duration) hc hs' he
    rw [hfirings] at h'
    omega
  · have hsize : g.edges.size ≤ i := Nat.le_of_not_lt hi
    rw [Ledger.tokens_of_size_le hsize,
      Ledger.tokens_of_size_le (g := g.withDurations duration) hsize]

/-- **The verdict of a run.**  The firing counts at the end of a run are the greatest among those
of all orders of single firings, so the iteration is completed exactly when some order completes
it; and a run with other durations ends in the same phase, with the same counts and tokens. -/
theorem run_isGreatest (hg : g.WellFormed) (hs : g.simulation.run.outcome = .ok s) :
    IsGreatest {n | ∃ m, g.Reaches m ∧ m.counts = n} s.ledger.firings ∧
      (s.phase = .completed ∨ s.phase = .deadlocked) ∧
      (s.phase = .completed ↔
        ∃ m, g.Reaches m ∧ ∀ a < g.actors.size, m.counts a = g.repetitions a) ∧
      ∀ (duration : Nat → τ) (s' : Simulation (g.withDurations duration)),
        (g.withDurations duration).simulation.run.outcome = .ok s' →
          s'.phase = s.phase ∧ s'.ledger.firings = s.ledger.firings ∧
            s'.ledger.tokens = s.ledger.tokens := by
  have hc : ∀ e ∈ g.edges, 0 < e.consumption := fun e he =>
    (hg.edges_wellFormed e he).consumption_pos
  rw [Attempt.outcome_eq_ok] at hs
  have hphase := completed_or_deadlocked (run_isFinal hs)
  refine ⟨isGreatest_firings hc hs, hphase, completed_iff_exists hc hs, ?_⟩
  intro duration s' hs'
  rw [Attempt.outcome_eq_ok] at hs'
  refine ⟨?_, run_withDurations hc hs hs'⟩
  have hcompleted : s'.phase = .completed ↔ s.phase = .completed := by
    rw [completed_iff_exists hc hs, completed_iff_exists (g := g.withDurations duration) hc hs']
    simp only [Graph.reaches_withDurations, Graph.repetitions_withDurations]
    simp [Graph.withDurations, Graph.updateActors]
  rcases hphase with hp | hp
  · rw [hp, hcompleted.2 hp]
  · rcases completed_or_deadlocked (run_isFinal hs') with hp' | hp'
    · rw [hcompleted.1 hp'] at hp
      cases hp
    · rw [hp, hp']

/-- With one token on the second of the parallel edges the pair deadlocks, and so does every order
of its firings. -/
theorem parallelPair_deadlocks :
    (parallelPair 1 3).WellFormed ∧ ∃ s : Simulation (parallelPair 1 3),
      (parallelPair 1 3).simulation.run.outcome = .ok s ∧ s.phase = .deadlocked ∧
        IsGreatest {n | ∃ m, (parallelPair 1 3).Reaches m ∧ m.counts = n} s.ledger.firings ∧
        ¬ ∃ m, (parallelPair 1 3).Reaches m ∧
          ∀ a < (parallelPair 1 3).actors.size, m.counts a = (parallelPair 1 3).repetitions a := by
  have hg : (parallelPair 1 3).WellFormed := Graph.validate_eq_ok_iff.1 (by cbv)
  obtain ⟨s, hs, hp⟩ := exists_of_any_ok (x := (parallelPair 1 3).simulation.run.outcome)
    (p := fun s => s.phase == .deadlocked) (by cbv)
  have hphase : s.phase = .deadlocked := by simpa using hp
  obtain ⟨hgreatest, _, hcompleted, _⟩ := run_isGreatest hg hs
  refine ⟨hg, s, hs, hphase, hgreatest, fun h => ?_⟩
  rw [hcompleted.2 h] at hphase
  cases hphase

end Simulation

end Dataflow

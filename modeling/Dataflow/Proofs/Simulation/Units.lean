import Dataflow.Proofs.Ledger.Units
import Dataflow.Proofs.Simulation.Step

/-!
# Simulating in units

A graph and the same graph with its tokens counted in units run in lockstep: in every transition
the same firings end and the same firings begin, at the same dates.  Only the numbers of tokens
differ, and those of the second graph are those of the first in whole units.

The two simulations are not quite equivalent.  The numbers in the second graph are smaller, so that
it may go on where the first one leaves the range of the counters; this is why the first simulation
leads and the second one follows.

* `Simulation.InUnits` — two simulations that agree, when tokens are counted in units.
* **`Simulation.InUnits.step`** — where the first simulation can do a step, so can the second, and
  they still agree.
* `Simulation.after`, `Simulation.InUnits.after` — the same for any number of steps.
* **`Simulation.InUnits.run`**, **`Graph.InUnits.schedule_eq`** — the same for whole runs.
-/

namespace Dataflow

namespace Simulation

variable {τ : Type} [Clock τ] {unit : Nat → Nat} {g h : Graph τ} {s : Simulation g}
  {s' : Simulation h}

/-- The simulations agree, when the tokens of the second are units. -/
structure InUnits (unit : Nat → Nat) (s : Simulation g) (s' : Simulation h) : Prop where
  ledger : Ledger.InUnits unit s.ledger s'.ledger
  agenda : s'.agenda = s.agenda
  elapsed : s'.elapsed = s.elapsed
  phase : s'.phase = s.phase

/-- The simulation after some steps, if none of them fails. -/
def after : Nat → Simulation g → Except (Failure τ) (Simulation g)
  | 0, s => .ok s
  | n + 1, s => s.step.outcome >>= after n

lemma inUnits_simulation (hu : g.InUnits unit h) : InUnits unit g.simulation h.simulation :=
  ⟨Ledger.inUnits_ledger hu, rfl, rfl, rfl⟩

namespace InUnits

/-! ## The parts of a step -/

lemma onLedger {f : Ledger g → Attempt τ (Ledger g)} {f' : Ledger h → Attempt τ (Ledger h)}
    (hf : ∀ l l', Ledger.InUnits unit l l' → Attempt.Follows (Ledger.InUnits unit) (f l) (f' l'))
    (hs : InUnits unit s s') :
    Attempt.Follows (InUnits unit) (onLedger f s) (onLedger f' s') := by
  rw [Simulation.onLedger, Simulation.onLedger]
  refine (hf _ _ hs.ledger).map ?_
  exact fun _ _ hl => ⟨hl, hs.agenda, hs.elapsed, hs.phase⟩

lemma launch (hu : g.InUnits unit h) (hs : InUnits unit s s') (a n : Nat) (date : τ) :
    Attempt.Follows (InUnits unit) (launch a n date s) (launch a n date s') := by
  intro m hm
  rw [Simulation.launch] at hm ⊢
  rw [hu.duration_eq, hs.agenda, hs.elapsed, hs.phase]
  split at hm
  case h_2 => simp at hm
  case h_1 =>
    obtain rfl := Attempt.finished_inj.1 hm
    exact ⟨_, rfl, (hs.ledger.setStart hu a date).setFinish hu a _, rfl, rfl, rfl⟩

/-- The same firings are enabled, and begin. -/
lemma fire (hu : g.InUnits unit h) (hs : InUnits unit s s') (date : τ) (a : Nat) :
    Attempt.Follows (InUnits unit) (fire date a s) (fire date a s') := by
  rw [Simulation.fire, Simulation.fire, hs.ledger.enabled_eq hu]
  cases s.ledger.enabled a with
  | zero => exact .finished hs
  | succ n =>
    refine (onLedger (fun _ _ hl => hl.consume hu a (n + 1)) hs).andThen ?_
    exact fun _ _ hm => hm.launch hu a (n + 1) date

lemma deliver (hu : g.InUnits unit h) (hs : InUnits unit s s') (entry : Nat × Nat) :
    Attempt.Follows (InUnits unit) (deliver entry s) (deliver entry s') :=
  onLedger (fun _ _ hl => hl.produce hu entry.1 entry.2) hs

lemma begin (hu : g.InUnits unit h) (hs : InUnits unit s s') :
    Attempt.Follows (InUnits unit) (begin s) (begin s') := by
  rw [Simulation.begin, Simulation.begin, hu.actors_size]
  refine (Attempt.Follows.each (fun a _ _ hm => hm.fire hu Clock.zero a) _ hs).andThen ?_
  intro m m' hm
  exact .finished ⟨hm.ledger, hm.agenda, hm.elapsed, rfl⟩

/-- The same firings end, and the same actors are downstream of them. -/
lemma complete (hu : g.InUnits unit h) (hs : InUnits unit s s') (date : τ)
    (firings : List (Nat × Nat)) :
    Attempt.Follows (InUnits unit) (complete date firings s) (complete date firings s') := by
  rw [Simulation.complete, Simulation.complete,
    Ledger.InUnits.downstream_eq hu s.ledger s'.ledger, hs.agenda, hs.elapsed, hs.phase]
  refine (Attempt.Follows.each (fun entry _ _ hm => hm.deliver hu entry) _ ?_).andThen ?_
  · exact ⟨hs.ledger.note _ _, rfl, rfl, rfl⟩
  · exact fun _ _ hm => .each (fun a _ _ hm => hm.fire hu date a) _ hm

lemma finish (hu : g.InUnits unit h) (hs : InUnits unit s s') :
    InUnits unit (finish s) (finish s') := by
  rw [Simulation.finish, Simulation.finish, hs.ledger.isComplete_eq hu]
  split
  · exact ⟨hs.ledger, hs.agenda, hs.elapsed, rfl⟩
  · exact ⟨hs.ledger.note _ _, hs.agenda, hs.elapsed, rfl⟩

/-! ## Steps and runs -/

/-- **Lockstep.**  Where the first simulation can do a step the second one can, and they still
agree. -/
theorem step (hu : g.InUnits unit h) (hs : InUnits unit s s') :
    Attempt.Follows (InUnits unit) s.step s'.step := by
  obtain ⟨ledger, agenda, elapsed, phase⟩ := s
  obtain ⟨ledger', agenda', elapsed', phase'⟩ := s'
  obtain ⟨hledger, hagenda, helapsed, hphase⟩ := hs
  obtain rfl : agenda' = agenda := hagenda
  obtain rfl : elapsed' = elapsed := helapsed
  obtain rfl : phase' = phase := hphase
  cases phase' with
  | initial => exact begin hu ⟨hledger, rfl, rfl, rfl⟩
  | running =>
    cases agenda' with
    | nil => exact .finished (finish hu ⟨hledger, rfl, rfl, rfl⟩)
    | cons batch rest =>
      have hrest : InUnits unit (⟨ledger, rest, elapsed', .running⟩ : Simulation g)
          ⟨ledger', rest, elapsed', .running⟩ := ⟨hledger, rfl, rfl, rfl⟩
      exact hrest.complete hu batch.date batch.firings.reverse
  | completed => exact .finished ⟨hledger, rfl, rfl, rfl⟩
  | deadlocked => exact .finished ⟨hledger, rfl, rfl, rfl⟩

/-- The second simulation follows the first one for any number of steps. -/
theorem after (hu : g.InUnits unit h) : ∀ (n : Nat) {s m : Simulation g} {s' : Simulation h},
    InUnits unit s s' → after n s = .ok m → ∃ m', after n s' = .ok m' ∧ InUnits unit m m'
  | 0, s, m, s', hs, hm => by
      rw [Simulation.after, Except.ok.injEq] at hm
      exact ⟨s', rfl, hm ▸ hs⟩
  | n + 1, s, m, s', hs, hm => by
      rw [Simulation.after, bind_eq_ok] at hm
      obtain ⟨next, hnext, hrest⟩ := hm
      obtain ⟨next', hnext', hagree⟩ := hs.step hu next (Attempt.outcome_eq_ok.1 hnext)
      obtain ⟨m', hm', hrelated⟩ := after hu n hagree hrest
      refine ⟨m', ?_, hrelated⟩
      rw [Simulation.after, bind_eq_ok]
      exact ⟨next', Attempt.outcome_eq_ok.2 hnext', hm'⟩

lemma runFor (hu : g.InUnits unit h) : ∀ (steps : Nat) {s : Simulation g} {s' : Simulation h},
    InUnits unit s s' → Attempt.Follows (InUnits unit) (runFor steps s) (runFor steps s')
  | 0, s, s', hs => .finished hs
  | steps + 1, s, s', hs => by
      rw [Simulation.runFor, Simulation.runFor, hs.phase]
      split
      · exact .finished hs
      · exact (hs.step hu).andThen fun _ _ hm => runFor hu steps hm

/-- The second simulation follows the first one to its end. -/
theorem run (hu : g.InUnits unit h) (hs : InUnits unit s s') :
    Attempt.Follows (InUnits unit) s.run s'.run := by
  rw [Simulation.run, Simulation.run, hs.ledger.owed_eq hu, hs.agenda]
  exact hs.runFor hu _

end InUnits

end Simulation

/-- The outcome of a graph does not change when its tokens are counted in units. -/
theorem Graph.InUnits.schedule_eq {τ : Type} [Clock τ] {unit : Nat → Nat} {g h : Graph τ}
    (hu : g.InUnits unit h) {o : Outcome τ} (ho : g.schedule = .ok o) : h.schedule = .ok o := by
  obtain ⟨hg, s, hrun, rfl⟩ := schedule_eq_ok.1 ho
  obtain ⟨s', hrun', hs⟩ := (Simulation.inUnits_simulation hu).run hu s hrun
  refine schedule_eq_ok.2 ⟨hu.wellFormed hg, s', hrun', ?_⟩
  rw [Simulation.outcome, Simulation.outcome, hs.elapsed, hs.phase]

end Dataflow

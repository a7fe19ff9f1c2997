import Dataflow.Graph.WellFormed
import Dataflow.Ledger
import Dataflow.Simulation.Agenda

/-!
# Simulating an iteration as soon as possible

In a self-timed execution every actor fires as soon as its edges hold enough tokens.  A simulation
follows one iteration of it.  First all firings that are enabled at the start begin.  Then, again
and again, the earliest batch of the agenda ends: its actors produce their tokens, and after that
the actors downstream of them begin every firing that has become enabled.  When nothing is in
flight any more, the iteration is complete or the graph is deadlocked.

* `Simulation` — the ledger, the agenda, the latest date so far and the phase.
* `Simulation.step` — one transition; what it did stays when it fails half-way.
* `Simulation.run` — steps until the end; the firings that are owed or in flight bound their number.
* **`Graph.schedule`** — the outcome of a well-formed graph.
-/

namespace Dataflow

/-- How far a simulation has come. -/
inductive Phase where
  /-- Nothing has begun. -/
  | initial
  /-- Firings end and others begin. -/
  | running
  /-- Every actor has fired as often as it has to. -/
  | completed
  /-- No firing is in flight and some actor owes firings. -/
  | deadlocked
  deriving DecidableEq, Repr

/-- Has a simulation in this phase ended? -/
def Phase.isFinal : Phase → Bool
  | .completed | .deadlocked => true
  | .initial | .running => false

/-- What a simulation has found out. -/
structure Outcome (τ : Type) where
  /-- The latest date at which firings ended. -/
  duration : τ
  phase : Phase
  deriving DecidableEq, Repr

namespace Outcome

variable {τ : Type}

/-- Was the iteration completed? -/
def live (o : Outcome τ) : Bool := o.phase == .completed

/-- The iterations per unit of time. -/
def throughput [Clock τ] (o : Outcome τ) : Throughput τ := .ofDuration o.duration

end Outcome

/-- The state of a simulation. -/
structure Simulation {τ : Type} (g : Graph τ) where
  ledger : Ledger g
  agenda : Agenda τ
  /-- The latest date at which firings ended. -/
  elapsed : τ
  phase : Phase

/-- The simulation of a graph before its first step. -/
def Graph.simulation {τ : Type} [Clock τ] (g : Graph τ) : Simulation g :=
  ⟨g.ledger, [], Clock.zero, .initial⟩

namespace Simulation

variable {τ : Type} {g : Graph τ}

/-- What the simulation has found out so far. -/
def outcome (s : Simulation g) : Outcome τ := ⟨s.elapsed, s.phase⟩

/-- The same simulation with an empty journal. -/
def recording (threshold : Level) (s : Simulation g) : Simulation g :=
  { s with ledger := s.ledger.recording threshold }

/-- The events that the journal has kept. -/
def events (s : Simulation g) : List (Event τ) := s.ledger.journal.events

/-- An operation on the ledger alone. -/
@[inline]
def onLedger (f : Ledger g → Attempt τ (Ledger g)) : Simulation g → Attempt τ (Simulation g)
  | ⟨ledger, agenda, elapsed, phase⟩ => (f ledger).map (⟨·, agenda, elapsed, phase⟩)

/-- The same simulation in another phase. -/
def inPhase (phase : Phase) (s : Simulation g) : Simulation g := { s with phase := phase }

variable [Clock τ]

/-- Puts firings of an actor that begin at a date into the agenda. -/
def launch (a n : Nat) (date : τ) : Simulation g → Attempt τ (Simulation g)
  | ⟨ledger, agenda, elapsed, phase⟩ =>
    let finish := Clock.add date (g.duration a)
    let ledger := (ledger.setStart a date).setFinish a finish
    match agenda.enter finish a n with
    | .ok agenda => .finished ⟨ledger, agenda, elapsed, phase⟩
    | .error error => .stopped ⟨ledger, agenda, elapsed, phase⟩ (.range error)

/-- Begins every firing of an actor that is enabled at a date. -/
def fire (date : τ) (a : Nat) (s : Simulation g) : Attempt τ (Simulation g) :=
  match s.ledger.enabled a with
  | 0 => .finished s
  | n + 1 => (onLedger (Ledger.consume a (n + 1)) s).andThen (launch a (n + 1) date)

/-- Puts the tokens of firings that end into the edges. -/
def deliver (entry : Nat × Nat) (s : Simulation g) : Attempt τ (Simulation g) :=
  onLedger (Ledger.produce entry.1 entry.2) s

/-- Ends firings at a date, and begins what their tokens enable. -/
def complete (date : τ) (firings : List (Nat × Nat)) :
    Simulation g → Attempt τ (Simulation g)
  | ⟨ledger, agenda, elapsed, phase⟩ =>
    let names := firings.map fun (a, n) => (g.actorName a, n)
    let downstream := ledger.downstream (firings.map Prod.fst)
    let start := ⟨ledger.note (.completing date names), agenda, Clock.latest elapsed date, phase⟩
    (Attempt.each deliver firings start).andThen (Attempt.each (fire date) downstream)

/-- Ends the simulation when nothing is in flight. -/
def finish : Simulation g → Simulation g
  | ⟨ledger, agenda, elapsed, _⟩ =>
    if ledger.isComplete then ⟨ledger, agenda, elapsed, .completed⟩
    else
      let waiting := ledger.pending.map fun a => (g.actorName a, ledger.firings a, g.repetitions a)
      ⟨ledger.note (.deadlocked g.name elapsed waiting), agenda, elapsed, .deadlocked⟩

/-- Begins the firings that are enabled at the start. -/
def begin (s : Simulation g) : Attempt τ (Simulation g) :=
  (Attempt.each (fire Clock.zero) (List.range g.actors.size) s).andThen fun s =>
    .finished (s.inPhase .running)

/-- One transition: begin the first firings, end the earliest batch, or end the simulation. -/
def step : Simulation g → Attempt τ (Simulation g)
  | ⟨ledger, agenda, elapsed, phase⟩ =>
    match phase, agenda with
    | .initial, agenda => begin ⟨ledger, agenda, elapsed, .initial⟩
    | .running, [] => .finished (finish ⟨ledger, [], elapsed, .running⟩)
    | .running, batch :: agenda =>
      complete batch.date batch.firings.reverse ⟨ledger, agenda, elapsed, .running⟩
    | phase, agenda => .finished ⟨ledger, agenda, elapsed, phase⟩

/-- At most `steps` transitions, until the simulation ends or fails. -/
def runFor : Nat → Simulation g → Attempt τ (Simulation g)
  | 0, s => .finished s
  | steps + 1, s => if s.phase.isFinal then .finished s else s.step.andThen (runFor steps)

/-- Runs the simulation to its end.  Every step but the first and the last ends a batch, and every
batch either is in the agenda now or begins with a firing that is owed now. -/
def run (s : Simulation g) : Attempt τ (Simulation g) :=
  runFor (s.ledger.owed + s.agenda.length + 2) s

end Simulation

namespace Graph

variable {τ : Type} [Clock τ]

/-- The outcome of one iteration of a well-formed graph. -/
def schedule (g : Graph τ) : Except (Failure τ) (Outcome τ) := do
  g.validate
  let final ← g.simulation.run.outcome
  return final.outcome

/-- What is reported while a graph is scheduled, as far as a threshold lets it through. -/
def scheduleEvents (g : Graph τ) (threshold : Level) : List (Event τ) :=
  match g.validate with
  | .ok _ => (g.simulation.recording threshold).run.state.events
  | .error _ => []

end Graph

end Dataflow

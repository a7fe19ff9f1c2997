import Dataflow.Evaluation.Settings
import Dataflow.Expansion
import Dataflow.Hierarchy.Containment
import Dataflow.Simulation

/-!
# Evaluating a design

The throughput of a design is the throughput of its top graph, whose actors already have their
durations.  It is found by simulating one iteration of the graph or of its single-rate expansion.

* `Evaluation` — what an evaluation finds.
* **`Design.evaluate`** — the evaluation of a design under given settings.
-/

namespace Dataflow

/-- What an evaluation finds. -/
structure Evaluation (τ : Type) where
  /-- The name of the evaluated graph. -/
  graph : String
  method : Method
  outcome : Outcome τ
  deriving DecidableEq, Repr

namespace Evaluation

variable {τ : Type}

/-- The event that ends an evaluation. -/
def event [Clock τ] (e : Evaluation τ) : Event τ :=
  if e.outcome.live then .evaluated e.graph e.method e.outcome.throughput
  else .notLive e.graph e.method e.outcome.duration

end Evaluation

/-- The graph that a method simulates in place of a graph. -/
def Method.simulated {τ : Type} [Clock τ] (method : Method) (g : Graph τ) :
    Except (Failure τ) (Graph τ) :=
  match method with
  | .asSoonAsPossible => .ok g
  | .singleRate => g.expand .runs

/-- What is reported until a method has its graph. -/
def Method.simulatedEvents {τ : Type} [Clock τ] (method : Method) (g : Graph τ) : List (Event τ) :=
  match method with
  | .asSoonAsPossible => []
  | .singleRate => g.expandEvents .runs

namespace Design

variable {τ : Type} [Clock τ]

/-- The check of a design that its settings ask for. -/
def checkFor (d : Design τ) (settings : Settings τ) : Except (Failure τ) Unit :=
  if settings.checked then d.validate else .ok ()

/-- The graph that is evaluated: the top graph of a design that passes the check. -/
def evaluated (d : Design τ) (settings : Settings τ) : Except (Failure τ) (Graph τ) := do
  d.checkFor settings
  match d.topGraph? with
  | some g => return g
  | none => throw (.malformed (.missingGraph d.top))

/-- Evaluates the top graph of a design. -/
def evaluate (d : Design τ) (settings : Settings τ) : Except (Failure τ) (Evaluation τ) := do
  let g ← d.evaluated settings
  let simulated ← settings.method.simulated g
  let outcome ← simulated.schedule
  return ⟨g.name, settings.method, outcome⟩

/-- What is reported while a design is evaluated, as far as a threshold lets it through. -/
def evaluateEvents (d : Design τ) (settings : Settings τ) (threshold : Level) : List (Event τ) :=
  match d.evaluated settings with
  | .error _ => []
  | .ok g =>
    settings.method.simulatedEvents g
      ++ (match settings.method.simulated g with
        | .error _ => []
        | .ok simulated => simulated.scheduleEvents threshold)
      ++ (match d.evaluate settings with
        | .error _ => []
        | .ok evaluation => [evaluation.event])

end Design

end Dataflow

import Dataflow.Attempt
import Dataflow.Decimal.Binary64
import Dataflow.Graph.WellFormed
import Dataflow.Journal

/-!
# Normalization

The *period* of a graph is the least common multiple of its repetition counts.  The normalized
rate of an actor is the period divided by its own count, and the factor of an edge is the period
over the tokens that an iteration takes out of it.

* `Graph.period` — the least common multiple of the repetition counts.
* `Graph.annotate` — annotates a well-formed graph in place; nothing is written before everything is
  known.
* **`Graph.normalize`** — the annotated graph.
* `Graph.normalizedRates` — the annotated rates by the names of the actors.
-/

namespace Dataflow

namespace Fraction

/-- The quotient of the doubles nearest to the numerator and the denominator. -/
def toFloat (f : Fraction) : Float :=
  Binary64.nearestFloat f.num 1 / Binary64.nearestFloat f.den 1

end Fraction

namespace Graph

variable {τ : Type}

/-- The least common multiple of the repetition counts. -/
def period (g : Graph τ) : Except RangeError Nat :=
  Counter.lcmAll (g.actors.toList.map Actor.repetitions)

/-- The tokens that an iteration takes out of each edge. -/
def consumed (g : Graph τ) : Except RangeError (Array Nat) :=
  g.edges.mapM fun e =>
    Counter.mul "tokens consumed per iteration" e.consumption (g.repetitions e.target)

/-- The graph with the rates and factors for a period. -/
def annotated (g : Graph τ) (period : Nat) (consumed : Array Nat) : Graph τ :=
  (g.updateActors fun _ a => { a with normalizedRate := some (period / a.repetitions) }).updateEdges
    fun i e => { e with factor := (consumed[i]?).map fun tokens => ⟨period, tokens⟩ }

variable [Clock τ]

/-- The period of a well-formed graph and the tokens that an iteration takes out of each edge. -/
def normalization (g : Graph τ) : Except (Failure τ) (Nat × Array Nat) := do
  g.validate
  let period ← g.period.mapError .range
  let consumed ← g.consumed.mapError .range
  return (period, consumed)

/-- Writes the normalized rates and factors into a graph; a refused call leaves the graph as it
is. -/
def annotate (g : Graph τ) : Attempt τ (Graph τ) :=
  match g.normalization with
  | .ok (period, consumed) => .finished (g.annotated period consumed)
  | .error failure => .stopped g failure

/-- The graph with its normalized rates and factors. -/
def normalize (g : Graph τ) : Except (Failure τ) (Graph τ) := g.annotate.outcome

/-- What is reported while a graph is normalized. -/
def normalizeEvents (g : Graph τ) : List (Event τ) :=
  match g.validate, g.period with
  | .ok _, .ok period => [.normalized g.name period]
  | _, _ => []

omit [Clock τ] in
/-- The normalized rates of the actors that have one, by name. -/
def normalizedRates (g : Graph τ) : List (String × Nat) :=
  g.actors.toList.filterMap fun a => a.normalizedRate.map fun rate => (a.name, rate)

end Graph

end Dataflow

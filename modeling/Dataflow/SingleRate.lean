import Dataflow.Expansion

/-!
# Single-rate graphs

In a single-rate graph every edge has one rate for both ends.  Such a graph has two simpler forms
with the same actors: a homogeneous one, in which an edge of rate `m` with `d` initial tokens
becomes an edge of rate one with `d / m` of them, and the precedences inside one iteration, which
are the edges without initial tokens.

* `Graph.multiRateEdge?` — the first edge that is not single-rate.
* `Graph.homogeneous`, `Graph.precedences` — the two forms of a well-formed single-rate graph.
* **`Graph.reduced`**, **`Graph.iterationPrecedences`** — the same forms of any well-formed graph,
  reached through its single-rate expansion.
-/

namespace Dataflow

/-- Has the edge one rate for both ends? -/
def Edge.isSingleRate (e : Edge) : Bool := e.production == e.consumption

/-- The edge of rate one that holds initial tokens for as many iterations. -/
def Edge.homogeneous (e : Edge) : Edge :=
  { e with delay := e.delay / e.production, production := 1, consumption := 1 }

namespace Graph

variable {τ : Type}

/-- The first edge that is not single-rate. -/
def multiRateEdge? (g : Graph τ) : Option Edge := g.edges.find? fun e => !e.isSingleRate

/-- The graph whose actors and edges remember where they come from: those that do not yet point to
themselves. -/
def withOrigins (g : Graph τ) : Graph τ :=
  (g.updateActors fun i a => { a with base := some (a.base.getD i) }).updateEdges fun i e =>
    { e with base := some (e.base.getD i) }

variable [Clock τ]

/-- Refuses a graph that is not well-formed or not single-rate. -/
def validateSingleRate (g : Graph τ) : Except (Failure τ) Unit := do
  g.validate
  match g.multiRateEdge? with
  | some e =>
    throw (.malformed (.multiRate g.name (g.actorName e.source) (g.actorName e.target)
      e.production e.consumption))
  | none => return ()

/-- The homogeneous form of a single-rate graph. -/
def homogeneous (g : Graph τ) : Except (Failure τ) (Graph τ) := do
  g.validateSingleRate
  return (g.withOrigins.updateEdges fun _ e => e.homogeneous).rename (g.name ++ "_HSDF")

/-- The precedences inside one iteration of a single-rate graph. -/
def precedences (g : Graph τ) : Except (Failure τ) (Graph τ) := do
  g.validateSingleRate
  return g.withOrigins.filterEdges (g.name ++ "_DAG") fun e => !e.hasDelay

/-- What is reported while the precedences of a single-rate graph are taken. -/
def precedencesEvents (g : Graph τ) : List (Event τ) :=
  match g.precedences with
  | .ok p => [.dropped p.name (g.edges.size - p.edges.size)]
  | .error _ => []

/-- The homogeneous form of the single-rate expansion of a graph. -/
def reduced (g : Graph τ) : Except (Failure τ) (Graph τ) := do
  let expansion ← g.expand .runs
  let form ← expansion.homogeneous
  return form.rename (g.name ++ "_HSDF")

/-- The precedences inside one iteration of the single-rate expansion of a graph. -/
def iterationPrecedences (g : Graph τ) : Except (Failure τ) (Graph τ) := do
  let expansion ← g.expand .runs
  let form ← expansion.precedences
  return form.rename (g.name ++ "_DAG")

/-- What is reported while the precedences inside one iteration are found. -/
def iterationPrecedencesEvents (g : Graph τ) : List (Event τ) :=
  g.expandEvents .runs ++
    match g.expand .runs with
    | .ok expansion => expansion.precedencesEvents
    | .error _ => []

end Graph

end Dataflow

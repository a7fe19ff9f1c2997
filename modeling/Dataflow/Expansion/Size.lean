import Dataflow.Graph.Basic

/-!
# The size of an expansion

An expansion has one actor for every firing of an iteration.  Before it is built, its actors are
counted and its edges are bounded, and both numbers have to fit the numbering of a graph.

* `Grouping` — how the tokens of an edge are grouped into edges of the expansion.
* `Expansion.size` — the number of actors and what is allowed for edges, which is exact when every
  token gets an edge of its own.
-/

namespace Dataflow

/-- How the tokens of an edge are grouped into edges of an expansion. -/
inductive Grouping where
  /-- Every token gets an edge of its own. -/
  | single
  /-- Consecutive tokens between the same two firings share an edge. -/
  | runs
  deriving DecidableEq, Repr

/-- What is appended to the name of an expanded graph. -/
def Grouping.mark : Grouping → String
  | .single => "_HSDF"
  | .runs => "_srSDF"

namespace Expansion

variable {τ : Type}

/-- The greatest number of actors or edges of an expansion. -/
def capacity : Nat := 1 <<< 32 - 1

/-- The number of actors of an expansion. -/
def actorCount (g : Graph τ) : Except RangeError Nat :=
  g.actors.foldlM (fun n a => Counter.add "actor instances" n a.repetitions) 0

/-- A bound on the number of edges that an edge expands to, if it brings no more tokens than its
target takes.  A run of tokens ends where the firing of the source or of the target changes, so that
there are then no more runs than firings of the two. -/
def edgeBound (g : Graph τ) (grouping : Grouping) (e : Edge) : Except RangeError Nat := do
  let tokens ← Counter.mul "tokens per iteration" e.production (g.repetitions e.source)
  match grouping with
  | .single => return tokens
  | .runs =>
    let firings ← Counter.add "expanded edges" (g.repetitions e.source) (g.repetitions e.target)
    return min tokens firings

/-- What is allowed for the edges of an expansion: the bounds of all edges together. -/
def edgeCount (g : Graph τ) (grouping : Grouping) : Except RangeError Nat :=
  g.edges.foldlM (fun n e => do
    let bound ← edgeBound g grouping e
    Counter.add "expanded edges" n bound) 0

/-- The number of actors of an expansion and what is allowed for its edges. -/
def size (g : Graph τ) (grouping : Grouping) : Except (Failure τ) (Nat × Nat) := do
  let actors ← (actorCount g).mapError .range
  let edges ← (edgeCount g grouping).mapError .range
  if capacity < actors then throw (.oversized g.name actors "actor instances")
  else if capacity < edges then throw (.oversized g.name edges "edges")
  else return (actors, edges)

end Expansion

end Dataflow

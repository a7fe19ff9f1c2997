import Dataflow.Graph.Basic

/-!
# Graphs as DOT text

The text of a graph in the DOT language: one line for the head, one for each actor, one for each
edge and one for the end.  Names are copied into their quotation marks as they are.

* `Dot.actor`, `Dot.edge` — the attributes of an actor and of an edge.
* **`Graph.dot`** — the text of a graph.
-/

namespace Dataflow

namespace Dot

/-- The shape that shows what an actor stands for. -/
def shape : ActorKind → String
  | .atomic => "box"
  | .hierarchical _ => "box3d"
  | .interface _ => "ellipse"

/-- The label and the shape of an actor. -/
def actor {τ : Type} [Clock τ] (a : Actor τ) : String :=
  s!"label=\"{a.name} x{a.repetitions} [" ++ Clock.text a.duration ++ "]\", shape=" ++ shape a.kind

/-- The label of an edge: its rates, and its delay if there is one. -/
def edge (e : Edge) : String :=
  if e.hasDelay then s!"label=\"{e.production}/{e.consumption} ({e.delay})\""
  else s!"label=\"{e.production}/{e.consumption}\""

end Dot

/-- The text of a graph in the DOT language. -/
def Graph.dot {τ : Type} [Clock τ] (g : Graph τ) : String :=
  let actors := g.actors.mapIdx fun i a => s!"  n{i} [" ++ Dot.actor a ++ "];\n"
  let edges := g.edges.map fun e => s!"  n{e.source} -> n{e.target} [" ++ Dot.edge e ++ "];\n"
  s!"digraph \"{g.name}\" \x7b\n" ++ String.join actors.toList ++ String.join edges.toList
    ++ "\x7d\n"

end Dataflow

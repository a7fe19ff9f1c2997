import Dataflow.Graph.Dot

/-!
# Hierarchical designs

A design holds graphs, one of them on top.  A hierarchical actor of a graph stands for a graph of
the design, which is given by its number; several actors may stand for the same graph.

* `Design` — the graphs, numbered in the order of insertion, and the number of the top graph.
* `Design.children` — the hierarchical actors of a graph with the graphs that they stand for.
* `Design.dot` — the texts of all graphs, the top graph first.
-/

namespace Dataflow

/-- A hierarchical design. -/
structure Design (τ : Type) where
  graphs : Array (Graph τ)
  /-- The number of the top graph, which may be chosen before that graph is there. -/
  top : Nat

namespace Design

variable {τ : Type}

/-! ## Building a design -/

/-- The design of a single graph. -/
def ofGraph (g : Graph τ) : Design τ := ⟨#[g], 0⟩

/-- The design with one more graph. -/
def addGraph (d : Design τ) (g : Graph τ) : Design τ := ⟨d.graphs.push g, d.top⟩

/-- The design with another graph on top. -/
def withTop (d : Design τ) (x : Nat) : Design τ := ⟨d.graphs, x⟩

/-- The design with a graph replaced, by its number. -/
def setGraph (d : Design τ) (x : Nat) (g : Graph τ) : Design τ :=
  ⟨d.graphs.setIfInBounds x g, d.top⟩

/-- The design with every actor of every graph replaced. -/
def updateActors (d : Design τ) (f : Actor τ → Actor τ) : Design τ :=
  ⟨d.graphs.map fun g => g.updateActors fun _ a => f a, d.top⟩

/-! ## Reading a design -/

/-- The top graph, if it is there. -/
def topGraph? (d : Design τ) : Option (Graph τ) := d.graphs[d.top]?

/-- A graph of the design. -/
def graph (d : Design τ) (x : Fin d.graphs.size) : Graph τ := d.graphs[x]

/-- Is there a graph with this number? -/
def contains (d : Design τ) (x : Nat) : Bool := decide (x < d.graphs.size)

/-- The actors of a graph that stand for graphs, with their numbers, in order. -/
def refinements (g : Graph τ) : List (Nat × Nat) :=
  g.actors.toList.zipIdx.filterMap fun (a, i) => a.refinement?.map fun y => (i, y)

/-- The hierarchical actors of a graph of the design with the graphs that they stand for. -/
def children (d : Design τ) (x : Nat) : List (Nat × Nat) :=
  (d.graphs[x]?.map refinements).getD []

/-- The texts of all graphs in the DOT language, the top graph first. -/
def dot [Clock τ] (d : Design τ) : String :=
  let others := (d.graphs.toList.zipIdx.filter fun (_, i) => i != d.top).map Prod.fst
  String.join ((d.topGraph?.toList ++ others).map Graph.dot)

end Design

end Dataflow

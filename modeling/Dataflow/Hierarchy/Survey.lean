import Dataflow.Graph.Circuit
import Dataflow.Hierarchy.Containment
import Dataflow.Journal

/-!
# Surveying the levels of a design

A survey visits a graph of the design and then, actor by actor, everything that its hierarchical
actors stand for; it notes for every visit whether the graph has a circuit.  A graph is visited
once for every chain of actors that leads to it.

* `Visit`, `Survey` — one visit, and all of them in order.
* `Pending` — a visit that is still to be made.
* `Tour` — the visits that are still to be made, as a stack, and those that were made.
* `Tour.step`, `Tour.run` — one round, and all rounds of a tour.  There are no marks, so that a tour
  comes to an end only because no graph of a sound design contains itself.
* **`Design.survey`** — the survey of a sound design, and what can be read off it.
-/

namespace Dataflow

/-- One visit of a survey. -/
structure Visit where
  graph : Nat
  name : String
  /-- How many actors lead to the graph. -/
  depth : Nat
  /-- The last of these actors. -/
  via : Option String
  cyclic : Bool
  deriving DecidableEq, Repr

/-- The visits of a survey, in order. -/
abbrev Survey := List Visit

/-- A visit to a graph of the design that is still to be made. -/
structure Pending {τ : Type} (d : Design τ) where
  graph : Fin d.graphs.size
  depth : Nat
  via : Option String

namespace Pending

variable {τ : Type} {d : Design τ}

/-- The visit, once it is made. -/
def visit (p : Pending d) : Visit :=
  ⟨p.graph, d.graphName p.graph, p.depth, p.via, (d.graph p.graph).isCyclic⟩

/-- The visits to the graphs that the hierarchical actors of the graph stand for, in the order of
the actors. -/
def below (p : Pending d) : List (Pending d) :=
  (d.children p.graph).filterMap fun (a, y) =>
    if h : y < d.graphs.size then
      some ⟨⟨y, h⟩, p.depth + 1, some ((d.graph p.graph).actorName a)⟩
    else none

end Pending

/-- A tour through a design: the visits that are still to be made, the next one on top, and those
that were made. -/
structure Tour {τ : Type} (d : Design τ) where
  stack : List (Pending d)
  visits : Array Visit

namespace Tour

variable {τ : Type} {d : Design τ}

/-- Makes the visit on top and puts what is below it on the stack, the last first, so that the first
comes on top; or ends the tour with the visits that were made. -/
def step : Tour d → Array Visit ⊕ Tour d
  | ⟨[], visits⟩ => .inl visits
  | ⟨p :: stack, visits⟩ =>
    .inr ⟨p.below.reverse.foldl (fun stack q => q :: stack) stack, visits.push p.visit⟩

/-- The second tour goes on with the first one. -/
def Follows (w' w : Tour d) : Prop := w.step = .inr w'

/-- Makes all visits of a tour.  What this is for a tour without an end is not said. -/
def run : Tour d → Array Visit :=
  WellFounded.extrinsicFix Follows fun w go =>
    match h : w.step with
    | .inl visits => visits
    | .inr w' => go w' h

end Tour

namespace Survey

/-- Has the graph on top a circuit? -/
def topCyclic (s : Survey) : Bool := (s.head?.map Visit.cyclic).getD false

/-- Have the graphs of all visits circuits? -/
def allCyclic (s : Survey) : Bool := s.all Visit.cyclic

/-- Has the graph of some visit a circuit? -/
def anyCyclic (s : Survey) : Bool := s.any Visit.cyclic

/-- The names of the graphs with circuits, once for every visit. -/
def cyclicNames (s : Survey) : List String := (s.filter Visit.cyclic).map Visit.name

end Survey

/-- The survey of a sound design from one of its graphs, on a tour that always ends. -/
def Design.survey {τ : Type} [Clock τ] (d : Design τ) (root : Nat) : Except (Failure τ) Survey := do
  d.validate
  if h : root < d.graphs.size then
    let start : Tour d := ⟨[⟨⟨root, h⟩, 0, none⟩], #[]⟩
    return start.run.toList
  else throw (.malformed (.missingGraph root))

/-- What is reported during a survey. -/
def Design.surveyEvents {τ : Type} [Clock τ] (d : Design τ) (root : Nat) : List (Event τ) :=
  match d.survey root with
  | .ok visits => visits.map fun v => .examined v.depth v.name v.cyclic
  | .error _ => []

end Dataflow

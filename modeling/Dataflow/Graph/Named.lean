import Dataflow.Attempt
import Dataflow.Graph.Basic
import Dataflow.Journal

/-!
# Building graphs by name

Actors are defined once and edges refer to them by name.  A graph is built in place: a call either
adds to it or is refused, and everything that a call can be refused for comes before it writes.

* `Graph.enroll` — adds an actor whose name is free.
* `Graph.attach` — adds an edge between two actors of the graph.
* `Graph.link`, `Graph.linkPorts` — add an edge between two named actors, with numbered ports or
  with ports of given names.
* **`Graph.define`**, **`Graph.join`**, **`Graph.joinPorts`** — the graph after these calls, or why
  they were refused.
-/

namespace Dataflow.Graph

variable {τ : Type}

/-! ## Calls in place -/

/-- Adds an actor to a graph, in which its name has to be free. -/
def enroll (g : Graph τ) (a : Actor τ) : Attempt τ (Graph τ) :=
  match g.find? a.name with
  | some _ => .stopped g (.malformed (.takenName a.name g.name))
  | none => .finished (g.addActor a)

/-- Adds an edge to a graph, two actors of which it has to join. -/
def attach (g : Graph τ) (e : Edge) : Attempt τ (Graph τ) :=
  match g.addEdge e with
  | .ok h => .finished h
  | .error defect => .stopped g (.malformed defect)

/-- The number of the actor with a name. -/
def lookup (g : Graph τ) (name : String) : Except (Failure τ) Nat :=
  match g.find? name with
  | some a => .ok a
  | none => .error (.malformed (.unknownName name g.name))

/-- Adds an edge between two named actors to a graph.  The edge is given for their numbers. -/
def linkWith (g : Graph τ) (source target : String) (edge : Nat → Nat → Edge) :
    Attempt τ (Graph τ) :=
  match g.lookup source with
  | .error failure => .stopped g failure
  | .ok s =>
    match g.lookup target with
    | .error failure => .stopped g failure
    | .ok t => g.attach (edge s t)

/-- Adds an edge between two named actors, whose ports are numbered. -/
def link (g : Graph τ) (source target : String) (production consumption delay : Nat) :
    Attempt τ (Graph τ) :=
  g.linkWith source target fun s t => g.freshEdge s t production consumption delay

/-- Adds an edge between two named actors, whose ports have given names. -/
def linkPorts (g : Graph τ) (source sourcePort target targetPort : String)
    (production consumption delay : Nat) : Attempt τ (Graph τ) :=
  g.linkWith source target fun s t =>
    { g.freshEdge s t production consumption delay with
      sourcePort := ⟨sourcePort, .output⟩
      targetPort := ⟨targetPort, .input⟩ }

/-! ## New graphs -/

/-- The graph with one more actor, whose name has to be free. -/
def define (g : Graph τ) (a : Actor τ) : Except (Failure τ) (Graph τ) := (g.enroll a).outcome

/-- What is reported when an actor is defined. -/
def defineEvents (g : Graph τ) (a : Actor τ) : List (Event τ) :=
  match g.define a with
  | .ok h => [.defined h.name a.name]
  | .error _ => []

/-- The graph with one more edge between two named actors, whose ports are numbered. -/
def join (g : Graph τ) (source target : String) (production consumption delay : Nat) :
    Except (Failure τ) (Graph τ) := (g.link source target production consumption delay).outcome

/-- The graph with one more edge between two named actors, whose ports have given names. -/
def joinPorts (g : Graph τ) (source sourcePort target targetPort : String)
    (production consumption delay : Nat) : Except (Failure τ) (Graph τ) :=
  (g.linkPorts source sourcePort target targetPort production consumption delay).outcome

end Dataflow.Graph

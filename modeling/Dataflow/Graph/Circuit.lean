import Dataflow.Graph.Incidence

/-!
# Circuits

A graph is cyclic if some directed walk along one or more edges ends where it starts; a loop is a
circuit of its own, and delays play no part.  Circuits are found by *peeling*: an actor that no
edge enters is taken away with the edges that leave it, again and again.  An actor on a circuit
always keeps an edge that enters it, and where no circuit is left some actor has lost all of them.

* `Graph.Walk` — walks along edges.
* `Graph.Cyclic` — some actor is reached from itself.
* `Peeling` — what is left of a graph: for every actor the edges that still enter it.
* **`Graph.isCyclic`** — is an actor left in the end?
-/

namespace Dataflow

namespace Graph

/-- There is a walk along one or more edges from the first actor to the second. -/
inductive Walk {τ : Type} (g : Graph τ) : Nat → Nat → Prop where
  | edge {e : Edge} : e ∈ g.edges → Walk g e.source e.target
  | step {e : Edge} {b : Nat} : e ∈ g.edges → Walk g e.target b → Walk g e.source b

/-- Some actor is reached from itself. -/
def Cyclic {τ : Type} (g : Graph τ) : Prop := ∃ a, g.Walk a a

end Graph

/-- What is left of a graph while it is peeled. -/
structure Peeling where
  /-- For every actor, how many of the edges that are left enter it. -/
  entering : Array Nat
  /-- Actors that are left and that no edge enters any more. -/
  free : List Nat
  /-- How many actors are left. -/
  left : Nat

namespace Peeling

variable {τ : Type}

/-- The whole graph. -/
def start (g : Graph τ) (t : Incidence) : Peeling where
  entering := t.entering.map List.length
  free := (List.range g.actors.size).filter fun a => (t.incoming a).isEmpty
  left := g.actors.size

/-- Takes an edge away, given the actor that it enters. -/
def dropEdge (p : Peeling) (a : Nat) : Peeling where
  entering := p.entering.modify a (· - 1)
  free := if p.entering[a]? = some 1 then a :: p.free else p.free
  left := p.left

/-- Takes free actors away until there are none, but no more than a given number. -/
def run (g : Graph τ) (t : Incidence) : Nat → Peeling → Peeling
  | 0, p => p
  | actors + 1, p =>
    match p.free with
    | [] => p
    | a :: free =>
      let targets := (t.outgoing a).filterMap g.target?
      run g t actors (targets.foldl dropEdge ⟨p.entering, free, p.left - 1⟩)

end Peeling

/-- Has the graph a circuit?  No actor is free twice, so as many rounds as actors are enough. -/
def Graph.isCyclic {τ : Type} (g : Graph τ) : Bool :=
  let t := g.incidence
  (Peeling.run g t g.actors.size (.start g t)).left != 0

end Dataflow

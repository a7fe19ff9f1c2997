import Dataflow.Balance.Ratio
import Dataflow.Graph.Incidence
import Dataflow.Journal

/-!
# Balance

An iteration is balanced on an edge if its source puts in as many tokens as its target takes out.
The *repetition vector* of a graph gives every actor the least number of firings that balances all
edges; it is found for each connected part on its own.

* `Edge.Balances` — the balance equation of an edge.
* `Balance.component` — the actors connected with a root, each with its firing ratio to the root,
  in the order in which they are found: the neighbours of an actor are looked at in the order in
  which the actors themselves were found.
* `Balance.scaled` — the least numbers of firings with given ratios.
* **`Graph.repetitionVector`** — the repetition vector of a graph.
-/

namespace Dataflow

/-- The balance equation of an edge, for numbers of firings. -/
def Edge.Balances (e : Edge) (firings : Nat → Nat) : Prop :=
  e.production * firings e.source = e.consumption * firings e.target

/-- Are all edges balanced by the repetition counts of the graph? -/
def Graph.Balanced {τ : Type} (g : Graph τ) : Prop := ∀ e ∈ g.edges, e.Balances g.repetitions

/-- An actor at the other end of an edge: its firings are those of this end times `mul / div`. -/
structure Neighbour where
  actor : Nat
  mul : Nat
  div : Nat
  deriving DecidableEq, Repr

namespace Balance

variable {τ : Type}

/-- The neighbours of an actor: along the edges that leave it, then against those that enter it, the
youngest first. -/
def neighbours (g : Graph τ) (t : Incidence) (a : Nat) : List Neighbour :=
  let leaving := (t.outgoing a).filterMap (g.edges[·]?)
  let entering := (t.incoming a).filterMap (g.edges[·]?)
  leaving.map (fun e => ⟨e.target, e.production, e.consumption⟩)
    ++ entering.map (fun e => ⟨e.source, e.consumption, e.production⟩)

/-- What is known of the firing ratios: those of all actors found so far, and the actors of the part
that is being explored, in the order in which they were found. -/
structure Exploration where
  ratios : Array (Option Ratio)
  found : Array (Nat × Ratio)

namespace Exploration

/-- The ratio of an actor, if it has been found. -/
def ratio? (x : Exploration) (a : Nat) : Option Ratio := x.ratios[a]?.join

/-- Finds an actor. -/
def add (x : Exploration) (a : Nat) (r : Ratio) : Exploration :=
  ⟨x.ratios.setIfInBounds a (some r), x.found.push (a, r)⟩

end Exploration

/-- Gives a neighbour of an actor with ratio `r` its own ratio, which must not contradict the one
that it may have already. -/
def relate (g : Graph τ) (root : Nat) (r : Ratio) (x : Exploration) (n : Neighbour) :
    Except (Failure τ) Exploration :=
  match r.scale n.mul n.div with
  | .error error => .error (.range error)
  | .ok expected =>
    match x.ratio? n.actor with
    | none => .ok (x.add n.actor expected)
    | some known =>
      if known = expected then .ok x
      else .error (.inconsistent g.name (g.actorName n.actor) (known.num, known.den)
        (expected.num, expected.den) (g.actorName root))

/-- Looks at the neighbours of the `i`-th actor that was found and of those after it, as far as the
number of `steps` allows. -/
def explore (g : Graph τ) (t : Incidence) (root : Nat) :
    Nat → Nat → Exploration → Except (Failure τ) Exploration
  | 0, _, x => .ok x
  | steps + 1, i, x =>
    match x.found[i]? with
    | none => .ok x
    | some (a, r) =>
      match (neighbours g t a).foldlM (relate g root r) x with
      | .ok x => explore g t root steps (i + 1) x
      | .error failure => .error failure

/-- Explores the actors connected with a root.  No more actors are found than there are, so that
looking at as many is looking at all of them. -/
def component (g : Graph τ) (t : Incidence) (root : Nat) (ratios : Array (Option Ratio)) :
    Except (Failure τ) Exploration :=
  explore g t root g.actors.size 0 (Exploration.add ⟨ratios, #[]⟩ root Ratio.one)

/-- The least numbers of firings with the given ratios. -/
def scaled (found : List (Nat × Ratio)) : Except RangeError (List (Nat × Nat)) := do
  let unit ← Counter.lcmAll (found.map fun (_, r) => r.den)
  let counts ← found.mapM fun (a, r) =>
    (Counter.mul "repetition count" r.num (unit / r.den)).map fun n => (a, n)
  let common := counts.foldl (fun d (_, n) => n.gcd d) 0
  return counts.map fun (a, n) => (a, n / common)

/-- The ratios found so far, and the numbers of firings. -/
structure Solution where
  ratios : Array (Option Ratio)
  counts : Array Nat

/-- Adds the numbers of firings of the part around a root, unless it has been found before. -/
def extend (g : Graph τ) (t : Incidence) (s : Solution) (root : Nat) :
    Except (Failure τ) Solution :=
  match s, s.ratios[root]?.join with
  | s, some _ => .ok s
  | ⟨ratios, counts⟩, none => do
    let x ← component g t root ratios
    let part ← (scaled x.found.toList).mapError .range
    return ⟨x.ratios, part.foldl (fun counts (a, n) => counts.setIfInBounds a n) counts⟩

/-- The numbers of firings of all actors, part by part. -/
def solve (g : Graph τ) : Except (Failure τ) Solution :=
  (List.range g.actors.size).foldlM (extend g g.incidence)
    ⟨Array.replicate g.actors.size none, Array.replicate g.actors.size 0⟩

end Balance

namespace Graph

variable {τ : Type}

/-- The first edge without a balance equation. -/
def zeroRateEdge? (g : Graph τ) : Option Edge :=
  g.edges.find? fun e => e.production == 0 || e.consumption == 0

/-- The repetition vector of a graph, in the order of its actors. -/
def repetitionVector (g : Graph τ) : Except (Failure τ) (List Nat) :=
  match g.zeroRateEdge? with
  | some e =>
    .error (.malformed (.noBalance (g.actorName e.source) (g.actorName e.target) g.name))
  | none => do
    let solution ← Balance.solve g
    return solution.counts.toList

/-- What is reported while the repetition vector is found. -/
def repetitionVectorEvents (g : Graph τ) : List (Event τ) :=
  match g.repetitionVector with
  | .ok counts => [.repetitionVector g.name ((g.actors.toList.map Actor.name).zip counts)]
  | .error _ => []

/-- The graph with the repetition counts of a vector that has an entry for each of its actors. -/
def withRepetitions (g : Graph τ) (counts : List Nat) : Except (Failure τ) (Graph τ) :=
  if counts.length = g.actors.size then
    let counts := counts.toArray
    .ok (g.updateActors fun i a => { a with repetitions := counts.getD i a.repetitions })
  else .error (.wrongLength counts.length g.name g.actors.size)

end Graph

end Dataflow

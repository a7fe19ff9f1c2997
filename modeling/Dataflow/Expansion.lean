import Dataflow.Expansion.Segment
import Dataflow.Graph.WellFormed
import Dataflow.Journal

/-!
# Expanding a graph

An expansion shows one iteration of a graph firing by firing.  Every actor becomes its
*instances*, one for each of its firings and each firing once; every edge becomes one edge for
each of its segments.  Instances and the new edges remember what they come from.

* `Actor.instance`, `Expansion.instances` — one instance of an actor, and those of a graph.
* `Link`, `Expansion.links` — the edges of an expansion without their ports.
* `Wiring` — a graph with the degrees of its actors, which number the ports of the next edge.
* `Expansion.build` — the expansion, checked for the range of its numbers only.
* **`Graph.expand`** — the expansion of a well-formed graph: a homogeneous graph for
  `Grouping.single`, a single-rate graph for `Grouping.runs`.
-/

namespace Dataflow

/-- The instance of actor number `base` for its `i`-th firing, counted from zero.  Names count from
one. -/
def Actor.instance {τ : Type} (a : Actor τ) (base i : Nat) : Actor τ where
  name := s!"{a.name}_{i + 1}"
  kind := a.kind
  repetitions := 1
  duration := a.duration
  normalizedRate := none
  base := some base

/-- An edge of an expansion without its ports. -/
structure Link where
  source : Nat
  target : Nat
  rate : Nat
  delay : Nat
  /-- The edge that was expanded. -/
  base : Nat
  deriving DecidableEq, Repr

namespace Expansion

variable {τ : Type}

/-- The instances of all actors, actor by actor. -/
def instances (g : Graph τ) : Array (Actor τ) :=
  (g.actors.mapIdx fun base a => (Array.range a.repetitions).map (a.instance base)).flatten

/-- The numbers of the first instances of some actors and of the actor that comes next, given the
same for the actors before them. -/
def numberInstances (actors : List (Actor τ)) : Array Nat × Nat → Array Nat × Nat :=
  actors.foldl fun (table, total) a => (table.push total, total + a.repetitions)

/-- The numbers of the first instances of all actors. -/
def firstInstances (g : Graph τ) : Array Nat := (numberInstances g.actors.toList (#[], 0)).1

/-- The link for a segment of an edge, given the numbers of the first instances. -/
def link (first : Array Nat) (e : Edge) (base : Nat) (s : Segment) : Link where
  source := first[e.source]?.getD 0 + s.sender
  target := first[e.target]?.getD 0 + s.receiver
  rate := s.length
  delay := s.delay
  base := base

/-- The segments of an edge of a graph. -/
def segments (g : Graph τ) (grouping : Grouping) (e : Edge) : Array Segment :=
  Segment.ofEdge grouping e (g.repetitions e.source) (g.repetitions e.target)

/-- The links of all edges, edge by edge. -/
def links (g : Graph τ) (grouping : Grouping) : Array Link :=
  let first := firstInstances g
  g.edges.zipIdx.flatMap fun (e, base) => (segments g grouping e).map (link first e base)

/-- Are all numbers of the expansion counters? -/
def check (g : Graph τ) (grouping : Grouping) : Except RangeError Unit :=
  g.edges.toList.forM fun e =>
    Segment.checkEdge grouping e (g.repetitions e.source) (g.repetitions e.target)

/-- The graph of the instances, without edges. -/
def skeleton (g : Graph τ) (grouping : Grouping) : Graph τ where
  name := g.name ++ grouping.mark
  actors := instances g
  edges := #[]
  closed := by simp

end Expansion

/-- A graph that grows by one link after another, with the degrees of its actors. -/
structure Wiring (τ : Type) where
  graph : Graph τ
  /-- How many edges leave every actor. -/
  leaving : Array Nat
  /-- How many edges enter every actor. -/
  entering : Array Nat

namespace Wiring

variable {τ : Type}

/-- The wiring of a graph without edges. -/
def start (g : Graph τ) : Wiring τ :=
  ⟨g, Array.replicate g.actors.size 0, Array.replicate g.actors.size 0⟩

/-- The edge for a link: its ports are numbered, and both of its rates are that of the link. -/
def edge (w : Wiring τ) (l : Link) : Edge :=
  { Graph.numberedEdge (w.leaving[l.source]?.getD 0) (w.entering[l.target]?.getD 0) l.source
      l.target l.rate l.rate l.delay with base := some l.base }

/-- The wiring with an edge for one more link. -/
def add (w : Wiring τ) (l : Link) : Except (Defect τ) (Wiring τ) :=
  let e := w.edge l
  match w with
  | ⟨graph, leaving, entering⟩ =>
    match graph.addEdge e with
    | .ok graph => .ok ⟨graph, leaving.modify l.source (· + 1), entering.modify l.target (· + 1)⟩
    | .error defect => .error defect

end Wiring

namespace Expansion

variable {τ : Type}

/-- The expansion of a graph. -/
def build (g : Graph τ) (grouping : Grouping) : Except (Failure τ) (Graph τ) := do
  (check g grouping).mapError .range
  let wiring ← ((links g grouping).foldlM Wiring.add (.start (skeleton g grouping))).mapError
    .malformed
  return wiring.graph

end Expansion

namespace Graph

variable {τ : Type} [Clock τ]

/-- The expansion of a well-formed graph, if it is not too large. -/
def expand (g : Graph τ) (grouping : Grouping) : Except (Failure τ) (Graph τ) := do
  g.validate
  let _ ← Expansion.size g grouping
  Expansion.build g grouping

/-- What is reported while a graph is expanded: its actors, once the size is known to be fit. -/
def expandEvents (g : Graph τ) (grouping : Grouping) : List (Event τ) :=
  match g.validate, Expansion.size g grouping with
  | .ok _, .ok _ =>
    g.actors.toList.map fun a => .instances (g.name ++ grouping.mark) a.repetitions a.name
  | _, _ => []

end Graph

end Dataflow

import Dataflow.Failure

/-!
# Synchronous dataflow graphs

A graph has *actors* and *edges*.  An actor fires a fixed number of times in every iteration and
each firing takes a fixed time.  An edge is a first-in first-out channel: every firing of its
source puts a fixed number of tokens into it, every firing of its target takes a fixed number out,
and some tokens (the *delay*) are there from the start.  Parallel edges and loops are allowed.

* `Actor`, `Edge`, `Graph` — the parts; actors and edges are numbered in the order of insertion, and
  every edge of a graph joins two of its actors (`Graph.closed`).
* `Graph.index` — the number that is meant where one exceeds the range of actors and edges.
* `Graph.addActor`, `Graph.addEdge`, `Graph.connect` — insertion; only an edge with a stray end is
  refused.
* `Graph.updateActors`, `Graph.updateEdges`, `Graph.filterEdges` — graphs with the same actors, or
  the same ends of edges, and other annotations.
-/

namespace Dataflow

/-- The way that tokens take through a port or an interface. -/
inductive Direction where
  | input
  | output
  deriving DecidableEq, Repr

/-- The place where an edge meets an actor. -/
structure Port where
  name : String
  direction : Direction
  deriving DecidableEq, Repr

/-- What an actor stands for. -/
inductive ActorKind where
  /-- A computation without parts. -/
  | atomic
  /-- A graph of the design, given by its number. -/
  | hierarchical (refinement : Nat)
  /-- The border of a graph: tokens enter through an input and leave through an output. -/
  | interface (direction : Direction)
  deriving DecidableEq, Repr

/-- An actor of a graph. -/
structure Actor (τ : Type) where
  name : String
  kind : ActorKind
  /-- Firings in one iteration. -/
  repetitions : Nat
  /-- The time that one firing takes. -/
  duration : τ
  /-- The period of the graph divided by the repetitions, once it is normalized. -/
  normalizedRate : Option Nat
  /-- The actor that this one is an instance of, once it is expanded. -/
  base : Option Nat
  deriving Repr

namespace Actor

variable {τ : Type}

/-- An atomic actor. -/
def atomic (name : String) (repetitions : Nat) (duration : τ) : Actor τ :=
  ⟨name, .atomic, repetitions, duration, none, none⟩

variable [Clock τ]

/-- An actor that stands for a graph of the design; it takes a unit of time. -/
def hierarchical (name : String) (repetitions : Nat) (refinement : Nat) : Actor τ :=
  ⟨name, .hierarchical refinement, repetitions, Clock.one, none, none⟩

/-- An interface of a graph; it takes no time. -/
def interface (name : String) (direction : Direction) (repetitions : Nat) : Actor τ :=
  ⟨name, .interface direction, repetitions, Clock.zero, none, none⟩

omit [Clock τ]

/-- The graph that an actor stands for. -/
def refinement? (a : Actor τ) : Option Nat :=
  match a.kind with
  | .hierarchical refinement => some refinement
  | .atomic | .interface _ => none

end Actor

/-- A fraction of naturals that is not reduced. -/
structure Fraction where
  num : Nat
  den : Nat
  deriving DecidableEq, Repr

/-- An edge of a graph. -/
structure Edge where
  /-- The number of the actor that puts tokens into the edge. -/
  source : Nat
  /-- The number of the actor that takes tokens out of the edge. -/
  target : Nat
  /-- Tokens that a firing of the source puts in. -/
  production : Nat
  /-- Tokens that a firing of the target takes out. -/
  consumption : Nat
  /-- Tokens before the first firing. -/
  delay : Nat
  sourcePort : Port
  targetPort : Port
  /-- The period of the graph over the tokens that an iteration consumes, once it is normalized. -/
  factor : Option Fraction
  /-- The edge that this one was expanded from. -/
  base : Option Nat
  deriving DecidableEq, Repr

namespace Edge

/-- Does the edge hold tokens from the start? -/
def hasDelay (e : Edge) : Bool := e.delay != 0

/-- Are both rates one? -/
def isHomogeneous (e : Edge) : Bool := e.production == 1 && e.consumption == 1

end Edge

/-- A synchronous dataflow graph. -/
structure Graph (τ : Type) where
  name : String
  actors : Array (Actor τ)
  edges : Array Edge
  /-- Every edge joins two actors of the graph. -/
  closed : ∀ e ∈ edges, e.source < actors.size ∧ e.target < actors.size

namespace Graph

variable {τ : Type}

/-! ## Reading a graph -/

/-- The number that a natural stands for where an actor or an edge is meant: these numbers are
words of 32 bits, and what exceeds such a word is cut off. -/
def index (n : Nat) : Nat := n % (1 <<< 32)

/-- The name of an actor; numbers that are no actor have the empty name. -/
def actorName (g : Graph τ) (a : Nat) : String := (g.actors[a]?.map Actor.name).getD ""

/-- How often an actor fires in one iteration; numbers that are no actor never fire. -/
def repetitions (g : Graph τ) (a : Nat) : Nat := (g.actors[a]?.map Actor.repetitions).getD 0

/-- How long a firing of an actor takes; numbers that are no actor take no time. -/
def duration [Clock τ] (g : Graph τ) (a : Nat) : τ :=
  (g.actors[a]?.map Actor.duration).getD Clock.zero

/-- The tokens that a firing puts into an edge; numbers that are no edge take none. -/
def production (g : Graph τ) (e : Nat) : Nat := (g.edges[e]?.map Edge.production).getD 0

/-- The tokens that a firing takes out of an edge; numbers that are no edge give none. -/
def consumption (g : Graph τ) (e : Nat) : Nat := (g.edges[e]?.map Edge.consumption).getD 0

/-- The name of the port through which tokens enter an edge. -/
def sourcePortName (g : Graph τ) (e : Nat) : String :=
  (g.edges[e]?.map fun e => e.sourcePort.name).getD ""

/-- The name of the port through which tokens leave an edge. -/
def targetPortName (g : Graph τ) (e : Nat) : String :=
  (g.edges[e]?.map fun e => e.targetPort.name).getD ""

/-- How an edge is named in messages. -/
def edgeName (g : Graph τ) (e : Edge) : EdgeName where
  source := g.actorName e.source
  sourcePort := e.sourcePort.name
  target := g.actorName e.target
  targetPort := e.targetPort.name

/-- The number of the first actor with a name. -/
def find? (g : Graph τ) (name : String) : Option Nat := g.actors.findIdx? (·.name == name)

/-- The numbers of the edges with an end at an actor, the youngest first. -/
def edgesAt (g : Graph τ) (side : Edge → Nat) (a : Nat) : List Nat :=
  ((List.range g.edges.size).filter fun i => g.edges[i]?.map side == some a).reverse

/-- The numbers of the edges that leave an actor, the youngest first. -/
def outgoing (g : Graph τ) (a : Nat) : List Nat := g.edgesAt Edge.source a

/-- The numbers of the edges that enter an actor, the youngest first. -/
def incoming (g : Graph τ) (a : Nat) : List Nat := g.edgesAt Edge.target a

/-- The number of edges that leave an actor. -/
def outDegree (g : Graph τ) (a : Nat) : Nat := g.edges.countP (·.source == a)

/-- The number of edges that enter an actor. -/
def inDegree (g : Graph τ) (a : Nat) : Nat := g.edges.countP (·.target == a)

theorem mem_edgesAt {g : Graph τ} {side : Edge → Nat} {a i : Nat} :
    i ∈ g.edgesAt side a ↔ ∃ e, g.edges[i]? = some e ∧ side e = a := by
  simp only [edgesAt, List.mem_reverse, List.mem_filter, List.mem_range, beq_iff_eq,
    Option.map_eq_some_iff]
  exact ⟨And.right, fun ⟨e, he, ha⟩ => ⟨(Array.getElem?_eq_some_iff.1 he).1, e, he, ha⟩⟩

theorem mem_outgoing {g : Graph τ} {a i : Nat} :
    i ∈ g.outgoing a ↔ ∃ e, g.edges[i]? = some e ∧ e.source = a := mem_edgesAt

theorem mem_incoming {g : Graph τ} {a i : Nat} :
    i ∈ g.incoming a ↔ ∃ e, g.edges[i]? = some e ∧ e.target = a := mem_edgesAt

/-! ## Building a graph -/

/-- A graph without actors. -/
def empty (name : String) : Graph τ := ⟨name, #[], #[], by simp⟩

/-- The graph with one more actor. -/
def addActor (g : Graph τ) (a : Actor τ) : Graph τ where
  name := g.name
  actors := g.actors.push a
  edges := g.edges
  closed e he := by
    have := g.closed e he
    simp only [Array.size_push]
    omega

/-- The graph with one more edge, which has to join two of its actors. -/
def addEdge (g : Graph τ) (e : Edge) : Except (Defect τ) (Graph τ) :=
  if hs : e.source < g.actors.size then
    if ht : e.target < g.actors.size then
      .ok
        { name := g.name
          actors := g.actors
          edges := g.edges.push e
          closed := by
            intro e' he'
            rcases Array.mem_push.1 he' with h | rfl
            · exact g.closed e' h
            · exact ⟨hs, ht⟩ }
    else .error (.strayEnd .target e.target e.sourcePort.name e.targetPort.name g.name)
  else .error (.strayEnd .source e.source e.sourcePort.name e.targetPort.name g.name)

theorem exists_addEdge {g : Graph τ} {e : Edge} (hs : e.source < g.actors.size)
    (ht : e.target < g.actors.size) : ∃ h, g.addEdge e = .ok h := by
  rw [addEdge, dif_pos hs, dif_pos ht]
  exact ⟨_, rfl⟩

theorem addEdge_eq_ok {g h : Graph τ} {e : Edge} (hadd : g.addEdge e = .ok h) :
    h.name = g.name ∧ h.actors = g.actors ∧ h.edges = g.edges.push e := by
  unfold addEdge at hadd
  split at hadd
  · split at hadd
    · cases hadd
      exact ⟨rfl, rfl, rfl⟩
    · cases hadd
  · cases hadd

/-- An edge with ports of its own on both of its actors, given how many edges leave the source and
enter the target so far. -/
def numberedEdge (leaving entering source target production consumption delay : Nat) : Edge where
  source := source
  target := target
  production := production
  consumption := consumption
  delay := delay
  sourcePort := ⟨s!"out{leaving}", .output⟩
  targetPort := ⟨s!"in{entering}", .input⟩
  factor := none
  base := none

/-- An edge with ports of its own on both of its actors. -/
def freshEdge (g : Graph τ) (source target : Nat) : Nat → Nat → Nat → Edge :=
  numberedEdge (g.outDegree source) (g.inDegree target) source target

/-- The graph with one more edge, whose ports are numbered. -/
def connect (g : Graph τ) (source target production consumption delay : Nat) :
    Except (Defect τ) (Graph τ) :=
  g.addEdge (g.freshEdge source target production consumption delay)

/-- The same graph under another name. -/
def rename (g : Graph τ) (name : String) : Graph τ := ⟨name, g.actors, g.edges, g.closed⟩

/-- The graph with every actor replaced, by its number; the edges stay. -/
def updateActors (g : Graph τ) (f : Nat → Actor τ → Actor τ) : Graph τ where
  name := g.name
  actors := g.actors.mapIdx f
  edges := g.edges
  closed e he := by simpa using g.closed e he

/-- The graph with every edge replaced, by its number; an edge keeps its ends. -/
def updateEdges (g : Graph τ) (f : Nat → Edge → Edge) : Graph τ where
  name := g.name
  actors := g.actors
  edges := g.edges.mapIdx fun i e => { f i e with source := e.source, target := e.target }
  closed e he := by
    obtain ⟨i, hi, rfl⟩ := Array.mem_mapIdx.1 he
    exact g.closed g.edges[i] (Array.getElem_mem hi)

/-- The graph with the edges that `keep` accepts, under another name; the actors stay. -/
def filterEdges (g : Graph τ) (name : String) (keep : Edge → Bool) : Graph τ where
  name := name
  actors := g.actors
  edges := g.edges.filter keep
  closed e he := g.closed e (Array.mem_filter.1 he).1

end Graph

end Dataflow

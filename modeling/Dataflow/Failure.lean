import Dataflow.Clock
import Dataflow.Counter
import Dataflow.Evaluation.Method
import Dataflow.Parameters.Error

/-!
# Failures

Every operation that can be refused says why by a value of `Failure`: the cause with the names and
numbers that a reader needs.  The wording of all causes is in one place.

* `Defect` — what is wrong with a model: a graph, a design or a timing table.
* `Failure` — why an operation was refused; `Failure.kind` sorts the causes, and
  `Failure.message` words them.
* `Failure.structural` — is the model at fault rather than a computation on it?
-/

namespace Dataflow

/-- An end of an edge. -/
inductive Side where
  | source
  | target
  deriving DecidableEq, Repr

/-- The word for an end of an edge. -/
def Side.word : Side → String
  | .source => "source"
  | .target => "target"

/-- How an edge is named in messages: by its actors and ports. -/
structure EdgeName where
  source : String
  sourcePort : String
  target : String
  targetPort : String
  deriving DecidableEq, Repr

/-- The text of an edge's name. -/
def EdgeName.text (e : EdgeName) : String :=
  s!"{e.source}.{e.sourcePort} -> {e.target}.{e.targetPort}"

/-- What is wrong with a model. -/
inductive Defect (τ : Type) where
  /-- An edge is to be added whose end is no actor of the graph. -/
  | strayEnd (side : Side) (actor : Nat) (sourcePort targetPort graph : String)
  /-- Two actors of a graph share a name. -/
  | repeatedName (graph actor : String)
  /-- An actor fires zero times per iteration. -/
  | neverFires (actor graph : String)
  /-- An actor has a duration that is none. -/
  | badDuration (actor graph : String) (duration : τ)
  /-- An edge carries no tokens at one of its ends. -/
  | deadRate (edge : EdgeName) (production consumption : Nat)
  /-- An edge does not lead from an output port to an input port. -/
  | reversedPorts (edge : EdgeName)
  /-- An edge leaves an output interface. -/
  | leavesOutput (edge : EdgeName)
  /-- An edge enters an input interface. -/
  | entersInput (edge : EdgeName)
  /-- A hierarchical actor refers to a graph that is not there. -/
  | missingRefinement (actor graph : String) (refinement : Nat)
  /-- A graph is asked for that is not there. -/
  | missingGraph (graph : Nat)
  /-- An edge of a graph that has to be single-rate has two different rates. -/
  | multiRate (graph source target : String) (production consumption : Nat)
  /-- An edge has no balance equation, because one of its rates is zero. -/
  | noBalance (source target graph : String)
  /-- A new actor takes the name of an existing one. -/
  | takenName (actor graph : String)
  /-- An edge refers to an actor by a name that no actor has. -/
  | unknownName (actor graph : String)
  /-- A timing table has an entry that is no duration. -/
  | badTiming (actor : String) (duration : τ)
  deriving Repr

/-- The wording of a defect. -/
def Defect.message {τ : Type} [Clock τ] : Defect τ → String
  | .strayEnd side actor sourcePort targetPort graph =>
    s!"{side.word} actor #{actor} of edge `{sourcePort}' -> `{targetPort}' "
      ++ s!"is not in graph `{graph}'"
  | .repeatedName graph actor => s!"graph `{graph}' defines actor `{actor}' more than once"
  | .neverFires actor graph => s!"actor `{actor}' in graph `{graph}' has a repetition count of 0"
  | .badDuration actor graph duration =>
    s!"actor `{actor}' in graph `{graph}' has invalid duration " ++ Clock.text duration
  | .deadRate edge production consumption =>
    s!"edge {edge.text} has rates {production}/{consumption}, both must be positive"
  | .reversedPorts edge => s!"edge {edge.text} must go from an output port to an input port"
  | .leavesOutput edge => s!"edge {edge.text} leaves output interface `{edge.source}'"
  | .entersInput edge => s!"edge {edge.text} enters input interface `{edge.target}'"
  | .missingRefinement actor graph refinement =>
    s!"hierarchical actor `{actor}' in graph `{graph}' refines to missing graph #{refinement}"
  | .missingGraph graph => s!"graph #{graph} is not part of the design"
  | .multiRate graph source target production consumption =>
    s!"graph `{graph}' is not single-rate: edge `{source}' -> `{target}' has rates "
      ++ s!"{production}/{consumption}"
  | .noBalance source target graph =>
    s!"edge `{source}' -> `{target}' in graph `{graph}' has a zero rate"
  | .takenName actor graph => s!"actor `{actor}' is already defined in graph `{graph}'"
  | .unknownName actor graph => s!"actor `{actor}' is not defined in graph `{graph}'"
  | .badTiming actor duration =>
    s!"timing of actor `{actor}' is " ++ Clock.text duration
      ++ ", it must be finite and non-negative"

/-- Why an operation was refused. -/
inductive Failure (τ : Type) where
  /-- The model has a defect. -/
  | malformed (defect : Defect τ)
  /-- A graph contains itself; the graphs on the way, from the first back to the first. -/
  | selfContaining (path : List String)
  /-- A number is no counter. -/
  | range (error : RangeError)
  /-- An edge holds fewer tokens than some firings need. -/
  | shortage (firings : Nat) (actor : String) (needed : Nat) (port : String) (available : Nat)
  /-- An expansion would have more parts than a graph can number. -/
  | oversized (graph : String) (count : Nat) (parts : String)
  /-- Two ways through a graph demand different firing ratios of one actor. -/
  | inconsistent (graph actor : String) (found expected : Nat × Nat) (root : String)
  /-- A text names no usable method. -/
  | method (error : MethodError)
  /-- A repetition vector belongs to a graph of another size. -/
  | wrongLength (entries : Nat) (graph : String) (actors : Nat)
  /-- The parameters of an evaluation cannot be read. -/
  | parameters (error : ParameterError)
  deriving Repr

namespace Failure

variable {τ : Type}

/-- The kind of a failure. -/
def kind : Failure τ → FailureKind
  | .malformed _ => .malformedStructure
  | .selfContaining _ => .hierarchyCycle
  | .range _ | .shortage .. | .oversized .. => .arithmeticRange
  | .inconsistent .. => .inconsistentRates
  | .method error => error.kind
  | .wrongLength .. | .parameters _ => .miscellaneous

/-- Is the model at fault, rather than a computation on it? -/
def structural (f : Failure τ) : Bool := f.kind.structural

variable [Clock τ]

/-- The wording of the cause, without its kind. -/
def detail : Failure τ → String
  | .malformed defect => defect.message
  | .selfContaining path => " -> ".intercalate path
  | .range error => error.message
  | .shortage firings actor needed port available =>
    s!"{firings} firings of `{actor}' need {needed} tokens on `{port}' but only {available} are "
      ++ "available"
  | .oversized graph count parts =>
    s!"expanding `{graph}' needs up to {count} {parts}, more than a graph can index"
  | .inconsistent graph actor found expected root =>
    s!"graph `{graph}': actor `{actor}' would have to fire both {found.1}/{found.2} and "
      ++ s!"{expected.1}/{expected.2} times as often as `{root}'"
  | .method error => error.detail
  | .wrongLength entries graph actors =>
    s!"repetition vector has {entries} entries but graph `{graph}' has {actors} actors"
  | .parameters error => error.message

/-- The message of a failure: its kind, then its cause. -/
def message (f : Failure τ) : String := f.kind.heading ++ f.detail

end Failure

end Dataflow

import Dataflow.Failure.Kind

/-!
# Methods of evaluation

The duration of an iteration is found by simulating the graph itself, or by simulating its
single-rate expansion.  Other methods are known by name but not available.

* `Method.read` — the method that a text names, in any mixture of cases.
* `Method.name` — its principal name, which `Method.read` accepts (`Method.read_name`).
-/

namespace Dataflow

/-- How the duration of an iteration is found. -/
inductive Method where
  /-- Simulate the graph itself. -/
  | asSoonAsPossible
  /-- Expand the graph into single-rate form and simulate the expansion. -/
  | singleRate
  deriving DecidableEq, Repr

/-- Why a text names no usable method. -/
inductive MethodError where
  | unavailable (text : String)
  | unknown (text : String)
  deriving DecidableEq, Repr

namespace MethodError

/-- The kind of failure that a rejected method is. -/
def kind : MethodError → FailureKind
  | .unavailable _ => .unsupported
  | .unknown _ => .miscellaneous

/-- The wording of a rejected method. -/
def detail : MethodError → String
  | .unavailable text => s!"throughput method `{text}' is not provided by this engine"
  | .unknown text => s!"Unknown throughput method: '{text}'"

/-- The wording with the heading of its kind. -/
def message (e : MethodError) : String := e.kind.heading ++ e.detail

end MethodError

namespace Method

/-- The principal name of a method. -/
def name : Method → String
  | .asSoonAsPossible => "asap"
  | .singleRate => "single-rate"

/-- All names of the available methods. -/
def names : List (String × Method) :=
  [("asap", .asSoonAsPossible), ("sdf", .asSoonAsPossible),
   ("single-rate", .singleRate), ("single_rate", .singleRate), ("srsdf", .singleRate)]

/-- Names of methods for hierarchical evaluation that are not available. -/
def unavailable : List String := ["sr", "esr", "hperiodic", "classic"]

/-- The method that a text names.  All names consist of ASCII characters, so that lowering the ASCII
letters of the text decides the comparison. -/
def read (text : String) : Except MethodError Method :=
  let lowered := text.map Char.toLower
  match names.lookup lowered with
  | some method => .ok method
  | none => if lowered ∈ unavailable then .error (.unavailable text) else .error (.unknown text)

/-- A method is read back from its principal name. -/
theorem read_name (method : Method) : read method.name = .ok method := by
  have h : names.lookup (method.name.map Char.toLower) = some method := by
    cases method <;> decide +kernel
  simp only [read, h]

end Method

end Dataflow

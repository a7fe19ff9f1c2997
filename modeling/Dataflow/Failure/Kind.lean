/-!
# Kinds of failure

The kinds of failure that a user tells apart, and the words that a message of each kind starts with.
-/

namespace Dataflow

/-- The kinds of failure. -/
inductive FailureKind where
  /-- The model breaks a rule of its structure. -/
  | malformedStructure
  /-- A graph contains itself. -/
  | hierarchyCycle
  /-- A number left the range of counters. -/
  | arithmeticRange
  /-- The balance equations have no positive solution. -/
  | inconsistentRates
  /-- What is asked for is known but not available. -/
  | unsupported
  /-- Anything else. -/
  | miscellaneous
  deriving DecidableEq, Repr

namespace FailureKind

/-- What a message of this kind starts with. -/
def heading : FailureKind → String
  | .malformedStructure => "malformed graph: "
  | .hierarchyCycle => "hierarchy cycle: "
  | .arithmeticRange => "arithmetic range error: "
  | .inconsistentRates => "inconsistent rates: "
  | .unsupported => "unsupported: "
  | .miscellaneous => ""

/-- Is the model at fault, rather than a computation on it? -/
def structural : FailureKind → Bool
  | .malformedStructure | .hierarchyCycle => true
  | _ => false

end FailureKind

end Dataflow

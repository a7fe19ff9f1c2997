import Dataflow.Clock.Floating
import Dataflow.Evaluation.Method

/-!
# Settings of an evaluation

How an evaluation goes about its work: the method, the durations of actors without an entry of their
own, and whether the design is checked first.
-/

namespace Dataflow

/-- The settings of an evaluation. -/
structure Settings (τ : Type) where
  /-- How the duration of an iteration is found. -/
  method : Method
  /-- The duration of atomic actors that the timing table does not mention. -/
  atomicDuration : τ
  /-- The duration of hierarchical actors. -/
  hierarchicalDuration : τ
  /-- The duration of interfaces. -/
  interfaceDuration : τ
  /-- Is the whole design checked before the evaluation? -/
  checked : Bool
  deriving Repr

/-- The settings that hold unless others are chosen. -/
def Settings.standard : Settings Float where
  method := .asSoonAsPossible
  atomicDuration := 100.0
  hierarchicalDuration := Clock.one
  interfaceDuration := Clock.zero
  checked := true

end Dataflow

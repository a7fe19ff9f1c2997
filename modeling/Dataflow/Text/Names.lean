/-!
# Sorted names

Names are ordered by their characters' code points, from the first character to the last, a proper
beginning before the longer name.

* `Names.sorted` — a list of names in this order.
* `Names.distinct` — the same without repetitions.
-/

namespace Dataflow.Names

/-- The names in order, repetitions kept. -/
def sorted (names : List String) : List String :=
  names.mergeSort fun a b => decide (a ≤ b)

/-- The names in order, each once. -/
def distinct (names : List String) : List String :=
  (sorted names).eraseReps

end Dataflow.Names

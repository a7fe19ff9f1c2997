import Dataflow.Graph.Basic
import Mathlib

/-!
# Clocks that do not round

A clock is exact if its dates are the elements of an ordered commutative monoid and its operations
are the exact ones: dates are added in the monoid, compared in its order, and no duration is
negative.  Time in rational numbers is such a clock.
-/

namespace Dataflow

/-- A clock whose dates are added without rounding. -/
class Clock.Exact (τ : Type) [Clock τ] [AddCommMonoid τ] [LinearOrder τ] [IsOrderedAddMonoid τ] :
    Prop where
  zero_eq : (Clock.zero : τ) = 0
  add_eq (a b : τ) : Clock.add a b = a + b
  order_eq (a b : τ) : Clock.order a b = compare a b
  latest_eq (a b : τ) : Clock.latest a b = max a b
  nonneg_of_isDuration {a : τ} : Clock.isDuration a = true → 0 ≤ a

/-- Time in rational numbers. -/
instance : Clock ℚ where
  zero := 0
  one := 1
  add := (· + ·)
  order := compare
  latest := max
  isDuration duration := decide (0 ≤ duration)
  perUnit? duration := if 0 < duration then some (1 / duration) else none
  text := toString
  isDuration_zero := by decide
  isDuration_one := by decide

instance : Clock.Exact ℚ where
  zero_eq := rfl
  add_eq _ _ := rfl
  order_eq _ _ := rfl
  latest_eq _ _ := rfl
  nonneg_of_isDuration h := of_decide_eq_true h

/-- An actor that fires twice for one firing of another, with an edge back that holds `back`
tokens. -/
def handshake (back : Nat) : Graph ℚ where
  name := "handshake"
  actors := #[.atomic "X" 2 1, .atomic "Y" 1 1]
  edges := #[Graph.numberedEdge 0 0 0 1 1 2 0, Graph.numberedEdge 0 0 1 0 2 1 back]
  closed := by simp [Graph.numberedEdge]

/-- Two actors that fire twice and three times, with two parallel edges from the first to the
second, one of which holds `xy` tokens, and an edge back that holds `yx`. -/
def parallelPair (xy yx : Nat) : Graph ℚ where
  name := "parallel"
  actors := #[.atomic "X" 2 1, .atomic "Y" 3 1]
  edges := #[Graph.numberedEdge 0 0 0 1 3 2 0, Graph.numberedEdge 1 1 0 1 6 4 xy,
    Graph.numberedEdge 0 0 1 0 2 3 yx]
  closed := by simp [Graph.numberedEdge]

end Dataflow

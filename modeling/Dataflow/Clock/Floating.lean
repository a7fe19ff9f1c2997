import Dataflow.Clock
import Dataflow.Decimal.Positional

/-!
# Time in doubles

Dates and durations as doubles.  All values are in order of size with every "no number" after them,
so that the order is total, and "no number" is never the later of two dates unless both are.
-/

namespace Dataflow

namespace Floating

/-- The order of doubles, with every "no number" equal and greatest. -/
def order (x y : Float) : Ordering :=
  if x < y then .lt
  else if y < x then .gt
  else match x.isNaN, y.isNaN with
    | false, true => .lt
    | true, false => .gt
    | _, _ => .eq

/-- The greater of two doubles, and the other one if one is "no number". -/
def latest (x y : Float) : Float :=
  if y.isNaN then x
  else if x.isNaN then y
  else if x < y then y else x

/-- Finite and not negative. -/
def isDuration (x : Float) : Bool := x.isFinite && !decide (x < 0.0)

end Floating

/-- Time in doubles. -/
instance : Clock Float where
  zero := 0.0
  one := 1.0
  add := (· + ·)
  order := Floating.order
  latest := Floating.latest
  isDuration := Floating.isDuration
  perUnit? duration := if 0.0 < duration then some (1.0 / duration) else none
  text := Decimal.ofFloat
  isDuration_zero := by decide
  isDuration_one := by decide

/-- A throughput as a double. -/
def Throughput.toFloat : Throughput Float → Float
  | .unbounded => Float.ofBits Binary64.infinityBits.toUInt64
  | .finite value => value

end Dataflow

import Dataflow.Counter

/-!
# Firing ratios

How often an actor fires for each firing of another is a positive fraction in lowest terms.
-/

namespace Dataflow

/-- A fraction in lowest terms. -/
structure Ratio where
  num : Nat
  den : Nat
  deriving DecidableEq, Repr

namespace Ratio

/-- One firing for each. -/
def one : Ratio := ⟨1, 1⟩

/-- The ratio times `mul / div`.  Common factors are divided out before the products are formed, so
that these stay as small as the lowest terms allow. -/
def scale (r : Ratio) (mul div : Nat) : Except RangeError Ratio := do
  let across := r.num.gcd div
  let against := mul.gcd r.den
  let num ← Counter.mul "firing ratio" (r.num / across) (mul / against)
  let den ← Counter.mul "firing ratio" (r.den / against) (div / across)
  let common := num.gcd den
  return ⟨num / common, den / common⟩

end Ratio

end Dataflow

import Dataflow.Decimal.Binary64

/-!
# Shortest decimals

Among the decimals that round to a given positive double, the *shortest* has the fewest digits,
and of two with equally few digits it is the one nearer to the double, the greater one when they
are equally near.

* `Rounding` — a positive double in quarter units, with the half-gaps to its neighbours.
* `Rounding.hit?` — the decimal of `n` digits nearest to the double, if it rounds to it.
* **`Rounding.shortest`** — the first hit for `n = 1, 2, …, 17`; seventeen digits always suffice.

If a decimal of `n` digits lies between the half-gaps, then so does one of the two neighbours of
the double on the grid of `n` digits, hence only those two are tried.
-/

namespace Dataflow

/-- A decimal `digits * 10 ^ scale`. -/
structure Decimal where
  digits : Nat
  scale : Int
  deriving DecidableEq, Repr

namespace Decimal

/-- Powers of ten as a fraction, numerator first. -/
def powerOfTen (k : Int) : Nat × Nat :=
  if 0 ≤ k then (Nat.pow 10 k.toNat, 1) else (1, Nat.pow 10 (-k).toNat)

/-- The number of decimal digits of a positive natural. -/
def digitCount (n : Nat) : Nat := (Nat.toDigits 10 n).length

/-- The same decimal without zeros at the end of its digits; `fuel` bounds how many are dropped. -/
def trimZeros : Nat → Decimal → Decimal
  | 0, d => d
  | fuel + 1, d =>
    if d.digits % 10 = 0 then trimZeros fuel ⟨d.digits / 10, d.scale + 1⟩ else d

end Decimal

/-- A positive double `4 * significand` in units of `num / den`, which are a quarter of the last
place of its significand.  The gap below a power of two is half as wide as the one above it. -/
structure Rounding where
  significand : Nat
  narrowBelow : Bool
  num : Nat
  den : Nat

namespace Rounding

/-- The double `significand * 2 ^ exponent` with its surroundings. -/
def of (significand : Nat) (exponent : Int) : Rounding where
  significand := significand
  narrowBelow := significand == Binary64.fractions && decide (-1074 < exponent)
  num := if 2 ≤ exponent then 1 <<< (exponent - 2).toNat else 1
  den := if 2 ≤ exponent then 1 else 1 <<< (2 - exponent).toNat

/-- The double itself, in quarter units. -/
def value (r : Rounding) : Nat := 4 * r.significand

/-- The half-way point to the double below, in quarter units. -/
def low (r : Rounding) : Nat := r.value - (if r.narrowBelow then 1 else 2)

/-- The half-way point to the double above, in quarter units. -/
def high (r : Rounding) : Nat := r.value + 2

/-- Does `c * p / q` round to the double?  The half-way points themselves do exactly when the
significand is even. -/
def contains (r : Rounding) (c p q : Nat) : Bool :=
  let x := c * p * r.den
  let lo := r.low * r.num * q
  let hi := r.high * r.num * q
  if r.significand % 2 = 0 then decide (lo ≤ x ∧ x ≤ hi) else decide (lo < x ∧ x < hi)

/-- The exponent of the leading decimal digit of the double: `10 ^ e ≤ x < 10 ^ (e + 1)`. -/
def leadingPlace (r : Rounding) : Int :=
  let n := r.value * r.num
  if r.den ≤ n then (Decimal.digitCount (n / r.den) : Int) - 1
  else -(Decimal.digitCount ((r.den + n - 1) / n - 1) : Int)

/-- The neighbour of the double on the grid of `n` digits that rounds to it, the nearer one if both
do and the upper one if they are equally near. -/
def hit? (r : Rounding) (n : Nat) : Option Decimal :=
  let scale := r.leadingPlace - n + 1
  let (p, q) := Decimal.powerOfTen scale
  let x := r.value * r.num * q
  let unit := p * r.den
  let c := x / unit
  match r.contains c p q, r.contains (c + 1) p q with
  | false, false => none
  | true, false => some ⟨c, scale⟩
  | false, true => some ⟨c + 1, scale⟩
  | true, true => some ⟨if 2 * (x % unit) < unit then c else c + 1, scale⟩

/-- The shortest decimal that rounds to the double. -/
def shortest (r : Rounding) : Decimal :=
  let found := (List.range 17).findSome? fun n => r.hit? (n + 1)
  (found.getD ⟨r.value, 0⟩).trimZeros 17

end Rounding

end Dataflow

/-!
# Binary64 words

A double is a word of 64 bits: a sign, eleven bits of exponent and fifty-two bits of fraction.
This module reads a word into the exact number it stands for and finds the word nearest to a
fraction, both in exact arithmetic on naturals.

* `Binary64.decode` — the exact value of a word: `significand * 2 ^ exponent`, an infinity or no
  number.
* `Binary64.nearest` — the word nearest to a non-negative fraction, ties to the even significand,
  infinity beyond the largest finite word.
-/

namespace Dataflow

/-- What a word of 64 bits stands for.  A finite value is `significand * 2 ^ exponent`, negated if
`negative`; zero keeps its sign. -/
inductive Binary64 where
  | nan
  | infinite (negative : Bool)
  | finite (negative : Bool) (significand : Nat) (exponent : Int)
  deriving DecidableEq, Repr

namespace Binary64

/-- The number of fractions that share a sign and an exponent. -/
def fractions : Nat := 1 <<< 52

/-- The value of a word. -/
def decode (bits : Nat) : Binary64 :=
  let negative := bits >>> 63 % 2 == 1
  let biased : Nat := bits / fractions % (1 <<< 11)
  let fraction := bits % fractions
  if biased = 2047 then
    if fraction = 0 then .infinite negative else .nan
  else if biased = 0 then .finite negative fraction (-1074)
  else .finite negative (fractions + fraction) ((biased : Int) - 1075)

/-- The word of positive infinity. -/
def infinityBits : Nat := 2047 * fractions

/-- `num / den` as a fraction of `2 ^ exponent`, numerator first. -/
def inUnits (num den : Nat) (exponent : Int) : Nat × Nat :=
  if 0 ≤ exponent then (num, den <<< exponent.toNat) else (num <<< (-exponent).toNat, den)

/-- The quotient rounded to the nearest natural, a half to the even neighbour. -/
def roundHalfEven (num den : Nat) : Nat :=
  let low := num / den
  let twice := 2 * (num % den)
  if twice < den then low
  else if den < twice then low + 1
  else if low % 2 = 0 then low else low + 1

/-- The exponent of the unit in which `num / den` has fifty-three binary digits, or the least
exponent there is when the fraction is too small for that. -/
def unitExponent (num den : Nat) : Int :=
  let guess : Int := (num.log2 : Int) - den.log2 - 52
  let (n, d) := inUnits num den guess
  max (if n / d < fractions then guess - 1 else guess) (-1074)

/-- The word nearest to `num / den`.  Adding the rounded significand to the biased exponent times
`fractions` carries into the exponent exactly when rounding reaches the next power of two. -/
def nearest (num den : Nat) : Nat :=
  if num = 0 then 0
  else
    let exponent := unitExponent num den
    let (n, d) := inUnits num den exponent
    min ((exponent + 1074).toNat * fractions + roundHalfEven n d) infinityBits

/-- The double nearest to a fraction. -/
def nearestFloat (num den : Nat) : Float :=
  Float.ofBits (nearest num den).toUInt64

end Binary64

end Dataflow

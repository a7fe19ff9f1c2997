import Dataflow.Decimal.Binary64

/-!
# Number literals

A literal is an optional sign followed by `inf`, `infinity` or `nan` in any mixture of cases, or by
decimal digits with at most one point among or around them and an optional power of ten.  At least
one digit stands before or after the point, and nothing else is allowed, blanks included.

* `Literal.decimal?` — the digits and the power of ten of an unsigned literal.
* `Literal.magnitude` — the word nearest to it; a power that certainly overflows or vanishes is
  not multiplied out.
* **`Literal.float?`** — the double that a literal denotes.
-/

namespace Dataflow.Literal

/-- The number that a list of digits denotes. -/
def number (digits : List Char) : Nat :=
  digits.foldl (fun n c => 10 * n + (c.toNat - '0'.toNat)) 0

/-- A natural number: at least one digit and nothing else. -/
def natural? (digits : List Char) : Option Nat :=
  if digits ≠ [] ∧ digits.all Char.isDigit then some (number digits) else none

/-- A power of ten: an optional sign and at least one digit. -/
def power? : List Char → Option Int
  | '-' :: digits => (natural? digits).map fun n => -n
  | '+' :: digits => (natural? digits).map Int.ofNat
  | digits => (natural? digits).map Int.ofNat

/-- What follows the digits: nothing, or `e` or `E` and a power of ten. -/
def tail? : List Char → Option Int
  | [] => some 0
  | 'e' :: rest => power? rest
  | 'E' :: rest => power? rest
  | _ => none

/-- An unsigned literal as digits and a power of ten. -/
def decimal? (cs : List Char) : Option (List Char × Int) :=
  let whole := cs.takeWhile Char.isDigit
  match cs.dropWhile Char.isDigit with
  | '.' :: rest =>
    let places := rest.takeWhile Char.isDigit
    if whole.isEmpty && places.isEmpty then none
    else
      (tail? (rest.dropWhile Char.isDigit)).map fun power =>
        (whole ++ places, power - places.length)
  | rest => if whole.isEmpty then none else (tail? rest).map fun power => (whole, power)

/-- The word nearest to `digits * 10 ^ power`.  Every double lies between `10 ^ (-324)` and
`10 ^ 309`, so a leading digit beyond these places decides the answer alone. -/
def magnitude (digits : List Char) (power : Int) : Nat :=
  let significant := digits.dropWhile (· == '0')
  let n := number significant
  let place := (significant.length : Int) + power
  if n = 0 then 0
  else if 310 < place then Binary64.infinityBits
  else if place < -330 then 0
  else if 0 ≤ power then Binary64.nearest (n * Nat.pow 10 power.toNat) 1
  else Binary64.nearest n (Nat.pow 10 (-power).toNat)

/-- The word of an unsigned literal. -/
def unsigned? (cs : List Char) : Option Nat :=
  let lower := String.ofList (cs.map Char.toLower)
  if lower == "inf" || lower == "infinity" then some Binary64.infinityBits
  else if lower == "nan" then some (Binary64.infinityBits + 1 <<< 51)
  else (decimal? cs).map fun (digits, power) => magnitude digits power

/-- The double that a literal denotes. -/
def float? (text : String) : Option Float :=
  match text.toList with
  | '-' :: cs => (unsigned? cs).map fun bits => Float.ofBits (1 <<< 63 + bits).toUInt64
  | '+' :: cs => (unsigned? cs).map fun bits => Float.ofBits bits.toUInt64
  | cs => (unsigned? cs).map fun bits => Float.ofBits bits.toUInt64

end Dataflow.Literal

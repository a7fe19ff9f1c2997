import Dataflow.Decimal.Shortest

/-!
# Positional texts of doubles

A double is written with the digits of its shortest decimal, every digit in its place: never with
an exponent, with a point only before a fractional part, and with a sign if it is negative, which
includes the negative zero.

* `Decimal.positional` — the digits of a decimal in their places.
* **`Decimal.ofFloat`** — the text of a double.
-/

namespace Dataflow.Decimal

/-- A run of zeros. -/
def zeros (n : Nat) : String := String.ofList (List.replicate n '0')

/-- A decimal written out: zeros fill the places between the digits and the point. -/
def positional (d : Decimal) : String :=
  let digits := Nat.toDigits 10 d.digits
  if 0 ≤ d.scale then String.ofList digits ++ zeros d.scale.toNat
  else
    let places := (-d.scale).toNat
    if places < digits.length then
      String.ofList (digits.take (digits.length - places)) ++ "."
        ++ String.ofList (digits.drop (digits.length - places))
    else "0." ++ zeros (places - digits.length) ++ String.ofList digits

/-- The sign of a number's text. -/
def sign (negative : Bool) : String := if negative then "-" else ""

/-- The text of what a word of 64 bits stands for. -/
def ofBinary64 : Binary64 → String
  | .nan => "NaN"
  | .infinite negative => sign negative ++ "inf"
  | .finite negative 0 _ => sign negative ++ "0"
  | .finite negative significand exponent =>
    sign negative ++ (Rounding.of significand exponent).shortest.positional

/-- The text of a double. -/
def ofFloat (x : Float) : String := ofBinary64 (Binary64.decode x.toBits.toNat)

end Dataflow.Decimal

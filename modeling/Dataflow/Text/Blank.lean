/-!
# Blank characters

The characters with the property `White_Space`, and texts without blanks at their end.

* `Blank.ranges` — the property as ranges of code points.
* `Blank.trimEnd` — a text up to its last character that is not blank.
-/

namespace Dataflow.Blank

/-- The code points with the property `White_Space`, as first and last members of ranges. -/
def ranges : List (Nat × Nat) :=
  [(0x9, 0xd), (0x20, 0x20), (0x85, 0x85), (0xa0, 0xa0), (0x1680, 0x1680), (0x2000, 0x200a),
   (0x2028, 0x2029), (0x202f, 0x202f), (0x205f, 0x205f), (0x3000, 0x3000)]

/-- Has the character the property? -/
def isBlank (c : Char) : Bool :=
  ranges.any fun (first, last) => decide (first ≤ c.toNat ∧ c.toNat ≤ last)

/-- A text without the blanks at its end. -/
def trimEnd (text : String) : String :=
  String.ofList (text.toList.reverse.dropWhile isBlank).reverse

end Dataflow.Blank

/-!
# Counters

Tokens, firings, rates and repetition counts are naturals below `2 ^ 64`.  A step of arithmetic
that leaves this range is refused and never wrapped, because a wrapped token count would name the
wrong firing.

* `RangeError` — a refused step, with its operands and the quantity that was being computed.
* `Counter.add`, `Counter.mul`, `Counter.sub` — the checked operations; each is defined exactly
  when its result is a counter (`Counter.add_eq_ok_iff` and its siblings).
* `Counter.lcm`, `Counter.lcmAll` — least common multiples, computed through `Counter.mul`.
* `Counter.toString_inj` — no two numbers have the same digits.
-/

namespace Dataflow

/-- A step of arithmetic whose result is no counter; `what` names the quantity. -/
inductive RangeError where
  | sum (what : String) (a b : Nat)
  | product (what : String) (a b : Nat)
  | difference (what : String) (a b : Nat)
  deriving DecidableEq, Repr

/-- The wording of a refused step. -/
def RangeError.message : RangeError → String
  | .sum what a b => s!"{what}: {a} + {b} overflows"
  | .product what a b => s!"{what}: {a} * {b} overflows"
  | .difference what a b => s!"{what}: {a} - {b} is negative"

namespace Counter

/-- Counters are the naturals below this bound. -/
def bound : Nat := 1 <<< 64

/-- The sum, if it is a counter. -/
def add (what : String) (a b : Nat) : Except RangeError Nat :=
  if a + b < bound then .ok (a + b) else .error (.sum what a b)

/-- The product, if it is a counter. -/
def mul (what : String) (a b : Nat) : Except RangeError Nat :=
  if a * b < bound then .ok (a * b) else .error (.product what a b)

/-- The difference, if it is not negative. -/
def sub (what : String) (a b : Nat) : Except RangeError Nat :=
  if b ≤ a then .ok (a - b) else .error (.difference what a b)

/-- The least common multiple.  It is zero as soon as one operand is, and otherwise the product of
`a / gcd a b` and `b`, the smaller of the two ways to bracket the quotient. -/
def lcm (a b : Nat) : Except RangeError Nat :=
  if a = 0 ∨ b = 0 then .ok 0 else mul "least common multiple" (a / a.gcd b) b

/-- The least common multiple of a list, taken from left to right and starting from one. -/
def lcmAll (values : List Nat) : Except RangeError Nat :=
  values.foldlM lcm 1

/-! ## When the operations are defined -/

theorem add_eq_ok_iff {what : String} {a b c : Nat} :
    add what a b = .ok c ↔ a + b < bound ∧ c = a + b := by
  grind [add]

theorem mul_eq_ok_iff {what : String} {a b c : Nat} :
    mul what a b = .ok c ↔ a * b < bound ∧ c = a * b := by
  grind [mul]

theorem sub_eq_ok_iff {what : String} {a b c : Nat} :
    sub what a b = .ok c ↔ b ≤ a ∧ c = a - b := by
  grind [sub]

/-! ## Digits -/

theorem toString_inj {m n : Nat} (h : toString m = toString n) : m = n := by
  rw [Nat.toString_eq_ofList_toDigits, Nat.toString_eq_ofList_toDigits, String.ofList_inj] at h
  have hvalue := congrArg (Nat.ofDigitChars 10 · 0) h
  simpa only [Nat.ofDigitChars_ten_toDigits] using hvalue

end Counter

end Dataflow

/-!
# Clocks

The evaluation of a graph asks little of its dates and durations: where time starts, how a duration
is added to a date, which of two dates comes first, which of two is the later one, and which values
are durations at all.  A type with these operations is a `Clock`; everything else in the library is
written over an arbitrary one.

* `Clock` — the operations, and the two laws that the defaults of the library rely on.
* `Throughput` — iterations per unit of time, unbounded when an iteration takes no time.
-/

namespace Dataflow

/-- Dates and durations. -/
class Clock (τ : Type) where
  /-- The date at which an iteration starts, and the duration of what takes no time. -/
  zero : τ
  /-- One unit of time. -/
  one : τ
  /-- The date that lies a duration after a date. -/
  add : τ → τ → τ
  /-- The order in which completions are processed. -/
  order : τ → τ → Ordering
  /-- The later of two dates. -/
  latest : τ → τ → τ
  /-- May a firing take this long?  Durations are finite and not negative. -/
  isDuration : τ → Bool
  /-- How many iterations of this duration fill one unit of time, if the duration is positive. -/
  perUnit? : τ → Option τ
  /-- The text of a date or a duration. -/
  text : τ → String
  isDuration_zero : isDuration zero = true
  isDuration_one : isDuration one = true

/-- Iterations per unit of time. -/
inductive Throughput (τ : Type) where
  | unbounded
  | finite (value : τ)
  deriving DecidableEq, Repr

namespace Throughput

variable {τ : Type} [Clock τ]

/-- The throughput of iterations of a given duration. -/
def ofDuration (duration : τ) : Throughput τ :=
  match Clock.perUnit? duration with
  | some value => .finite value
  | none => .unbounded

/-- The text of a throughput. -/
def text : Throughput τ → String
  | .unbounded => "inf"
  | .finite value => Clock.text value

end Throughput

end Dataflow

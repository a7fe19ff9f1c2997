import Dataflow.Clock
import Dataflow.Counter

/-!
# The agenda

Firings in flight wait for the date at which they end.  The agenda groups them: one batch for each
date, in the order of the dates, and in a batch one entry for each actor, the last actor first.
Firings that begin together are entered in the order of the actors, so that most entries go to the
front.

* `Batch`, `Agenda` — the firings that end at one date, and all of them.
* `Agenda.enter` — adds firings of an actor that end at a date; dates that the clock takes for equal
  share a batch, which keeps the date it was opened with.
-/

namespace Dataflow

/-- Firings that end at the same date: for each actor how many. -/
structure Batch (τ : Type) where
  date : τ
  /-- The entries, the last actor first. -/
  firings : List (Nat × Nat)
  deriving Repr

/-- The batches in the order of their dates. -/
abbrev Agenda (τ : Type) := List (Batch τ)

namespace Batch

/-- Adds firings of an actor to the entries of a batch. -/
def enter (a n : Nat) : List (Nat × Nat) → Except RangeError (List (Nat × Nat))
  | [] => .ok [(a, n)]
  | (b, m) :: rest =>
    if b < a then .ok ((a, n) :: (b, m) :: rest)
    else if a = b then (Counter.add "firings in flight" m n).map fun total => (b, total) :: rest
    else (enter a n rest).map ((b, m) :: ·)

end Batch

namespace Agenda

variable {τ : Type} [Clock τ]

/-- Adds firings of an actor that end at a date. -/
def enter (date : τ) (a n : Nat) : Agenda τ → Except RangeError (Agenda τ)
  | [] => .ok [⟨date, [(a, n)]⟩]
  | batch :: rest =>
    match Clock.order date batch.date with
    | .lt => .ok (⟨date, [(a, n)]⟩ :: batch :: rest)
    | .eq => (Batch.enter a n batch.firings).map fun firings => ⟨batch.date, firings⟩ :: rest
    | .gt => (enter date a n rest).map (batch :: ·)

end Agenda

end Dataflow

import Dataflow.Failure

/-!
# Attempts

An operation on a state may fail half-way, and what it did until then remains.  An `Attempt` is the
state that an operation leaves and the failure, if there was one.

* `Attempt.andThen` — goes on from the state that is left, unless there was a failure.
* `Attempt.each` — does so for every member of a list in turn.
* `Attempt.outcome` — the state of an operation that finished, or the failure alone.
-/

namespace Dataflow

/-- What an operation on a state leaves. -/
structure Attempt (τ σ : Type) where
  /-- The state, also after a failure. -/
  state : σ
  /-- Why the operation stopped, if it did not finish. -/
  failure : Option (Failure τ)

namespace Attempt

variable {τ σ : Type}

/-- An operation that finished. -/
def finished (state : σ) : Attempt τ σ := ⟨state, none⟩

/-- An operation that stopped. -/
def stopped (state : σ) (failure : Failure τ) : Attempt τ σ := ⟨state, some failure⟩

/-- The same attempt on a part of a larger state. -/
@[inline]
def map {ρ : Type} (f : σ → ρ) (attempt : Attempt τ σ) : Attempt τ ρ :=
  ⟨f attempt.state, attempt.failure⟩

/-- Goes on with `next` from the state that an operation left, unless it stopped. -/
@[inline]
def andThen (attempt : Attempt τ σ) (next : σ → Attempt τ σ) : Attempt τ σ :=
  match attempt.failure with
  | some failure => stopped attempt.state failure
  | none => next attempt.state

/-- Does something with every member of a list in turn, until it stops. -/
@[specialize]
def each {α : Type} (f : α → σ → Attempt τ σ) : List α → σ → Attempt τ σ
  | [], state => finished state
  | a :: rest, state => (f a state).andThen (each f rest)

/-- The outcome without what remains of a failure. -/
def outcome (attempt : Attempt τ σ) : Except (Failure τ) σ :=
  match attempt.failure with
  | some failure => .error failure
  | none => .ok attempt.state

end Attempt

end Dataflow

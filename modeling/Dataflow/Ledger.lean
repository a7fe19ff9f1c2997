import Dataflow.Attempt
import Dataflow.Graph.Incidence
import Dataflow.Journal

/-!
# The token ledger

A ledger follows one iteration of a graph: the tokens in every edge, which start as its delay, and
for every actor how often it fired and when it last started and finished.  It keeps a journal of
the tokens that move.

* `Ledger`, `Graph.ledger` — the ledgers of a graph, and the one before the first firing.
* `Ledger.produce` — puts the tokens of some firings into the edges that leave an actor.  It goes
  from the youngest edge to the oldest and stops where a number would be no counter; what was put
  until then stays.
* `Ledger.consume` — takes the tokens of some firings out of the edges that enter an actor and
  counts the firings, or does nothing if an edge holds too few.
* `Ledger.enabled` — how often an actor can fire, by the tokens there are and the firings it owes.
-/

namespace Dataflow

/-- The tokens, firings and dates of an iteration of a graph. -/
structure Ledger {τ : Type} (g : Graph τ) where
  /-- The tokens in every edge. -/
  held : Vector Nat g.edges.size
  /-- The firings of every actor so far. -/
  fired : Vector Nat g.actors.size
  /-- The dates at which the actors last started. -/
  starts : Vector τ g.actors.size
  /-- The dates at which the actors last finished. -/
  finishes : Vector τ g.actors.size
  /-- The edges at every actor. -/
  incidence : Incidence
  journal : Journal τ
  /-- The edges at every actor are those of the graph. -/
  incidence_eq : incidence = g.incidence := by rfl

/-- The ledger before the first firing, with a journal that keeps nothing. -/
def Graph.ledger {τ : Type} [Clock τ] (g : Graph τ) : Ledger g where
  held := ⟨g.edges.map Edge.delay, by simp⟩
  fired := .replicate _ 0
  starts := .replicate _ Clock.zero
  finishes := .replicate _ Clock.zero
  incidence := g.incidence
  journal := .blank .off

namespace Ledger

variable {τ : Type} {g : Graph τ}

/-! ## Reading the ledger -/

/-- The tokens in an edge. -/
def tokens (l : Ledger g) (e : Nat) : Nat := l.held[e]?.getD 0

/-- The firings of an actor so far. -/
def firings (l : Ledger g) (a : Nat) : Nat := l.fired[a]?.getD 0

/-- The date at which an actor last started; zero if it never did. -/
def startDate [Clock τ] (l : Ledger g) (a : Nat) : τ := l.starts[a]?.getD Clock.zero

/-- The date at which an actor last finished or will finish; zero if it never started. -/
def finishDate [Clock τ] (l : Ledger g) (a : Nat) : τ := l.finishes[a]?.getD Clock.zero

/-- The edges that leave an actor, the youngest first. -/
def outgoing (l : Ledger g) (a : Nat) : List Nat := l.incidence.outgoing a

/-- The edges that enter an actor, the youngest first. -/
def incoming (l : Ledger g) (a : Nat) : List Nat := l.incidence.incoming a

theorem outgoing_eq {l : Ledger g} {a : Nat} : l.outgoing a = g.outgoing a := by
  rw [outgoing, l.incidence_eq, Graph.outgoing_incidence]

theorem incoming_eq {l : Ledger g} {a : Nat} : l.incoming a = g.incoming a := by
  rw [incoming, l.incidence_eq, Graph.incoming_incidence]

/-- Has every actor fired as often as it has to? -/
def isComplete (l : Ledger g) : Bool :=
  (List.range g.actors.size).all fun a => l.firings a == g.repetitions a

/-- The actors that have not fired as often as they have to. -/
def pending (l : Ledger g) : List Nat :=
  (List.range g.actors.size).filter fun a => l.firings a != g.repetitions a

/-- The firings that the actors owe together. -/
def owed (l : Ledger g) : Nat :=
  (List.range g.actors.size).foldl (fun n a => n + (g.repetitions a - l.firings a)) 0

/-- How often an actor can fire: by the tokens in the edges that enter it, and no more often than it
owes.  Without such edges only the firings that it owes count. -/
def enabled (l : Ledger g) (a : Nat) : Nat :=
  (l.incoming a).foldl (fun n e => min n (l.tokens e / g.consumption e))
    (g.repetitions a - l.firings a)

/-- The actors that edges from some of the actors `sources` lead to, each once and in order. -/
def downstream (l : Ledger g) (sources : List Nat) : List Nat :=
  g.targets (sources.flatMap l.outgoing)

/-! ## Writing the ledger -/

/-- Notes an event in the journal. -/
def note (event : Event τ) (l : Ledger g) : Ledger g := { l with journal := l.journal.note event }

/-- The same ledger with an empty journal. -/
def recording (threshold : Level) (l : Ledger g) : Ledger g :=
  { l with journal := .blank threshold }

/-- Changes the tokens in an edge. -/
def setTokens (e tokens : Nat) (l : Ledger g) : Ledger g :=
  { l with held := l.held.setIfInBounds e tokens }

/-- Changes the firings of an actor. -/
def setFirings (a firings : Nat) (l : Ledger g) : Ledger g :=
  { l with fired := l.fired.setIfInBounds a firings }

/-- Changes when an actor last started. -/
def setStart (a : Nat) (date : τ) (l : Ledger g) : Ledger g :=
  { l with starts := l.starts.setIfInBounds a date }

/-- Changes when an actor last finished. -/
def setFinish (a : Nat) (date : τ) (l : Ledger g) : Ledger g :=
  { l with finishes := l.finishes.setIfInBounds a date }

/-- The tokens that `n` firings of its source put into an edge, and those that it holds after
that. -/
def deposit (l : Ledger g) (n e : Nat) : Except RangeError (Nat × Nat) := do
  let added ← Counter.mul "tokens produced" n (g.production e)
  let now ← Counter.add "tokens on edge" (l.tokens e) added
  return (added, now)

/-- Puts the tokens of `n` firings of an actor into one of the edges that leave it. -/
def produceInto (a n e : Nat) (l : Ledger g) : Attempt τ (Ledger g) :=
  match l.deposit n e with
  | .ok (added, now) =>
    .finished ((l.setTokens e now).note (.produced (g.actorName a) added (g.sourcePortName e) now))
  | .error error => .stopped l (.range error)

/-- Puts the tokens of `n` firings of an actor into the edges that leave it. -/
def produce (a n : Nat) (l : Ledger g) : Attempt τ (Ledger g) :=
  Attempt.each (produceInto a n) (l.outgoing a) l

/-- The tokens that are left in an edge, with its number, when `n` firings of its target have taken
theirs. -/
def withdraw (l : Ledger g) (a n e : Nat) : Except (Failure τ) (Nat × Nat) := do
  let needed ← (Counter.mul "tokens consumed" n (g.consumption e)).mapError .range
  if needed ≤ l.tokens e then return (e, l.tokens e - needed)
  else throw (.shortage n (g.actorName a) needed (g.targetPortName e) (l.tokens e))

/-- The tokens that are left in the edges that enter an actor, and its firings, when `n` firings
of it have taken their tokens and are counted. -/
def withdrawals (l : Ledger g) (a n : Nat) : Except (Failure τ) (List (Nat × Nat) × Nat) := do
  let left ← (l.incoming a).mapM (l.withdraw a n)
  let total ← (Counter.add "firing count" (l.firings a) n).mapError .range
  return (left, total)

/-- Takes the tokens of `n` firings of an actor and counts the firings; a refused call leaves the
ledger as it is. -/
def consume (a n : Nat) (l : Ledger g) : Attempt τ (Ledger g) :=
  match l.withdrawals a n with
  | .ok (left, total) =>
    let after := left.foldl (fun l (e, tokens) => l.setTokens e tokens) l
    .finished ((after.setFirings a total).note (.fired (g.actorName a) n total))
  | .error failure => .stopped l failure

end Ledger

end Dataflow

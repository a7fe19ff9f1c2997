/-!
# Levels of the journal

Each reported event has a level; a threshold lets through the events of its own level and of the
more severe ones.

* `Level.admits` — does a threshold let a level through?
* `Level.name`, `Level.read?` — the text of a level, read in any mixture of cases.
-/

namespace Dataflow

/-- The levels, from none to all. -/
inductive Level where
  | off
  | error
  | warn
  | info
  | debug
  | trace
  deriving DecidableEq, Repr

namespace Level

/-- How much a threshold at this level lets through. -/
def rank : Level → Nat
  | .off => 0
  | .error => 1
  | .warn => 2
  | .info => 3
  | .debug => 4
  | .trace => 5

/-- Does a threshold let events of a level through? -/
def admits (threshold level : Level) : Bool := decide (level.rank ≤ threshold.rank)

/-- The text of a level. -/
def name : Level → String
  | .off => "OFF"
  | .error => "ERROR"
  | .warn => "WARN"
  | .info => "INFO"
  | .debug => "DEBUG"
  | .trace => "TRACE"

/-- All levels. -/
def all : List Level := [.off, .error, .warn, .info, .debug, .trace]

/-- The level that a text names; the names are in ASCII letters. -/
def read? (text : String) : Option Level :=
  all.find? fun level => level.name == text.map Char.toUpper

/-- A level is read back from its text. -/
theorem read?_name (level : Level) : read? level.name = some level := by
  cases level <;> decide +kernel

end Level

end Dataflow

import Dataflow.Clock
import Dataflow.Evaluation.Method
import Dataflow.Journal.Level

/-!
# The journal

Operations report what they do as events.  An event is a value with the names and numbers of what
happened; its level and its wording are fixed here.

* `Event` — what can be reported.
* `Event.level`, `Event.text` — its level and wording.
* `Event.lines` — the lines of the events that a threshold lets through.
* `Journal` — the events that an operation in many steps has reported so far.
-/

namespace Dataflow

/-- What an operation can report. -/
inductive Event (τ : Type) where
  /-- An actor was defined by name. -/
  | defined (graph actor : String)
  /-- An actor was expanded into instances. -/
  | instances (expansion : String) (count : Nat) (actor : String)
  /-- Edges with a delay were left out. -/
  | dropped (graph : String) (count : Nat)
  /-- The period of a graph was found. -/
  | normalized (graph : String) (period : Nat)
  /-- The repetition vector of a graph was found. -/
  | repetitionVector (graph : String) (counts : List (String × Nat))
  /-- Tokens were put into an edge, which then held `now` of them. -/
  | produced (actor : String) (tokens : Nat) (port : String) (now : Nat)
  /-- An actor fired, `total` times so far. -/
  | fired (actor : String) (count total : Nat)
  /-- Firings end at a date. -/
  | completing (date : τ) (firings : List (String × Nat))
  /-- No firing is left in flight, but actors owe firings. -/
  | deadlocked (graph : String) (elapsed : τ) (waiting : List (String × Nat × Nat))
  /-- A level of a design was examined for circuits. -/
  | examined (depth : Nat) (graph : String) (cyclic : Bool)
  /-- The throughput of a graph was found. -/
  | evaluated (graph : String) (method : Method) (throughput : Throughput τ)
  /-- A graph deadlocked during an evaluation. -/
  | notLive (graph : String) (method : Method) (elapsed : τ)
  /-- Atomic actors without an entry in a timing table got the default. -/
  | defaulted (count : Nat) (duration : τ)
  /-- Entries of a timing table belong to no atomic actor. -/
  | unusedTimings (names : List String)
  deriving Repr

namespace Event

variable {τ : Type}

/-- The level of an event. -/
def level : Event τ → Level
  | .deadlocked .. | .notLive .. | .unusedTimings _ => .warn
  | .evaluated .. => .info
  | .defined .. | .produced .. | .fired .. => .trace
  | .instances .. | .dropped .. | .normalized .. | .repetitionVector .. | .completing ..
  | .examined .. | .defaulted .. => .debug

/-- The words for whether a graph has a circuit. -/
def cyclicWord (cyclic : Bool) : String := if cyclic then "cyclic" else "acyclic"

/-- Items with a comma between them. -/
def listed (items : List String) : String := ", ".intercalate items

variable [Clock τ]

/-- The wording of an event. -/
def text : Event τ → String
  | .defined graph actor => s!"{graph}: adding actor `{actor}'"
  | .instances expansion count actor => s!"{expansion}: {count} instances of `{actor}'"
  | .dropped graph count => s!"{graph}: dropped {count} delayed edges"
  | .normalized graph period => s!"{graph}: normalization period {period}"
  | .repetitionVector graph counts =>
    s!"{graph}: repetition vector [" ++ listed (counts.map fun (a, n) => s!"{a}={n}") ++ "]"
  | .produced actor tokens port now => s!"{actor} produced {tokens} tokens on `{port}' ({now} now)"
  | .fired actor count total => s!"{actor} fired {count} times ({total} so far)"
  | .completing date firings =>
    "t=" ++ Clock.text date ++ ": completing " ++ listed (firings.map fun (a, n) => s!"{a}x{n}")
  | .deadlocked graph elapsed waiting =>
    s!"{graph}: deadlocked after " ++ Clock.text elapsed ++ ", waiting: "
      ++ listed (waiting.map fun (a, done, owed) => s!"{a} ({done}/{owed})")
  | .examined depth graph cyclic =>
    String.join (List.replicate depth "  ") ++ s!"{graph}: " ++ cyclicWord cyclic
  | .evaluated graph method throughput =>
    s!"{graph} ({method.name}): throughput value = " ++ throughput.text
  | .notLive graph method elapsed =>
    s!"{graph} ({method.name}): not live, partial iteration took " ++ Clock.text elapsed
  | .defaulted count duration =>
    s!"{count} atomic actors use the default timing " ++ Clock.text duration
  | .unusedTimings names => "timing entries do not match any atomic actor: " ++ listed names

/-- The line of an event: its level and its wording. -/
def line (e : Event τ) : String := e.level.name ++ " " ++ e.text

/-- The lines of the events that a threshold lets through. -/
def lines (threshold : Level) (events : List (Event τ)) : List String :=
  (events.filter fun e => threshold.admits e.level).map line

end Event

/-- A journal keeps the events that its threshold lets through. -/
structure Journal (τ : Type) where
  threshold : Level
  /-- The events so far, the last one first. -/
  entries : List (Event τ)
  deriving Repr

namespace Journal

variable {τ : Type}

/-- A journal without entries. -/
def blank (threshold : Level) : Journal τ := ⟨threshold, []⟩

/-- Keeps an event, if the threshold lets it through. -/
def note (e : Event τ) (j : Journal τ) : Journal τ :=
  if j.threshold.admits e.level then ⟨j.threshold, e :: j.entries⟩ else j

/-- The events that were kept, in order. -/
def events (j : Journal τ) : List (Event τ) := j.entries.reverse

end Journal

end Dataflow

import Dataflow.Decimal.Literal
import Dataflow.Evaluation.Settings
import Dataflow.Journal.Level
import Dataflow.Parameters.Error

/-!
# Parameters of an evaluation

The settings of an evaluation and the threshold of its journal, read from a list of words such as
`--method single-rate --default-timing 10`.

* `Choice` — the options that take a value, each with the words that select it.
* `Draft` — the values read so far; an option may be given once.
* **`Parameters.read`** — the parameters of a list of words.

An option consumes the word after it, whatever that is.  A lone `--` ends the options; after it, and
for every word that is no option, there is nothing to accept, because an evaluation takes no other
arguments.  A request for help wins over everything but an error found on the way to it or an option
after it.
-/

namespace Dataflow

/-- The settings of an evaluation and the threshold of its journal. -/
structure Parameters where
  settings : Settings Float
  level : Level
  deriving Repr

namespace Parameters

/-- The options that take a value. -/
inductive Choice where
  | method
  | atomicDuration
  | hierarchicalDuration
  | interfaceDuration
  | level
  deriving DecidableEq, Repr

/-- The words that select an option with a value. -/
def choices : List (String × Choice) :=
  [("--method", .method), ("-m", .method), ("--default-timing", .atomicDuration),
   ("--hierarchical-timing", .hierarchicalDuration), ("--interface-timing", .interfaceDuration),
   ("--log", .level)]

/-- The word that switches the check of the design off. -/
def uncheckedSwitch : String := "--no-validate"

/-- The words that ask for help. -/
def helpWords : List String := ["--help", "help"]

/-- The values read so far. -/
structure Draft where
  method : Option Method
  atomicDuration : Option Float
  hierarchicalDuration : Option Float
  interfaceDuration : Option Float
  level : Option Level
  unchecked : Bool
  help : Bool

/-- Nothing read yet. -/
def Draft.empty : Draft := ⟨none, none, none, none, none, false, false⟩

/-- A number as the value of an option. -/
def readNumber (text : String) : Except ValueError Float :=
  if text = "" then .error .emptyNumber
  else match Literal.float? text with
    | some value => .ok value
    | none => .error .badNumber

/-- Fills a slot that is still free with the value of a text. -/
def fill {α : Type} (slot : Option α) (read : String → Except ValueError α) (text : String) :
    Except ValueError (Option α) :=
  match slot with
  | some _ => .error .repeated
  | none => (read text).map some

/-- The draft with the value of an option filled in. -/
def Draft.set (d : Draft) (text : String) : Choice → Except ValueError Draft
  | .method => do
    let slot ← fill d.method (fun t => (Method.read t).mapError .method) text
    return { d with method := slot }
  | .atomicDuration => do
    let slot ← fill d.atomicDuration readNumber text
    return { d with atomicDuration := slot }
  | .hierarchicalDuration => do
    let slot ← fill d.hierarchicalDuration readNumber text
    return { d with hierarchicalDuration := slot }
  | .interfaceDuration => do
    let slot ← fill d.interfaceDuration readNumber text
    return { d with interfaceDuration := slot }
  | .level => do
    let slot ← fill d.level (fun t => (Level.read? t).elim (.error .unknownLevel) .ok) text
    return { d with level := slot }

/-- Reads words, options first. -/
def readWords (d : Draft) : List String → Except ParameterError Draft
  | [] => .ok d
  | word :: rest =>
    if word ∈ helpWords then readWords { d with help := true } rest
    else if word = "--" then
      match rest with
      | [] => .ok d
      | argument :: _ => .error (.unrecognized argument)
    else if ¬ word.startsWith "-" then .error (.unrecognized word)
    else if d.help then .error .afterHelp
    else if word = uncheckedSwitch then readWords { d with unchecked := true } rest
    else match choices.lookup word with
      | none => .error (.unrecognized word)
      | some choice =>
        match rest with
        | [] => .error (.noValue word)
        | text :: rest =>
          match d.set text choice with
          | .error cause => .error (.badValue word text cause)
          | .ok d => readWords d rest

/-- The parameters of a draft, with the standard settings for what it leaves open. -/
def ofDraft (d : Draft) : Parameters where
  settings :=
    { method := d.method.getD Settings.standard.method
      atomicDuration := d.atomicDuration.getD Settings.standard.atomicDuration
      hierarchicalDuration := d.hierarchicalDuration.getD Settings.standard.hierarchicalDuration
      interfaceDuration := d.interfaceDuration.getD Settings.standard.interfaceDuration
      checked := !d.unchecked }
  level := d.level.getD .warn

/-- The parameters of a list of words. -/
def read (words : List String) : Except ParameterError Parameters :=
  match readWords Draft.empty words with
  | .error e => .error e
  | .ok d => if d.help then .error .help else .ok (ofDraft d)

end Parameters

end Dataflow

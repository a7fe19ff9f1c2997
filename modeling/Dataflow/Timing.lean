import Dataflow.Attempt
import Dataflow.Evaluation.Settings
import Dataflow.Hierarchy.Design
import Dataflow.Journal

/-!
# Timing tables

A timing table gives durations to atomic actors by name.  Applying it gives every actor of a
design a duration: atomic actors their entry or a default, hierarchical actors and interfaces what
the settings say for their kind.

* `TimingTable` — the entries, in the order of the names and each name once.
* `TimingTable.insert`, `TimingTable.get?` — a later entry replaces an earlier one of its name.
* `TimingTable.assign` — writes durations into a design; no duration is written before all entries
  are checked.
* **`TimingTable.apply`** — the design with its durations, or a failure if an entry is no duration.
-/

namespace Dataflow

/-- The entries of a timing table. -/
abbrev TimingTable (τ : Type) := List (String × τ)

namespace TimingTable

variable {τ : Type}

/-- The table with an entry for a name. -/
def insert (name : String) (duration : τ) : TimingTable τ → TimingTable τ
  | [] => [(name, duration)]
  | (n, d) :: rest =>
    if name = n then (n, duration) :: rest
    else if name < n then (name, duration) :: (n, d) :: rest
    else (n, d) :: insert name duration rest

/-- The table with the entries of a list, inserted in turn. -/
def ofList (entries : List (String × τ)) : TimingTable τ :=
  entries.foldl (fun table (name, duration) => table.insert name duration) []

/-- The entry for a name. -/
def get? (table : TimingTable τ) (name : String) : Option τ := List.lookup name table

/-- The duration of an actor, by its kind. -/
def durationOf (table : TimingTable τ) (settings : Settings τ) (a : Actor τ) : τ :=
  match a.kind with
  | .atomic => (table.get? a.name).getD settings.atomicDuration
  | .hierarchical _ => settings.hierarchicalDuration
  | .interface _ => settings.interfaceDuration

/-- The names of all atomic actors of a design. -/
def atomicNames (d : Design τ) : List String :=
  d.graphs.toList.flatMap fun g => (g.actors.toList.filter (·.kind == .atomic)).map Actor.name

/-- The entries that belong to no atomic actor. -/
def unused (table : TimingTable τ) (d : Design τ) : List String :=
  (table.map Prod.fst).filter fun name => !(atomicNames d).contains name

/-- How many atomic actors have no entry. -/
def defaulted (table : TimingTable τ) (d : Design τ) : Nat :=
  (atomicNames d).countP fun name => (table.get? name).isNone

variable [Clock τ]

/-- The first entry that is no duration. -/
def badEntry? (table : TimingTable τ) : Option (String × τ) :=
  table.find? fun (_, duration) => !Clock.isDuration duration

/-- Writes the durations of a table and of settings into a design; a refused call leaves the design
as it is. -/
def assign (table : TimingTable τ) (settings : Settings τ) (d : Design τ) :
    Attempt τ (Design τ) :=
  match table.badEntry? with
  | some (name, duration) => .stopped d (.malformed (.badTiming name duration))
  | none => .finished (d.updateActors fun a => { a with duration := table.durationOf settings a })

/-- The design with the durations of a table and of settings. -/
def apply (table : TimingTable τ) (settings : Settings τ) (d : Design τ) :
    Except (Failure τ) (Design τ) := (table.assign settings d).outcome

/-- What is reported while a table is applied. -/
def applyEvents (table : TimingTable τ) (settings : Settings τ) (d : Design τ) : List (Event τ) :=
  match table.badEntry? with
  | some _ => []
  | none =>
    (if table.defaulted d = 0 then []
     else [.defaulted (table.defaulted d) settings.atomicDuration])
      ++ (if (table.unused d).isEmpty then [] else [.unusedTimings (table.unused d)])

end TimingTable

end Dataflow

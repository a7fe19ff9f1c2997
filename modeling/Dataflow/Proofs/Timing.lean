import Dataflow.Graph.WellFormed
import Dataflow.Proofs.Attempt
import Dataflow.Timing

/-!
# Durations from a timing table

A timing table is checked as a whole before the first duration is written, so it is applied to all
actors of a design or to none.  The settings that stand in for missing entries are not checked: what
they say about an actor is written as it is.

* `Graph.Retimes` — a graph with other durations and nothing else changed.
* `TimingTable.Suits` — an actor gets a duration, from an entry or from settings that hold one.
* `TimingTable.assign_eq_stopped`, `TimingTable.assign_eq_finished_iff` — the two ends of a call.
* **`TimingTable.assign_durations`** — a refused call leaves the design as it was, and one that is
  accepted changes durations only; they are durations exactly where table and settings suit.
* **`TimingTable.assign_unchecked`** — settings that do not suit are written nevertheless.
-/

namespace Dataflow

variable {τ : Type}

/-! ## Graphs with other durations -/

namespace Graph

/-- A graph is the other one with durations of its own: every actor has the duration that is meant
for it, and all else is the same. -/
structure Retimes (duration : Actor τ → τ) (g h : Graph τ) : Prop where
  name_eq : h.name = g.name
  edges_eq : h.edges = g.edges
  actors_eq : h.actors.toList = g.actors.toList.map fun a => { a with duration := duration a }

lemma actors_updateActors (f : Actor τ → Actor τ) (g : Graph τ) :
    (g.updateActors fun _ a => f a).actors = g.actors.map f :=
  Array.ext (by simp [updateActors]) fun i _ _ => by simp [updateActors]

lemma retimes_updateActors (duration : Actor τ → τ) (g : Graph τ) :
    g.Retimes duration (g.updateActors fun _ a => { a with duration := duration a }) where
  name_eq := rfl
  edges_eq := rfl
  actors_eq := by rw [actors_updateActors, Array.toList_map]

variable [Clock τ] {g : Graph τ}

lemma exists_of_actorsDefect?_eq_badDuration {graph actor place : String} {duration : τ} :
    ∀ {actors : List (Actor τ)} {seen : Std.TreeSet String},
      actorsDefect? graph seen actors = some (.badDuration actor place duration) →
        ∃ a ∈ actors, Clock.isDuration a.duration = false
  | [], seen, h => by simp [actorsDefect?] at h
  | a :: rest, seen, h => by
      rw [actorsDefect?] at h
      split at h
      · simp at h
      · split at h
        · simp at h
        · split at h
          case isTrue hbad => exact ⟨a, List.mem_cons_self, hbad⟩
          case isFalse =>
            obtain ⟨b, hb, hbad⟩ := exists_of_actorsDefect?_eq_badDuration h
            exact ⟨b, List.mem_cons_of_mem a hb, hbad⟩

/-- Where all durations are durations, validation does not complain about one. -/
lemma validate_ne_badDuration (hg : ∀ a ∈ g.actors, Clock.isDuration a.duration = true)
    (actor graph : String) (duration : τ) :
    g.validate ≠ .error (.malformed (.badDuration actor graph duration)) := by
  intro h
  have hdefect : g.defect? = some (.badDuration actor graph duration) := by
    rw [validate] at h
    split at h
    case h_1 defect hdefect => rw [hdefect, Failure.malformed.inj (Except.error.inj h)]
    case h_2 => cases h
  rw [defect?, Option.or_eq_some_iff] at hdefect
  rcases hdefect with hactors | ⟨_, hedges⟩
  · obtain ⟨a, ha, hbad⟩ := exists_of_actorsDefect?_eq_badDuration hactors
    rw [hg a (Array.mem_toList_iff.1 ha)] at hbad
    cases hbad
  · obtain ⟨e, _, he⟩ := Array.exists_of_findSome?_eq_some hedges
    rw [edgeDefect?] at he
    repeat' split at he
    all_goals cases he

end Graph

namespace TimingTable

variable [Clock τ] {table : TimingTable τ} {settings : Settings τ} {d d' : Design τ}

/-! ## What a call does -/

lemma badEntry?_eq_none_iff :
    table.badEntry? = none ↔ ∀ entry ∈ table, Clock.isDuration entry.2 = true := by
  simp [List.find?_eq_none, badEntry?]

/-- A call that is refused writes nothing, and names the first entry that is no duration. -/
lemma assign_eq_stopped {failure : Failure τ}
    (h : table.assign settings d = .stopped d' failure) :
    d' = d ∧ ∃ before entry after, table = before ++ entry :: after ∧
      (∀ earlier ∈ before, Clock.isDuration earlier.2 = true) ∧
      Clock.isDuration entry.2 = false ∧ failure = .malformed (.badTiming entry.1 entry.2) := by
  rw [assign] at h
  split at h
  case h_1 name duration hbad =>
    obtain ⟨hduration, before, after, rfl, hbefore⟩ := List.find?_eq_some_iff_append.1 hbad
    simp only [Attempt.stopped, Attempt.mk.injEq, Option.some.injEq] at h
    exact ⟨h.1.symm, before, (name, duration), after, rfl, by simpa using hbefore,
      by simpa using hduration, h.2.symm⟩
  case h_2 => simp [Attempt.finished, Attempt.stopped] at h

/-- A call is accepted if every entry is a duration, and writes a duration into every actor. -/
lemma assign_eq_finished_iff :
    table.assign settings d = .finished d' ↔
      (∀ entry ∈ table, Clock.isDuration entry.2 = true) ∧
      d.updateActors (fun a => { a with duration := table.durationOf settings a }) = d' := by
  rw [assign, ← badEntry?_eq_none_iff]
  cases table.badEntry? <;> simp

/-! ## The durations that are written -/

/-- An actor gets a duration: from its entry, or from settings that hold one for its kind. -/
def Suits (table : TimingTable τ) (settings : Settings τ) (a : Actor τ) : Prop :=
  match a.kind with
  | .atomic => table.get? a.name = none → Clock.isDuration settings.atomicDuration = true
  | .hierarchical _ => Clock.isDuration settings.hierarchicalDuration = true
  | .interface _ => Clock.isDuration settings.interfaceDuration = true

omit [Clock τ] in
lemma mem_of_get? {name : String} {duration : τ} (h : table.get? name = some duration) :
    (name, duration) ∈ table := by
  obtain ⟨before, after, rfl, _⟩ := List.lookup_eq_some_iff.1 h
  exact List.mem_append_right _ List.mem_cons_self

lemma isDuration_durationOf_iff (htable : ∀ entry ∈ table, Clock.isDuration entry.2 = true)
    {a : Actor τ} :
    Clock.isDuration (table.durationOf settings a) = true ↔ table.Suits settings a := by
  rw [durationOf, Suits]
  cases a.kind with
  | atomic =>
    cases hentry : table.get? a.name with
    | none => simp
    | some duration => simpa using htable _ (mem_of_get? hentry)
  | hierarchical refinement => exact Iff.rfl
  | interface direction => exact Iff.rfl

/-- The settings that hold unless others are chosen suit every actor. -/
lemma suits_standard (table : TimingTable Float) (a : Actor Float) :
    table.Suits Settings.standard a := by
  rw [Suits]
  cases a.kind with
  | atomic =>
    intro _
    decide
  | hierarchical refinement => exact Clock.isDuration_one
  | interface direction => exact Clock.isDuration_zero

/-- **Durations.**  A call that is refused leaves the design as it was; its failure names the first
entry that is no duration, and there is one exactly if the call is refused.  A call that is accepted
writes a duration into every actor of every graph, by the kind of the actor, and changes nothing
else.  Whether all that it writes are durations is a matter of the settings: it is so exactly if they
hold a duration for every actor that is not covered by an entry.  Then no duration is a reason for
validation to refuse a graph. -/
theorem assign_durations (table : TimingTable τ) (settings : Settings τ) (d : Design τ) :
    (∀ d' failure, table.assign settings d = .stopped d' failure →
        d' = d ∧ ∃ before entry after, table = before ++ entry :: after ∧
          (∀ earlier ∈ before, Clock.isDuration earlier.2 = true) ∧
          Clock.isDuration entry.2 = false ∧
          failure = .malformed (.badTiming entry.1 entry.2)) ∧
      ((∃ d', table.assign settings d = .finished d') ↔
        ∀ entry ∈ table, Clock.isDuration entry.2 = true) ∧
      ∀ d', table.assign settings d = .finished d' →
        d'.top = d.top ∧
          List.Forall₂ (Graph.Retimes (table.durationOf settings)) d.graphs.toList
            d'.graphs.toList ∧
          ((∀ h ∈ d'.graphs, ∀ a ∈ h.actors, Clock.isDuration a.duration = true) ↔
            ∀ g ∈ d.graphs, ∀ a ∈ g.actors, table.Suits settings a) ∧
          ((∀ g ∈ d.graphs, ∀ a ∈ g.actors, table.Suits settings a) →
            ∀ h ∈ d'.graphs, ∀ actor graph duration,
              h.validate ≠ .error (.malformed (.badDuration actor graph duration))) := by
  refine ⟨fun d' failure => assign_eq_stopped, ?_, fun d' hd' => ?_⟩
  · simp only [assign_eq_finished_iff, exists_and_left, exists_eq', and_true]
  · obtain ⟨htable, rfl⟩ := assign_eq_finished_iff.1 hd'
    have hsuits : (∀ h ∈ (d.updateActors fun a =>
          { a with duration := table.durationOf settings a }).graphs, ∀ a ∈ h.actors,
            Clock.isDuration a.duration = true) ↔
        ∀ g ∈ d.graphs, ∀ a ∈ g.actors, table.Suits settings a := by
      simp [Design.updateActors, Graph.actors_updateActors, isDuration_durationOf_iff htable]
    refine ⟨rfl, ?_, hsuits, fun hall h hh => ?_⟩
    · simp only [Design.updateActors, Array.toList_map, List.forall₂_map_right_iff]
      exact List.forall₂_same.2 fun g _ => g.retimes_updateActors _
    · exact Graph.validate_ne_badDuration (hsuits.2 hall h hh)

/-- Two graphs with actors of every kind, the second one standing behind an actor of the first. -/
def everyKind : Design Float where
  graphs := #[⟨"top", #[.atomic "A" 1 0.0, .atomic "B" 1 0.0, .hierarchical "H" 1 1], #[], by simp⟩,
    ⟨"sub", #[.interface "in" .input 1, .atomic "A" 1 0.0], #[], by simp⟩]
  top := 0

/-- An entry for `A` and the standard settings give a duration to every actor.  With an entry that is
none, nothing is written, not even the entry before it. -/
theorem everyKind_durations :
    (∃ d', assign [("A", 7.0)] Settings.standard everyKind = .finished d' ∧
      d'.graphs.toList.map (fun h => h.actors.toList.map Actor.duration) =
        [[7.0, 100.0, 1.0], [0.0, 7.0]] ∧
      ∀ h ∈ d'.graphs, ∀ actor graph duration,
        h.validate ≠ .error (.malformed (.badDuration actor graph duration))) ∧
      ∃ failure, assign [("A", 7.0), ("B", -1.0)] Settings.standard everyKind =
        .stopped everyKind failure := by
  obtain ⟨_, haccepted, hwritten⟩ := assign_durations [("A", 7.0)] Settings.standard everyKind
  obtain ⟨hrefused, haccepted', _⟩ :=
    assign_durations [("A", 7.0), ("B", -1.0)] Settings.standard everyKind
  constructor
  · obtain ⟨d', hd'⟩ := haccepted.2 (by simp; decide)
    obtain ⟨_, hretimes, _, hvalid⟩ := hwritten d' hd'
    refine ⟨d', hd', ?_, hvalid fun _ _ a _ => suits_standard _ a⟩
    obtain ⟨top, rest, htop, hrest, hgraphs⟩ := List.forall₂_cons_left_iff.1 hretimes
    obtain ⟨sub, none, hsub, hnone, rfl⟩ := List.forall₂_cons_left_iff.1 hrest
    obtain rfl := List.forall₂_nil_left_iff.1 hnone
    rw [hgraphs]
    simp only [List.map_cons, List.map_nil, htop.actors_eq, hsub.actors_eq]
    rfl
  · rcases Attempt.finished_or_stopped
      (assign [("A", 7.0), ("B", -1.0)] Settings.standard everyKind) with ⟨d', h⟩ | ⟨d', failure, h⟩
    · have hbad := haccepted'.1 ⟨d', h⟩ ("B", -1.0) (by simp)
      exact absurd hbad (by decide)
    · obtain ⟨rfl, _⟩ := hrefused d' failure h
      exact ⟨failure, h⟩

/-- A graph with a single actor. -/
def lone (duration : Float) : Graph Float := ⟨"lone", #[.atomic "X" 1 duration], #[], by simp⟩

/-- A negative default goes into the actor that it is meant for, and it is validation that finds it. -/
theorem assign_unchecked :
    assign [] { Settings.standard with atomicDuration := -1.0 } (.ofGraph (lone 1.0)) =
        .finished (.ofGraph (lone (-1.0))) ∧
      (lone 1.0).validate = .ok () ∧
      (lone (-1.0)).validate = .error (.malformed (.badDuration "X" "lone" (-1.0))) := by
  have hbad : Clock.isDuration (-1.0 : Float) = false := by decide
  have hgood : Clock.isDuration (1.0 : Float) = true := Clock.isDuration_one
  refine ⟨?_, ?_, ?_⟩
  · simp [assign, badEntry?, Design.updateActors, Graph.updateActors, Design.ofGraph, lone,
      durationOf, get?, Actor.atomic]
  · simp [Graph.validate, Graph.defect?, Graph.actorsDefect?, lone, Actor.atomic, hgood]
  · simp [Graph.validate, Graph.defect?, Graph.actorsDefect?, lone, Actor.atomic, hbad]

end TimingTable

end Dataflow

import Dataflow.Graph.Basic
import Std.Data.TreeSet.Lemmas

/-!
# Well-formed graphs

A graph is well-formed if its actors have distinct names, fire at least once per iteration and
take a time that is a duration, and if its edges have positive rates, lead from an output port to
an input port, and meet interfaces on their inner side only.

* `Graph.WellFormed` — these rules as a proposition.
* `Graph.defect?` — the first rule that is broken: actors before edges, each in order.
* `Graph.validate` — refuses a graph that breaks a rule.
-/

namespace Dataflow

variable {τ : Type}

/-- The rules for one actor. -/
structure Actor.WellFormed [Clock τ] (a : Actor τ) : Prop where
  repetitions_pos : 0 < a.repetitions
  isDuration : Clock.isDuration a.duration = true

namespace Graph

/-- The rules for one edge. -/
structure EdgeWellFormed (g : Graph τ) (e : Edge) : Prop where
  production_pos : 0 < e.production
  consumption_pos : 0 < e.consumption
  sourcePort_output : e.sourcePort.direction = .output
  targetPort_input : e.targetPort.direction = .input
  source_not_output : g.actors[e.source]?.map Actor.kind ≠ some (.interface .output)
  target_not_input : g.actors[e.target]?.map Actor.kind ≠ some (.interface .input)

/-- The first defect of an edge. -/
def edgeDefect? (g : Graph τ) (e : Edge) : Option (Defect τ) :=
  if e.production = 0 ∨ e.consumption = 0 then
    some (.deadRate (g.edgeName e) e.production e.consumption)
  else if e.sourcePort.direction ≠ .output ∨ e.targetPort.direction ≠ .input then
    some (.reversedPorts (g.edgeName e))
  else if g.actors[e.source]?.map Actor.kind = some (.interface .output) then
    some (.leavesOutput (g.edgeName e))
  else if g.actors[e.target]?.map Actor.kind = some (.interface .input) then
    some (.entersInput (g.edgeName e))
  else none

variable [Clock τ]

/-- The rules for a graph. -/
structure WellFormed (g : Graph τ) : Prop where
  names_nodup : (g.actors.toList.map Actor.name).Nodup
  actors_wellFormed : ∀ a ∈ g.actors, a.WellFormed
  edges_wellFormed : ∀ e ∈ g.edges, g.EdgeWellFormed e

/-- The first defect of a list of actors, whose names must not repeat each other or `seen`. -/
def actorsDefect? (graph : String) :
    Std.TreeSet String → List (Actor τ) → Option (Defect τ)
  | _, [] => none
  | seen, a :: rest =>
    if seen.contains a.name then some (.repeatedName graph a.name)
    else if a.repetitions = 0 then some (.neverFires a.name graph)
    else if Clock.isDuration a.duration = false then some (.badDuration a.name graph a.duration)
    else actorsDefect? graph (seen.insert a.name) rest

/-- The first defect of a graph. -/
def defect? (g : Graph τ) : Option (Defect τ) :=
  (actorsDefect? g.name ∅ g.actors.toList).or (g.edges.findSome? g.edgeDefect?)

/-- Refuses a graph that is not well-formed. -/
def validate (g : Graph τ) : Except (Failure τ) Unit :=
  match g.defect? with
  | some defect => .error (.malformed defect)
  | none => .ok ()

/-! ## The defects are exactly the broken rules -/

omit [Clock τ] in
theorem edgeDefect?_eq_none_iff {g : Graph τ} {e : Edge} :
    g.edgeDefect? e = none ↔ g.EdgeWellFormed e := by
  constructor
  · intro h
    unfold edgeDefect? at h
    constructor <;> grind
  · intro h
    have h₁ := h.production_pos
    have h₂ := h.consumption_pos
    have h₃ := h.sourcePort_output
    have h₄ := h.targetPort_input
    have h₅ := h.source_not_output
    have h₆ := h.target_not_input
    unfold edgeDefect?
    grind

theorem actorsDefect?_eq_none_iff {graph : String} {actors : List (Actor τ)} :
    ∀ {seen : Std.TreeSet String}, actorsDefect? graph seen actors = none ↔
      (actors.map Actor.name).Nodup ∧ (∀ a ∈ actors, a.name ∉ seen) ∧
        ∀ a ∈ actors, a.WellFormed := by
  induction actors with
  | nil => simp [actorsDefect?]
  | cons a rest ih =>
    intro seen
    have hw : a.WellFormed ↔ a.repetitions ≠ 0 ∧ Clock.isDuration a.duration ≠ false :=
      ⟨fun h => ⟨Nat.ne_of_gt h.repetitions_pos, by simp [h.isDuration]⟩,
        fun h => ⟨Nat.pos_of_ne_zero h.1, by simpa using h.2⟩⟩
    unfold actorsDefect?
    grind

/-- A graph has no defect exactly when it is well-formed. -/
theorem defect?_eq_none_iff {g : Graph τ} : g.defect? = none ↔ g.WellFormed := by
  simp only [defect?, Option.or_eq_none_iff, actorsDefect?_eq_none_iff,
    Array.findSome?_eq_none_iff, edgeDefect?_eq_none_iff, Array.mem_toList_iff]
  exact ⟨fun ⟨⟨hn, _, ha⟩, he⟩ => ⟨hn, ha, he⟩, fun h => ⟨⟨h.1, by simp, h.2⟩, h.3⟩⟩

/-- Validation accepts exactly the well-formed graphs. -/
theorem validate_eq_ok_iff {g : Graph τ} : g.validate = .ok () ↔ g.WellFormed := by
  rw [← defect?_eq_none_iff, validate]
  cases g.defect? <;> simp

theorem WellFormed.repetitions_pos {g : Graph τ} (hg : g.WellFormed) {a : Nat}
    (ha : a < g.actors.size) : 0 < g.repetitions a := by
  have hactor := hg.actors_wellFormed g.actors[a] (Array.getElem_mem ha)
  simpa [repetitions, ha] using hactor.repetitions_pos

theorem WellFormed.production_pos {g : Graph τ} (hg : g.WellFormed) :
    ∀ e ∈ g.edges, 0 < e.production := fun e he => (hg.edges_wellFormed e he).production_pos

theorem WellFormed.consumption_pos {g : Graph τ} (hg : g.WellFormed) :
    ∀ e ∈ g.edges, 0 < e.consumption := fun e he => (hg.edges_wellFormed e he).consumption_pos

end Graph

end Dataflow

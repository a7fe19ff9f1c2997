import Dataflow.Graph.Named
import Dataflow.Graph.WellFormed
import Dataflow.Proofs.Construction

/-!
# Graphs built by name

A graph can be built without any number: actors are defined by names, and edges refer to actors by
these names.  A call is refused if it defines a name again or refers to one that is not defined, and
leaves the graph as it is then.  So the names stay distinct, a name denotes the same actor for ever,
and most rules for graphs are kept by all calls: validation can only find fault with the numbers
that a call brings along and with edges on the outer side of an interface.

* `NamedEdge`, `NamedCall` — what a call asks for.
* `NamedCall.Outcome`, `NamedCall.outcome` — all that a call can come to.
* `NamedCall.after`, `NamedCall.accepted` — what a list of calls leaves, and which of them were
  accepted.
* `Graph.Realizes`, `Graph.Holds` — an edge is the one that was asked for; a graph holds what was
  accepted, and nothing else.
* `NamedCall.attempt_eq_stopped` — a refused call leaves the graph as it was.
* `NamedCall.Fits`, `NamedCall.Sound` — when a call is accepted, and when validation has no fault to
  find with it.
* `NamedCall.holds_attempt`, `NamedCall.holds_after` — an accepted call keeps up that the graph
  holds what was accepted, so every list of calls does.
* **`NamedCall.naming_builds`** — what is built by names.
-/

namespace Dataflow

variable {τ : Type}

/-! ## Calls -/

/-- An edge that is asked for by the names of its ends. -/
structure NamedEdge where
  source : String
  target : String
  production : Nat
  consumption : Nat
  delay : Nat

/-- An edge has the rates and the delay that were asked for, and ports of the right directions. -/
structure NamedEdge.Describes (w : NamedEdge) (e : Edge) : Prop where
  production : e.production = w.production
  consumption : e.consumption = w.consumption
  delay : e.delay = w.delay
  sourcePort : e.sourcePort.direction = .output
  targetPort : e.targetPort.direction = .input

/-- A call that adds something to a graph by names. -/
inductive NamedCall (τ : Type) where
  | actor (name : String) (repetitions : Nat) (duration : τ)
  | hierarchical (name : String) (repetitions refinement : Nat)
  | interface (name : String) (direction : Direction) (repetitions : Nat)
  /-- An edge whose ports are numbered. -/
  | edge (e : NamedEdge)
  /-- An edge through ports of given names. -/
  | edgeThrough (e : NamedEdge) (sourcePort targetPort : String)

namespace NamedCall

variable [Clock τ]

/-- The actor that a call defines. -/
def actor? : NamedCall τ → Option (Actor τ)
  | .actor name repetitions duration => some (.atomic name repetitions duration)
  | .hierarchical name repetitions refinement => some (.hierarchical name repetitions refinement)
  | .interface name direction repetitions => some (.interface name direction repetitions)
  | .edge _ | .edgeThrough .. => none

omit [Clock τ] in
/-- The edge that a call asks for. -/
def edge? : NamedCall τ → Option NamedEdge
  | .actor .. | .hierarchical .. | .interface .. => none
  | .edge e | .edgeThrough e _ _ => some e

/-- A call, in place. -/
def attempt (g : Graph τ) : NamedCall τ → Attempt τ (Graph τ)
  | .actor name repetitions duration => g.enroll (.atomic name repetitions duration)
  | .hierarchical name repetitions refinement =>
    g.enroll (.hierarchical name repetitions refinement)
  | .interface name direction repetitions => g.enroll (.interface name direction repetitions)
  | .edge e => g.link e.source e.target e.production e.consumption e.delay
  | .edgeThrough e sourcePort targetPort =>
    g.linkPorts e.source sourcePort e.target targetPort e.production e.consumption e.delay

/-- What some calls leave, one after another. -/
def after : List (NamedCall τ) → Graph τ → Graph τ
  | [], g => g
  | call :: rest, g => after rest (call.attempt g).state

/-- The calls that are accepted, one after another. -/
def accepted : List (NamedCall τ) → Graph τ → List (NamedCall τ)
  | [], _ => []
  | call :: rest, g =>
    match (call.attempt g).failure with
    | none => call :: accepted rest (call.attempt g).state
    | some _ => accepted rest (call.attempt g).state

/-- The names that some calls define. -/
def names (done : List (NamedCall τ)) : List String := (done.filterMap actor?).map Actor.name

/-- The call defines a name that is free, or refers to names that are defined. -/
def Fits (done : List (NamedCall τ)) (call : NamedCall τ) : Prop :=
  (∀ a, call.actor? = some a → a.name ∉ names done) ∧
    ∀ w, call.edge? = some w → w.source ∈ names done ∧ w.target ∈ names done

omit [Clock τ] in
/-- An edge has positive rates, does not leave an output interface and does not enter an input
interface. -/
def SoundEdge (done : List (NamedCall τ)) (w : NamedEdge) : Prop :=
  0 < w.production ∧ 0 < w.consumption ∧ (∀ n, .interface w.source .output n ∉ done) ∧
    ∀ n, .interface w.target .input n ∉ done

/-- The numbers of a call are in order, and so is the side of an interface that its edge is on. -/
def Sound (done : List (NamedCall τ)) : NamedCall τ → Prop
  | .actor _ repetitions duration => 0 < repetitions ∧ Clock.isDuration duration = true
  | .hierarchical _ repetitions _ | .interface _ _ repetitions => 0 < repetitions
  | .edge e | .edgeThrough e _ _ => SoundEdge done e

end NamedCall

/-! ## Names and what they denote -/

namespace Graph

variable {g h : Graph τ} {name : String} {i : Nat} {a : Actor τ}

lemma find?_eq_none_iff : g.find? name = none ↔ name ∉ g.actors.toList.map Actor.name := by
  simp [find?, Array.findIdx?_eq_none_iff]

lemma lt_size_of_find? (h : g.find? name = some i) : i < g.actors.size :=
  (Array.findIdx?_eq_some_iff_getElem.1 h).1

lemma exists_of_find? (h : g.find? name = some i) : ∃ a, g.actors[i]? = some a ∧ a.name = name := by
  obtain ⟨hi, hname, _⟩ := Array.findIdx?_eq_some_iff_getElem.1 h
  exact ⟨g.actors[i], Array.getElem?_eq_getElem hi, by simpa using hname⟩

/-- A name that denotes an actor denotes it also when there are more actors. -/
lemma find?_push (hactors : h.actors = g.actors.push a) (hfound : g.find? name = some i) :
    h.find? name = some i := by
  rw [find?] at hfound
  rw [find?, hactors, Array.findIdx?_push, hfound]
  rfl

/-- An edge is the one that was asked for: it joins the actors that the names denote, has the rates
and the delay, and leads from an output port to an input port. -/
structure Realizes (g : Graph τ) (w : NamedEdge) (e : Edge) : Prop extends w.Describes e where
  source : g.find? w.source = some e.source
  target : g.find? w.target = some e.target

/-- The edge stays the one that was asked for as long as names denote what they denoted. -/
lemma Realizes.imp {w : NamedEdge} {e : Edge} (he : g.Realizes w e)
    (hnames : ∀ name i, g.find? name = some i → h.find? name = some i) : h.Realizes w e :=
  { he with source := hnames _ _ he.source, target := hnames _ _ he.target }

variable [Clock τ]

/-- A graph holds what some calls asked for: their actors and their edges, in the order of the
calls. -/
structure Holds (g : Graph τ) (done : List (NamedCall τ)) : Prop where
  actors_eq : g.actors.toList = done.filterMap NamedCall.actor?
  names_nodup : (g.actors.toList.map Actor.name).Nodup
  edges : List.Forall₂ g.Realizes (done.filterMap NamedCall.edge?) g.edges.toList

end Graph

namespace NamedCall

variable [Clock τ] {g h : Graph τ} {done calls : List (NamedCall τ)} {call : NamedCall τ}

/-! ## One call -/

/-- All that a call can come to. -/
inductive Outcome (g : Graph τ) (call : NamedCall τ) : Attempt τ (Graph τ) → Prop
  /-- A new actor: its name was free. -/
  | defined {a : Actor τ} : call.actor? = some a → call.edge? = none → g.find? a.name = none →
    Outcome g call (.finished (g.addActor a))
  /-- The name of the actor is taken. -/
  | taken {a : Actor τ} {i : Nat} : call.actor? = some a → g.find? a.name = some i →
    Outcome g call (.stopped g (.malformed (.takenName a.name g.name)))
  /-- A new edge: both names denote actors. -/
  | joined {w : NamedEdge} {e : Edge} {h : Graph τ} : call.actor? = none → call.edge? = some w →
    g.Realizes w e → h.actors = g.actors → h.edges = g.edges.push e → Outcome g call (.finished h)
  /-- A name of the edge denotes no actor. -/
  | unknown {w : NamedEdge} {name : String} : call.edge? = some w →
    (name = w.source ∨ name = w.target) → g.find? name = none →
    Outcome g call (.stopped g (.malformed (.unknownName name g.name)))

lemma outcome_enroll {a : Actor τ} (hactor : call.actor? = some a) (hedge : call.edge? = none) :
    Outcome g call (g.enroll a) := by
  rw [Graph.enroll]
  split
  case h_1 i hi => exact .taken hactor hi
  case h_2 hfree => exact .defined hactor hedge hfree

/-- The ends of an edge are looked up before it is added. -/
lemma outcome_linkWith {w : NamedEdge} {e : Nat → Nat → Edge} (hactor : call.actor? = none)
    (hedge : call.edge? = some w)
    (hends : ∀ s t, (e s t).source = s ∧ (e s t).target = t ∧ w.Describes (e s t)) :
    Outcome g call (g.linkWith w.source w.target e) := by
  rw [Graph.linkWith]
  cases hs : g.find? w.source with
  | none =>
    rw [Graph.lookup, hs]
    exact .unknown hedge (.inl rfl) hs
  | some s =>
    cases ht : g.find? w.target with
    | none =>
      rw [Graph.lookup, hs, Graph.lookup, ht]
      exact .unknown hedge (.inr rfl) ht
    | some t =>
      obtain ⟨hsource, htarget, hdescribes⟩ := hends s t
      obtain ⟨h, hh⟩ := g.exists_addEdge (hsource.trans_lt (Graph.lt_size_of_find? hs))
        (htarget.trans_lt (Graph.lt_size_of_find? ht))
      obtain ⟨_, hactors, hedges⟩ := Graph.addEdge_eq_ok hh
      rw [Graph.lookup, hs, Graph.lookup, ht]
      change Outcome g call (g.attach (e s t))
      rw [Graph.attach_eq_finished_iff.2 hh]
      exact .joined hactor hedge
        { hdescribes with source := hs.trans (congrArg some hsource.symm)
                          target := ht.trans (congrArg some htarget.symm) } hactors hedges

/-- Every call comes to one of these. -/
lemma outcome (g : Graph τ) (call : NamedCall τ) : Outcome g call (call.attempt g) := by
  cases call with
  | actor name n t => exact outcome_enroll rfl rfl
  | hierarchical name n x => exact outcome_enroll rfl rfl
  | interface name direction n => exact outcome_enroll rfl rfl
  | edge w => exact outcome_linkWith rfl rfl fun s t => ⟨rfl, rfl, rfl, rfl, rfl, rfl, rfl⟩
  | edgeThrough w sourcePort targetPort =>
    exact outcome_linkWith rfl rfl fun s t => ⟨rfl, rfl, rfl, rfl, rfl, rfl, rfl⟩

/-- A call that is refused leaves the graph as it was. -/
theorem attempt_eq_stopped {failure : Failure τ} (hstop : call.attempt g = .stopped h failure) :
    h = g := by
  have houtcome := outcome g call
  rw [hstop] at houtcome
  cases houtcome with
  | taken => rfl
  | unknown => rfl

/-- A call is accepted exactly if it fits what the graph holds. -/
lemma exists_attempt_iff (hg : g.Holds done) :
    (∃ h, call.attempt g = .finished h) ↔ Fits done call := by
  have hfree : ∀ {name}, g.find? name = none ↔ name ∉ names done := by
    intro name
    rw [Graph.find?_eq_none_iff, hg.actors_eq, names]
  have hknown : ∀ {name i}, g.find? name = some i → name ∈ names done := by
    intro name i hi
    by_contra hname
    rw [hfree.2 hname] at hi
    cases hi
  have houtcome := outcome g call
  generalize call.attempt g = result at houtcome ⊢
  rw [Fits]
  cases houtcome with
  | defined hactor hedge hname => simp [hactor, hedge, hfree.1 hname]
  | taken hactor hi => simp [hactor, hknown hi]
  | joined hactor hedge he => simp [hactor, hedge, hknown he.source, hknown he.target]
  | unknown hedge hname hnone =>
    have hunknown := hfree.1 hnone
    rcases hname with rfl | rfl <;> simp [hedge, hunknown]

/-- An accepted call keeps up that the graph holds what was accepted. -/
theorem holds_attempt (hg : g.Holds done) (hh : call.attempt g = .finished h) :
    h.Holds (done ++ [call]) := by
  have houtcome := outcome g call
  rw [hh] at houtcome
  cases houtcome with
  | @defined a hactor hedge hfree =>
    -- the name was free, so the names stay distinct and denote what they denoted
    refine ⟨by simp [Graph.addActor, hg.actors_eq, hactor], ?_, ?_⟩
    · simpa [Graph.addActor, List.nodup_append, hg.names_nodup] using
        Graph.find?_eq_none_iff.1 hfree
    · rw [List.filterMap_append, List.filterMap_cons_none hedge, List.filterMap_nil,
        List.append_nil]
      exact hg.edges.imp fun w e he => he.imp fun _ _ => Graph.find?_push rfl
  | joined hactor hedge he hactors hedges =>
    -- the actors stay as they are
    have hnames : ∀ name, h.find? name = g.find? name := fun name => by
      rw [Graph.find?, Graph.find?, hactors]
    refine ⟨by simp [hactors, hg.actors_eq, hactor], hactors ▸ hg.names_nodup, ?_⟩
    rw [List.filterMap_append, List.filterMap_cons_some hedge, List.filterMap_nil, hedges,
      Array.toList_push]
    have hall := List.rel_append hg.edges (List.Forall₂.cons he .nil)
    exact hall.imp fun w e he => he.imp fun name i hi => (hnames name).trans hi

/-! ## Lists of calls -/

lemma holds_empty (name : String) : (Graph.empty name : Graph τ).Holds [] :=
  ⟨rfl, .nil, .nil⟩

/-- After some calls a graph holds what they were accepted for. -/
theorem holds_after : ∀ {calls done : List (NamedCall τ)} {g : Graph τ}, g.Holds done →
    (after calls g).Holds (done ++ accepted calls g)
  | [], done, g, hg => by simpa [after, accepted] using hg
  | call :: calls, done, g, hg => by
      rw [after, accepted]
      rcases Attempt.finished_or_stopped (call.attempt g) with ⟨h, hcall⟩ | ⟨h, failure, hcall⟩
      · have hrest : (after calls h).Holds (done ++ [call] ++ accepted calls h) :=
          holds_after (holds_attempt hg hcall)
        rw [hcall]
        rwa [List.append_assoc] at hrest
      · rw [hcall]
        exact holds_after (attempt_eq_stopped hcall ▸ hg)

/-- Calls in two parts. -/
lemma after_append : ∀ (calls rest : List (NamedCall τ)) (g : Graph τ),
    after (calls ++ rest) g = after rest (after calls g)
  | [], _, _ => rfl
  | call :: calls, rest, g => after_append calls rest (call.attempt g).state

/-! ## Validation -/

lemma sound_iff : call.Sound done ↔
    (∀ a, call.actor? = some a → a.WellFormed) ∧ ∀ w, call.edge? = some w → SoundEdge done w := by
  have hwellFormed : ∀ a : Actor τ, a.WellFormed ↔
      0 < a.repetitions ∧ Clock.isDuration a.duration = true :=
    fun a => ⟨fun h => ⟨h.1, h.2⟩, fun h => ⟨h.1, h.2⟩⟩
  cases call with
  | actor name n t => simp [Sound, actor?, edge?, hwellFormed, Actor.atomic]
  | hierarchical name n x =>
    simp [Sound, actor?, edge?, hwellFormed, Actor.hierarchical, Clock.isDuration_one]
  | interface name direction n =>
    simp [Sound, actor?, edge?, hwellFormed, Actor.interface, Clock.isDuration_zero]
  | edge w => simp [Sound, actor?, edge?]
  | edgeThrough w sourcePort targetPort => simp [Sound, actor?, edge?]

/-- What a name denotes is an interface exactly if it was accepted as one. -/
lemma kind_eq_interface_iff {name : String} {i : Nat} (direction : Direction) (hg : g.Holds done)
    (hi : g.find? name = some i) :
    g.actors[i]?.map Actor.kind = some (.interface direction) ↔
      ∃ n, .interface name direction n ∈ done := by
  obtain ⟨a, ha, rfl⟩ := Graph.exists_of_find? hi
  have hmem : a ∈ g.actors.toList := Array.mem_toList_iff.2 (Array.mem_of_getElem? ha)
  rw [ha, Option.map_some, Option.some_inj]
  constructor
  · intro hkind
    rw [hg.actors_eq] at hmem
    obtain ⟨call, hcall, hactor⟩ := List.mem_filterMap.1 hmem
    cases call with
    | interface name direction' n =>
      cases hactor
      cases hkind
      exact ⟨n, hcall⟩
    | actor name n t =>
      cases hactor
      cases hkind
    | hierarchical name n x =>
      cases hactor
      cases hkind
    | edge w => cases hactor
    | edgeThrough w sourcePort targetPort => cases hactor
  · rintro ⟨n, hcall⟩
    -- names are distinct, so the interface of that name is the actor that was found
    have hinterface : Actor.interface a.name direction n ∈ g.actors.toList := by
      rw [hg.actors_eq]
      exact List.mem_filterMap.2 ⟨_, hcall, rfl⟩
    rw [List.inj_on_of_nodup_map hg.names_nodup hmem hinterface rfl]
    rfl

/-- An edge is well-formed exactly if the one that was asked for is. -/
lemma edgeWellFormed_iff {w : NamedEdge} {e : Edge} (hg : g.Holds done) (he : g.Realizes w e) :
    g.EdgeWellFormed e ↔ SoundEdge done w := by
  have hsource := kind_eq_interface_iff .output hg he.source
  have htarget := kind_eq_interface_iff .input hg he.target
  rw [SoundEdge, ← not_exists, ← not_exists, ← hsource, ← htarget, ← he.production,
    ← he.consumption]
  exact ⟨fun h => ⟨h.production_pos, h.consumption_pos, h.source_not_output, h.target_not_input⟩,
    fun ⟨hp, hc, hs, ht⟩ => ⟨hp, hc, he.sourcePort, he.targetPort, hs, ht⟩⟩

omit [Clock τ] in
/-- What related members of two lists have in common holds of both lists or of none. -/
lemma forall_mem_iff_of_forall₂ {α β : Type} {R : α → β → Prop} {P : α → Prop} {Q : β → Prop}
    (h : ∀ x y, R x y → (P x ↔ Q y)) {xs : List α} {ys : List β} (hall : List.Forall₂ R xs ys) :
    (∀ x ∈ xs, P x) ↔ ∀ y ∈ ys, Q y := by
  induction hall with
  | nil => simp
  | cons hxy _ ih => rw [List.forall_mem_cons, List.forall_mem_cons, h _ _ hxy, ih]

/-- What is built by names is well-formed exactly if all accepted calls are sound. -/
theorem wellFormed_iff (hg : g.Holds done) : g.WellFormed ↔ ∀ call ∈ done, call.Sound done := by
  have hactors : (∀ a ∈ g.actors, a.WellFormed) ↔
      ∀ call ∈ done, ∀ a, call.actor? = some a → a.WellFormed := by
    simp only [← Array.mem_toList_iff, hg.actors_eq, List.forall_mem_filterMap]
  have hedges : (∀ e ∈ g.edges, g.EdgeWellFormed e) ↔
      ∀ call ∈ done, ∀ w, call.edge? = some w → SoundEdge done w := by
    simp only [← Array.mem_toList_iff, ← List.forall_mem_filterMap]
    exact (forall_mem_iff_of_forall₂ (R := g.Realizes)
      (fun _ _ he => (edgeWellFormed_iff hg he).symm) hg.edges).symm
  simp only [sound_iff, forall₂_and, ← hactors, ← hedges]
  exact ⟨fun h => ⟨h.2, h.3⟩, fun h => ⟨hg.names_nodup, h.1, h.2⟩⟩

/-! ## Building by names -/

/-- **Building by names.**  After any calls on an empty graph, some of which may have been refused,
a call is accepted exactly if it defines a free name or refers to defined ones, and a refused call
leaves the graph as it was, so that it is as good as none.  The actors are the accepted ones, in
order and with distinct names; the edges are the accepted ones, in order, and join what their names
denote in the end.  Validation accepts the graph exactly if all accepted numbers are in order and no
accepted edge is on the outer side of an interface. -/
theorem naming_builds {name : String} (hg : after calls (.empty name) = g)
    (hdone : accepted calls (.empty name) = done) :
    (∀ call : NamedCall τ, (∃ h, call.attempt g = .finished h) ↔ Fits done call) ∧
      (∀ call h failure, call.attempt g = .stopped h failure → h = g ∧ ∀ rest,
        after (calls ++ call :: rest) (.empty name) = after (calls ++ rest) (.empty name)) ∧
      g.actors.toList = done.filterMap actor? ∧ (g.actors.toList.map Actor.name).Nodup ∧
      List.Forall₂ g.Realizes (done.filterMap edge?) g.edges.toList ∧
      (g.validate = .ok () ↔ ∀ call ∈ done, call.Sound done) := by
  have hholds : g.Holds done := by
    have hall : (after calls (.empty name)).Holds ([] ++ accepted calls (.empty name)) :=
      holds_after (holds_empty name)
    rwa [hg, hdone] at hall
  refine ⟨fun call => exists_attempt_iff hholds, fun call h failure hstop => ?_,
    hholds.actors_eq, hholds.names_nodup, hholds.edges,
    Graph.validate_eq_ok_iff.trans (wellFormed_iff hholds)⟩
  obtain rfl := attempt_eq_stopped hstop
  refine ⟨rfl, fun rest => ?_⟩
  rw [after_append, after_append, hg, after, hstop, Attempt.state_stopped]

/-- A history in which a name is defined again, one is used too early and one is unknown; the last
edge leaves an output interface. -/
def outside : List (NamedCall ℚ) :=
  [.actor "X" 2 1, .actor "X" 3 1, .edge ⟨"X", "out", 1, 2, 0⟩, .interface "out" .output 1,
    .edge ⟨"X", "out", 1, 2, 0⟩, .edgeThrough ⟨"out", "X", 2, 1, 2⟩ "o" "i",
    .edge ⟨"X", "Y", 1, 1, 0⟩]

/-- Four of its seven calls are accepted: two actors, of distinct names, and two edges.  The graph
is not accepted for the last one. -/
theorem outside_builds : ∃ g done, after outside (.empty "outside") = g ∧
    accepted outside (.empty "outside") = done ∧ done.length = 4 ∧
    g.actors.toList.map Actor.name = ["X", "out"] ∧
    g.edges.toList.map (fun e => (e.source, e.target)) = [(0, 1), (1, 0)] ∧
    g.validate ≠ .ok () := by
  have hdone : accepted outside (.empty "outside") = [.actor "X" 2 1, .interface "out" .output 1,
      .edge ⟨"X", "out", 1, 2, 0⟩, .edgeThrough ⟨"out", "X", 2, 1, 2⟩ "o" "i"] := by
    cbv
  obtain ⟨-, -, hactors, -, hedges, hvalid⟩ := naming_builds rfl hdone
  refine ⟨_, _, rfl, hdone, rfl, by rw [hactors]; rfl, by cbv, fun h => ?_⟩
  have hsound := hvalid.1 h (.edgeThrough ⟨"out", "X", 2, 1, 2⟩ "o" "i") (by simp)
  exact hsound.2.2.1 1 (by simp)

end NamedCall

end Dataflow

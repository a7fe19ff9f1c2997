import Dataflow.Graph.Named
import Dataflow.Proofs.Attempt
import Dataflow.Proofs.Clock.Exact

/-!
# Graphs under construction

A graph is built call by call.  Its actors are added by their numbers or defined by their names, its
edges get ports of given names or numbered ones, and edges may be dropped again.  The number of a
new port is the number of edges that are at its end of the actor.  So the new name is not taken as
long as the numbers of the ports at an actor are below the number of its edges.  Numbered edges keep
this up; a given name with a number further on and an edge that is dropped do not.

* `Graph.degree`, `Graph.NextPortFree` — the edges at an end of an actor, and is the name of the
  next numbered port free there?
* `Graph.Numbered` — the numbers of the ports are below the number of edges.
* `Construction`, `Construction.after` — a call, and what a list of calls leaves.
* `Construction.perform_eq_stopped` — a refused call leaves the graph as it was.
* `Construction.Respects`, `Construction.Orderly` — calls that leave the numbers of an actor in
  order.
* `Construction.numbered_perform`, `Construction.numbered_after` — what such calls preserve.
* **`Construction.connect_fresh`** — when the ports of a new edge are new.
* **`Construction.connect_shares`** — two histories after which they are not.
-/

namespace Dataflow

/-! ## The ends of edges -/

namespace Side

/-- What belongs to one of two ends. -/
def pick {α : Type} : Side → α → α → α
  | .source, x, _ => x
  | .target, _, y => y

/-- The name of a numbered port. -/
def portName (side : Side) (n : Nat) : String := side.pick s!"out{n}" s!"in{n}"

lemma portName_inj {side : Side} {m n : Nat} (h : side.portName m = side.portName n) : m = n := by
  refine Counter.toString_inj ?_
  cases side <;> simpa [portName, pick] using h

end Side

namespace Edge

/-- The actor at an end of an edge. -/
def actorAt (side : Side) (e : Edge) : Nat := side.pick e.source e.target

/-- The port at an end of an edge. -/
def portAt (side : Side) (e : Edge) : Port := side.pick e.sourcePort e.targetPort

end Edge

namespace Graph

variable {τ : Type} {g h : Graph τ} {side : Side} {a : Nat} {e : Edge}

/-- How many edges have one of their ends at an actor. -/
def degree (g : Graph τ) (side : Side) (a : Nat) : Nat :=
  g.edges.countP fun e => e.actorAt side == a

/-- No edge at an actor has the name of the next numbered port. -/
def NextPortFree (g : Graph τ) (side : Side) (a : Nat) : Prop :=
  ∀ e ∈ g.edges, e.actorAt side = a → (e.portAt side).name ≠ side.portName (g.degree side a)

/-- The numbered ports at an actor have numbers below the number of its edges. -/
def Numbered (g : Graph τ) (side : Side) (a : Nat) : Prop :=
  ∀ e ∈ g.edges, e.actorAt side = a → ∀ n, (e.portAt side).name = side.portName n →
    n < g.degree side a

/-- The name of a new port has a number that is not beyond the next one. -/
def Admits (g : Graph τ) (side : Side) (a : Nat) (port : String) : Prop :=
  ∀ n, port = side.portName n → n ≤ g.degree side a

lemma admits_next (g : Graph τ) (side : Side) (a : Nat) :
    g.Admits side a (side.portName (g.degree side a)) :=
  fun _ h => Nat.le_of_eq (Side.portName_inj h).symm

lemma Numbered.nextPortFree (hg : g.Numbered side a) : g.NextPortFree side a :=
  fun e he ha hname => Nat.lt_irrefl _ (hg e he ha _ hname)

lemma degree_push (hedges : h.edges = g.edges.push e) :
    h.degree side a = g.degree side a + if e.actorAt side = a then 1 else 0 := by
  simp [degree, hedges, Array.countP_push]

lemma Numbered.push (hg : g.Numbered side a) (hedges : h.edges = g.edges.push e)
    (hport : e.actorAt side = a → g.Admits side a (e.portAt side).name) : h.Numbered side a := by
  intro e' he' ha n hn
  rw [degree_push hedges]
  rw [hedges] at he'
  rcases Array.mem_push.1 he' with he' | rfl
  · exact Nat.lt_add_right _ (hg e' he' ha n hn)
  · rw [if_pos ha]
    exact Nat.lt_succ_of_le (hport ha n hn)

lemma Numbered.filter {keep : Edge → Bool} (hg : g.Numbered side a)
    (hedges : h.edges = g.edges.filter keep)
    (hkeep : ∀ e ∈ g.edges, e.actorAt side = a → keep e = true) : h.Numbered side a := by
  have hdegree : h.degree side a = g.degree side a := by
    rw [degree, hedges, Array.countP_filter, degree]
    refine Array.countP_congr fun e he => ?_
    simp only [Bool.and_eq_true, beq_iff_eq, and_iff_left_iff_imp]
    exact hkeep e he
  intro e he ha n hn
  rw [hdegree]
  rw [hedges] at he
  exact hg e (Array.mem_filter.1 he).1 ha n hn

/-- The ports of a fresh edge are the next ones of its ends. -/
lemma portAt_freshEdge (g : Graph τ) (side : Side) (s t p c d : Nat) :
    ((g.freshEdge s t p c d).portAt side).name =
      side.portName (g.degree side ((g.freshEdge s t p c d).actorAt side)) := by
  cases side <;> rfl

/-- A graph with the edge that a connection adds. -/
lemma connect_eq_ok {s t p c d : Nat} (hconnect : g.connect s t p c d = .ok h) :
    h.actors = g.actors ∧ h.edges = g.edges.push (g.freshEdge s t p c d) :=
  (addEdge_eq_ok hconnect).2

lemma Numbered.connect {s t p c d : Nat} (hg : g.Numbered side a)
    (hconnect : g.connect s t p c d = .ok h) : h.Numbered side a := by
  refine hg.push (connect_eq_ok hconnect).2 fun ha => ?_
  rw [portAt_freshEdge, ha]
  exact g.admits_next side a

/-! ### Calls in place -/

/-- An actor is added if its name is free. -/
lemma enroll_eq_finished_iff {b : Actor τ} :
    g.enroll b = .finished h ↔ g.find? b.name = none ∧ g.addActor b = h := by
  rw [enroll]
  split <;> simp_all

lemma enroll_eq_stopped {b : Actor τ} {failure : Failure τ}
    (hstop : g.enroll b = .stopped h failure) : h = g := by
  rw [enroll] at hstop
  split at hstop
  case h_1 => exact (Attempt.stopped_inj.1 hstop).1.symm
  case h_2 => exact absurd hstop Attempt.finished_ne_stopped

lemma attach_eq_finished_iff : g.attach e = .finished h ↔ g.addEdge e = .ok h := by
  rw [attach]
  split <;> simp_all

lemma attach_eq_stopped {failure : Failure τ} (hstop : g.attach e = .stopped h failure) :
    h = g := by
  rw [attach] at hstop
  split at hstop
  case h_1 => exact absurd hstop Attempt.finished_ne_stopped
  case h_2 => exact (Attempt.stopped_inj.1 hstop).1.symm

lemma lookup_eq_ok_iff {name : String} : g.lookup name = .ok a ↔ g.find? name = some a := by
  rw [lookup]
  split <;> simp_all

section Named

variable {source target : String} {edge : Nat → Nat → Edge}

/-- An edge is added if both names denote actors. -/
lemma linkWith_eq_finished_iff :
    g.linkWith source target edge = .finished h ↔
      ∃ s t, g.find? source = some s ∧ g.find? target = some t ∧ g.addEdge (edge s t) = .ok h := by
  simp only [← lookup_eq_ok_iff]
  rw [linkWith]
  cases g.lookup source with
  | error failure => simp
  | ok s =>
    cases g.lookup target with
    | error failure => simp
    | ok t => simp [attach_eq_finished_iff]

lemma linkWith_eq_stopped {failure : Failure τ}
    (hstop : g.linkWith source target edge = .stopped h failure) : h = g := by
  rw [linkWith] at hstop
  split at hstop
  case h_1 => exact (Attempt.stopped_inj.1 hstop).1.symm
  case h_2 =>
    split at hstop
    case h_1 => exact (Attempt.stopped_inj.1 hstop).1.symm
    case h_2 => exact attach_eq_stopped hstop

end Named

end Graph

/-! ## Calls -/

/-- A call that builds a graph. -/
inductive Construction (τ : Type) where
  | addActor (a : Actor τ)
  /-- An actor whose name has to be free. -/
  | define (a : Actor τ)
  /-- An edge between two actors given by their numbers; its ports are numbered. -/
  | connect (source target production consumption delay : Nat)
  /-- The same with the names of the actors. -/
  | join (source target : String) (production consumption delay : Nat)
  /-- An edge with ports of its own. -/
  | addEdge (e : Edge)
  /-- An edge between named actors through ports of given names. -/
  | joinPorts (source sourcePort target targetPort : String) (production consumption delay : Nat)
  /-- Only some edges are kept. -/
  | filterEdges (name : String) (keep : Edge → Bool)

namespace Construction

variable {τ : Type} {g h : Graph τ} {side : Side} {a : Nat} {call : Construction τ}

/-- A call, in place. -/
def perform (g : Graph τ) : Construction τ → Attempt τ (Graph τ)
  | .addActor a => .finished (g.addActor a)
  | .define a => g.enroll a
  | .connect s t p c d => g.attach (g.freshEdge s t p c d)
  | .join s t p c d => g.link s t p c d
  | .addEdge e => g.attach e
  | .joinPorts s sourcePort t targetPort p c d => g.linkPorts s sourcePort t targetPort p c d
  | .filterEdges name keep => .finished (g.filterEdges name keep)

/-- What some calls leave, one after another. -/
def after : List (Construction τ) → Graph τ → Graph τ
  | [], g => g
  | call :: rest, g => after rest (call.perform g).state

/-- The call leaves the numbers of an actor's ports in order: a name that it gives to a port there
has no number beyond the next one, and it drops no edge there. -/
def Respects (side : Side) (a : Nat) (g : Graph τ) : Construction τ → Prop
  | .addEdge e => e.actorAt side = a → g.Admits side a (e.portAt side).name
  | .joinPorts s sourcePort t targetPort _ _ _ =>
    g.find? (side.pick s t) = some a → g.Admits side a (side.pick sourcePort targetPort)
  | .filterEdges _ keep => ∀ e ∈ g.edges, e.actorAt side = a → keep e = true
  | .addActor _ | .define _ | .connect .. | .join .. => True

/-- All calls leave the numbers of an actor's ports in order. -/
def Orderly (side : Side) (a : Nat) : List (Construction τ) → Graph τ → Prop
  | [], _ => True
  | call :: rest, g => call.Respects side a g ∧ Orderly side a rest (call.perform g).state

/-- **Refused calls.**  A call that is refused leaves the graph as it was. -/
theorem perform_eq_stopped {failure : Failure τ} (hstop : call.perform g = .stopped h failure) :
    h = g := by
  cases call with
  | addActor b => exact absurd hstop Attempt.finished_ne_stopped
  | define b => exact Graph.enroll_eq_stopped hstop
  | connect s t p c d => exact Graph.attach_eq_stopped hstop
  | join s t p c d => exact Graph.linkWith_eq_stopped hstop
  | addEdge e => exact Graph.attach_eq_stopped hstop
  | joinPorts s sourcePort t targetPort p c d => exact Graph.linkWith_eq_stopped hstop
  | filterEdges name keep => exact absurd hstop Attempt.finished_ne_stopped

/-! ## The numbers of the ports -/

/-- A call that leaves the numbers in order keeps them below the number of edges. -/
lemma numbered_of_perform (hg : g.Numbered side a) (hcall : call.Respects side a g)
    (hh : call.perform g = .finished h) : h.Numbered side a := by
  cases call with
  | addActor b =>
    obtain rfl := Attempt.finished_inj.1 hh
    exact hg
  | define b =>
    obtain ⟨_, rfl⟩ := Graph.enroll_eq_finished_iff.1 hh
    exact hg
  | connect s t p c d => exact hg.connect (Graph.attach_eq_finished_iff.1 hh)
  | join s t p c d =>
    obtain ⟨s', t', _, _, hadd⟩ := Graph.linkWith_eq_finished_iff.1 hh
    exact hg.connect hadd
  | addEdge e => exact hg.push (Graph.addEdge_eq_ok (Graph.attach_eq_finished_iff.1 hh)).2.2 hcall
  | joinPorts s sourcePort t targetPort p c d =>
    obtain ⟨s', t', hs, ht, hadd⟩ := Graph.linkWith_eq_finished_iff.1 hh
    refine hg.push (Graph.addEdge_eq_ok hadd).2.2 fun ha => ?_
    cases side with
    | source => exact hcall (hs.trans (congrArg some ha))
    | target => exact hcall (ht.trans (congrArg some ha))
  | filterEdges name keep =>
    obtain rfl := Attempt.finished_inj.1 hh
    exact hg.filter rfl hcall

/-- So it does when it is refused. -/
theorem numbered_perform (hg : g.Numbered side a) (hcall : call.Respects side a g) :
    (call.perform g).state.Numbered side a := by
  rcases Attempt.finished_or_stopped (call.perform g) with ⟨h, hh⟩ | ⟨h, failure, hh⟩
  · rw [hh]
    exact numbered_of_perform hg hcall hh
  · rw [hh, Attempt.state_stopped, perform_eq_stopped hh]
    exact hg

theorem numbered_after : ∀ {history : List (Construction τ)} {g : Graph τ},
    g.Numbered side a → Orderly side a history g → (after history g).Numbered side a
  | [], _, hg, _ => hg
  | call :: _, g, hg, ⟨hcall, hrest⟩ =>
    numbered_after (g := (call.perform g).state) (numbered_perform hg hcall) hrest

lemma numbered_empty (name : String) : (Graph.empty name : Graph τ).Numbered side a :=
  fun _ he => absurd he (by simp [Graph.empty])

/-! ## More and more connections -/

section Connections

variable {s t p c d : Nat}

lemma orderly_replicate_connect : ∀ (k : Nat) (g : Graph τ),
    Orderly side a (List.replicate k (.connect s t p c d)) g
  | 0, _ => trivial
  | k + 1, _ => ⟨trivial, orderly_replicate_connect k _⟩

/-- Every connection counts at its ends and leaves the other edges alone. -/
lemma after_replicate_connect (side : Side) (p c d k : Nat) : ∀ {g : Graph τ},
    s < g.actors.size → t < g.actors.size →
      (after (List.replicate k (.connect s t p c d)) g).degree side (side.pick s t) =
          g.degree side (side.pick s t) + k ∧
        ∀ e ∈ g.edges, e ∈ (after (List.replicate k (.connect s t p c d)) g).edges := by
  induction k with
  | zero => exact fun _ _ => ⟨rfl, fun _ he => he⟩
  | succ k ih =>
    intro g hs ht
    obtain ⟨h, hh⟩ : ∃ h, g.connect s t p c d = .ok h := Graph.exists_addEdge hs ht
    obtain ⟨hactors, hedges⟩ := Graph.connect_eq_ok hh
    have hperform : perform g (.connect s t p c d) = .finished h :=
      Graph.attach_eq_finished_iff.2 hh
    obtain ⟨hdegree, hkept⟩ := ih (g := h) (hactors ▸ hs) (hactors ▸ ht)
    have hends : (g.freshEdge s t p c d).actorAt side = side.pick s t := rfl
    rw [List.replicate_succ, after, hperform, Attempt.state_finished, hdegree,
      Graph.degree_push hedges, if_pos hends]
    refine ⟨by omega, fun e he => hkept e ?_⟩
    rw [hedges]
    exact Array.mem_push_of_mem _ he

/-- Connections find free names for ever exactly if the numbers are below the number of edges. -/
theorem nextPortFree_iff (hs : s < g.actors.size) (ht : t < g.actors.size) :
    (∀ k, (after (List.replicate k (.connect s t p c d)) g).NextPortFree side (side.pick s t)) ↔
      g.Numbered side (side.pick s t) := by
  constructor
  · intro hfree e he ha n hn
    by_contra hle
    obtain ⟨k, rfl⟩ := Nat.exists_eq_add_of_le (Nat.le_of_not_lt hle)
    -- when there are as many edges as the number says, the name is the next one
    obtain ⟨hdegree, hkept⟩ := after_replicate_connect side p c d k hs ht
    have hnext := hfree k e (hkept e he) ha
    rw [hdegree] at hnext
    exact hnext hn
  · exact fun hg k => (numbered_after hg (orderly_replicate_connect k g)).nextPortFree

end Connections

/-! ## New ports -/

/-- **New ports.**  A connection adds an edge whose ports have the numbers of edges at its ends for
their names.  If all calls so far have left the numbers at an end in order, no other edge has the
same name there.  However the graph was built, the names at an end will be new each time that the
connection is repeated exactly if the numbers are in order there. -/
theorem connect_fresh {name : String} {history : List (Construction τ)} {s t p c d : Nat}
    (hg : after history (.empty name) = g) (hconnect : g.connect s t p c d = .ok h) :
    ∃ e, h.edges = g.edges.push e ∧ e.source = s ∧ e.target = t ∧
      ∀ side, (e.portAt side).name = side.portName (g.degree side (e.actorAt side)) ∧
        (Orderly side (e.actorAt side) history (.empty name) →
          ∀ e' ∈ g.edges, e'.actorAt side = e.actorAt side →
            (e'.portAt side).name ≠ (e.portAt side).name) ∧
        ((∀ k, (after (List.replicate k (.connect s t p c d)) g).NextPortFree side
            (e.actorAt side)) ↔ g.Numbered side (e.actorAt side)) := by
  obtain ⟨hactors, hedges⟩ := Graph.connect_eq_ok hconnect
  have hmem : g.freshEdge s t p c d ∈ h.edges := hedges ▸ Array.mem_push_self
  obtain ⟨hs, ht⟩ := h.closed _ hmem
  rw [hactors] at hs ht
  refine ⟨_, hedges, rfl, rfl, fun side => ⟨g.portAt_freshEdge side .., fun horderly => ?_,
    nextPortFree_iff hs ht⟩⟩
  rw [g.portAt_freshEdge side]
  subst hg
  exact (numbered_after (numbered_empty name) horderly).nextPortFree

/-- Two actors, the first with one port that has a name of its own, and an edge back that is
dropped. -/
def mixed : List (Construction ℚ) :=
  [.addActor (.atomic "X" 1 1), .define (.atomic "Y" 1 1), .joinPorts "X" "data" "Y" "in0" 1 1 0,
    .join "X" "Y" 2 1 0, .connect 1 0 1 1 1, .filterEdges "mixed" fun e => !e.hasDelay]

lemma orderly_mixed : Orderly .source 0 mixed (.empty "mixed") ∧
    Orderly .target 1 mixed (.empty "mixed") := by
  have hedges : ∀ e ∈ (after (mixed.take 5) (.empty "mixed")).edges,
      e.source = 0 ∨ e.target = 1 → (!e.hasDelay) = true := by
    have hall : (after (mixed.take 5) (.empty "mixed")).edges.all
        (fun e => !(e.source == 0 || e.target == 1) || !e.hasDelay) = true := by cbv
    intro e he hends
    have hkeep := Array.all_eq_true_iff_forall_mem.1 hall e he
    rcases hends with hat | hat <;> simpa [hat] using hkeep
  refine ⟨⟨trivial, trivial, fun _ n hn => ?_, trivial, trivial, fun e he ha => ?_, trivial⟩,
    trivial, trivial, fun _ n hn => ?_, trivial, trivial, fun e he ha => ?_, trivial⟩
  · have hlists := congrArg String.toList hn
    simp [Side.portName, Side.pick, toString] at hlists
  · exact hedges e he (.inl ha)
  · have hzero : Side.target.portName 0 = Side.target.portName n := hn
    rw [← Side.portName_inj hzero]
    exact Nat.zero_le _
  · exact hedges e he (.inr ha)

/-- The next edge gets the third port at both ends. -/
theorem mixed_fresh : ∃ g h e, after mixed (.empty "mixed") = g ∧ g.connect 0 1 1 1 0 = .ok h ∧
    h.edges = g.edges.push e ∧ g.edges.size = 2 ∧
    e.sourcePort.name = "out2" ∧ (∀ e' ∈ g.edges, e'.source = 0 → e'.sourcePort.name ≠ "out2") ∧
    e.targetPort.name = "in2" ∧ ∀ e' ∈ g.edges, e'.target = 1 → e'.targetPort.name ≠ "in2" := by
  obtain ⟨h, hh, _⟩ := exists_of_any_ok
    (x := (after mixed (.empty "mixed")).connect 0 1 1 1 0) (p := fun _ => true) (by cbv)
  obtain ⟨e, hedges, hsource, htarget, hends⟩ := connect_fresh rfl hh
  obtain ⟨hout, houtFree, _⟩ := hends .source
  obtain ⟨hin, hinFree, _⟩ := hends .target
  have hsource : e.actorAt .source = 0 := hsource
  have htarget : e.actorAt .target = 1 := htarget
  rw [hsource] at hout houtFree
  rw [htarget] at hin hinFree
  have hout : e.sourcePort.name = "out2" := hout.trans (by cbv)
  have hin : e.targetPort.name = "in2" := hin.trans (by cbv)
  refine ⟨_, h, e, rfl, hh, hedges, by cbv, hout, fun e' he' hat => ?_, hin, fun e' he' hat => ?_⟩
  · rw [← hout]
    exact houtFree orderly_mixed.1 e' he' hat
  · rw [← hin]
    exact hinFree orderly_mixed.2 e' he' hat

/-- A port with the name of the second one, given to the first edge. -/
def foretold : List (Construction ℚ) :=
  [.addActor (.atomic "X" 1 1), .addActor (.atomic "Y" 1 1),
    .addEdge (Graph.numberedEdge 1 1 0 1 1 1 0)]

/-- Two edges, of which the first is dropped. -/
def thinned : List (Construction ℚ) :=
  [.addActor (.atomic "X" 1 1), .addActor (.atomic "Y" 1 1), .connect 0 1 1 1 1, .connect 0 1 1 1 0,
    .filterEdges "thinned" fun e => !e.hasDelay]

/-- After both histories there is one edge, and the next one gets the names of its two ports. -/
theorem connect_shares :
    (∃ h, (after foretold (.empty "foretold")).connect 0 1 1 1 0 = .ok h ∧
      h.edges.toList.map h.edgeName = [⟨"X", "out1", "Y", "in1"⟩, ⟨"X", "out1", "Y", "in1"⟩]) ∧
    ∃ h, (after thinned (.empty "thinned")).connect 0 1 1 1 0 = .ok h ∧
      h.edges.toList.map h.edgeName = [⟨"X", "out1", "Y", "in1"⟩, ⟨"X", "out1", "Y", "in1"⟩] := by
  obtain ⟨h, hh, hnames⟩ := exists_of_any_ok
    (x := (after foretold (.empty "foretold")).connect 0 1 1 1 0)
    (p := fun h => h.edges.toList.map h.edgeName ==
      [⟨"X", "out1", "Y", "in1"⟩, ⟨"X", "out1", "Y", "in1"⟩]) (by cbv)
  obtain ⟨h', hh', hnames'⟩ := exists_of_any_ok
    (x := (after thinned (.empty "thinned")).connect 0 1 1 1 0)
    (p := fun h => h.edges.toList.map h.edgeName ==
      [⟨"X", "out1", "Y", "in1"⟩, ⟨"X", "out1", "Y", "in1"⟩]) (by cbv)
  exact ⟨⟨h, hh, beq_iff_eq.1 hnames⟩, h', hh', beq_iff_eq.1 hnames'⟩

end Construction

end Dataflow

import Dataflow.Proofs.Attempt
import Dataflow.SingleRate

/-!
# What an expansion consists of

A finished expansion has the instances as its actors and, in the order of the links, one edge for
every link.  The wiring adds nothing to the links but the ports.

* `Edge.Carries` — an edge carries the tokens of a link.
* `Wiring.exists_foldlM_add` — links between actors of the graph are not refused.
* `Graph.Expanded` — the parts of an expansion.
* **`Graph.expanded_of_expand`** — every expansion that is found consists of these parts.
-/

namespace Dataflow

/-- The edge carries the tokens of a link, through ports of the right directions. -/
structure Edge.Carries (e : Edge) (l : Link) : Prop where
  source : e.source = l.source
  target : e.target = l.target
  production : e.production = l.rate
  consumption : e.consumption = l.rate
  delay : e.delay = l.delay
  base : e.base = some l.base
  sourcePort_output : e.sourcePort.direction = .output
  targetPort_input : e.targetPort.direction = .input

variable {τ : Type} {g h : Graph τ} {grouping : Grouping}

namespace Wiring

variable {w w' : Wiring τ}

lemma edge_carries (w : Wiring τ) (l : Link) : (w.edge l).Carries l :=
  ⟨rfl, rfl, rfl, rfl, rfl, rfl, rfl, rfl⟩

lemma add_eq_ok {l : Link} (h : w.add l = .ok w') :
    w'.graph.actors = w.graph.actors ∧ w'.graph.edges = w.graph.edges.push (w.edge l) ∧
      w'.leaving = w.leaving.modify l.source (· + 1) ∧
      w'.entering = w.entering.modify l.target (· + 1) := by
  rw [add] at h
  simp only at h
  split at h
  case h_2 => simp at h
  case h_1 graph hadd =>
    rw [Except.ok.injEq] at h
    subst h
    obtain ⟨_, hactors, hedges⟩ := Graph.addEdge_eq_ok hadd
    exact ⟨hactors, hedges, rfl, rfl⟩

/-- Wiring a list of links appends one edge for each of them and leaves the actors alone. -/
lemma foldlM_add : ∀ {links : List Link} {w : Wiring τ}, links.foldlM add w = .ok w' →
    w'.graph.actors = w.graph.actors ∧
      ∃ added, w'.graph.edges.toList = w.graph.edges.toList ++ added ∧
        List.Forall₂ Edge.Carries added links
  | [], w, h => by
      rw [List.foldlM_nil, pure_eq_ok] at h
      subst h
      exact ⟨rfl, [], by simp, .nil⟩
  | l :: rest, w, h => by
      rw [List.foldlM_cons, bind_eq_ok] at h
      obtain ⟨m, hm, hrest⟩ := h
      obtain ⟨hactors, hedges, _⟩ := add_eq_ok hm
      obtain ⟨hactors', added, hadded, hcarries⟩ := foldlM_add hrest
      refine ⟨hactors'.trans hactors, w.edge l :: added, ?_, .cons (w.edge_carries l) hcarries⟩
      rw [hadded, hedges]
      simp

/-- A link between two actors of the graph is not refused. -/
lemma exists_add {l : Link} (hsource : l.source < w.graph.actors.size)
    (htarget : l.target < w.graph.actors.size) : ∃ w', w.add l = .ok w' := by
  obtain ⟨h, hadd⟩ : ∃ h, w.graph.addEdge (w.edge l) = .ok h :=
    Graph.exists_addEdge hsource htarget
  simp only [add, hadd]
  exact ⟨_, rfl⟩

lemma exists_foldlM_add : ∀ {links : List Link} {w : Wiring τ},
    (∀ l ∈ links, l.source < w.graph.actors.size ∧ l.target < w.graph.actors.size) →
      ∃ w', links.foldlM add w = .ok w'
  | [], w, _ => ⟨w, rfl⟩
  | l :: rest, w, h => by
      obtain ⟨⟨hsource, htarget⟩, hrest⟩ := List.forall_mem_cons.1 h
      obtain ⟨m, hm⟩ := exists_add hsource htarget
      rw [← (add_eq_ok hm).1] at hrest
      obtain ⟨w', hw'⟩ := exists_foldlM_add hrest
      exact ⟨w', by rw [List.foldlM_cons, hm]; exact hw'⟩

end Wiring

namespace Graph

variable [Clock τ]

/-- The parts of the expansion `h` of a graph `g`. -/
structure Expanded (grouping : Grouping) (g h : Graph τ) : Prop where
  wellFormed : g.WellFormed
  actors : h.actors = Expansion.instances g
  edges : List.Forall₂ Edge.Carries h.edges.toList (Expansion.links g grouping).toList

/-- An expansion that is found is that of a well-formed graph, and its links were wired one after
another. -/
lemma exists_wiring (hexpand : g.expand grouping = .ok h) :
    g.WellFormed ∧ ∃ w, w.graph = h ∧ (Expansion.links g grouping).toList.foldlM Wiring.add
      (.start (Expansion.skeleton g grouping)) = .ok w := by
  simp only [expand, Expansion.build, bind_eq_ok, mapError_eq_ok, pure_eq_ok] at hexpand
  obtain ⟨⟨⟩, hvalid, _, _, ⟨⟩, _, w, hw, hgraph⟩ := hexpand
  rw [← Array.foldlM_toList] at hw
  exact ⟨validate_eq_ok_iff.1 hvalid, w, hgraph, hw⟩

/-- An expansion that is found consists of the instances and of one edge for every link. -/
theorem expanded_of_expand (hexpand : g.expand grouping = .ok h) : Expanded grouping g h := by
  obtain ⟨hg, w, rfl, hw⟩ := exists_wiring hexpand
  obtain ⟨hactors, added, hadded, hcarries⟩ := Wiring.foldlM_add hw
  refine ⟨hg, hactors, ?_⟩
  rw [hadded]
  exact hcarries

end Graph

end Dataflow

import Dataflow.Proofs.Expansion.Wiring

/-!
# The ports of an expansion

The ports of an expansion are numbered anew: an edge takes the next free number at its source and
the next free number at its target, where the edges that were wired before it have taken one each.
So the links and their order determine all edges of an expansion, with their ports.

* `Link.edge` — the edge for a link before its ports are numbered.
* `Edge.numbered` — edges with their ports numbered one after another.
* `Wiring.Counts` — the degrees that a wiring keeps are those of its edges.
* **`Graph.edges_of_expand`** — the edges of an expansion are the numbered edges of its links.
-/

namespace Dataflow

/-- The edge for a link, with ports that are still to be numbered. -/
def Link.edge (l : Link) : Edge :=
  { Graph.numberedEdge 0 0 l.source l.target l.rate l.rate l.delay with base := some l.base }

namespace Edge

/-- The edge with the next port at both of its ends, when some edges are there already. -/
def numberedAfter (before : List Edge) (e : Edge) : Edge :=
  { e with
    sourcePort := ⟨s!"out{before.countP (·.source == e.source)}", .output⟩
    targetPort := ⟨s!"in{before.countP (·.target == e.target)}", .input⟩ }

/-- The edges with numbered ports, one after another, when some edges are there already. -/
def numbered : List Edge → List Edge → List Edge
  | _, [] => []
  | before, e :: rest => e.numberedAfter before :: numbered (before ++ [e]) rest

/-- Numbering does not look at the origins of edges, so that they may as well be changed
afterwards. -/
lemma numbered_map_base {r : Option Nat → Option Nat} : ∀ edges before : List Edge,
    numbered (before.map fun e => { e with base := r e.base })
        (edges.map fun e => { e with base := r e.base }) =
      (numbered before edges).map fun e => { e with base := r e.base }
  | [], before => rfl
  | e :: rest, before => by
      have hrest := numbered_map_base (r := r) rest (before ++ [e])
      rw [List.map_append, List.map_singleton] at hrest
      rw [List.map_cons, numbered, numbered, List.map_cons, hrest]
      simp only [numberedAfter, List.countP_map, Function.comp_def]

lemma base_numbered : ∀ edges before : List Edge,
    (numbered before edges).map Edge.base = edges.map Edge.base
  | [], before => rfl
  | e :: rest, before => by
      rw [numbered, List.map_cons, List.map_cons, base_numbered rest]
      rfl

end Edge

variable {τ : Type} {g h : Graph τ} {grouping : Grouping}

namespace Wiring

variable {w w' : Wiring τ} {l : Link} {before : List Edge}

/-- The degrees that the wiring keeps are those of some edges. -/
structure Counts (w : Wiring τ) (before : List Edge) : Prop where
  leaving : ∀ a < w.graph.actors.size,
    w.leaving[a]? = some (before.countP (·.source == a))
  entering : ∀ a < w.graph.actors.size,
    w.entering[a]? = some (before.countP (·.target == a))

lemma counts_start (g : Graph τ) : (start g).Counts [] where
  leaving a ha := by
    have ha : a < g.actors.size := ha
    simp [start, ha]
  entering a ha := by
    have ha : a < g.actors.size := ha
    simp [start, ha]

lemma name_add (h : w.add l = .ok w') : w'.graph.name = w.graph.name := by
  rw [add] at h
  simp only at h
  split at h
  case h_2 => simp at h
  case h_1 graph hadd =>
    rw [Except.ok.injEq] at h
    subst h
    exact (Graph.addEdge_eq_ok hadd).1

lemma ends_of_add (h : w.add l = .ok w') :
    l.source < w.graph.actors.size ∧ l.target < w.graph.actors.size := by
  obtain ⟨hactors, hedges, _⟩ := add_eq_ok h
  have hmem : w.edge l ∈ w'.graph.edges := hedges ▸ Array.mem_push_self
  rw [← hactors]
  exact w'.graph.closed _ hmem

/-- The edge for a link has the next ports of its ends. -/
lemma Counts.edge_eq (hw : w.Counts before) (h : w.add l = .ok w') :
    w.edge l = l.edge.numberedAfter before := by
  obtain ⟨hsource, htarget⟩ := ends_of_add h
  rw [edge, hw.leaving _ hsource, hw.entering _ htarget]
  rfl

/-- A step counts the edge that it adds. -/
lemma Counts.add (hw : w.Counts before) (h : w.add l = .ok w') :
    w'.Counts (before ++ [l.edge]) := by
  obtain ⟨hactors, _, hleaving, hentering⟩ := add_eq_ok h
  have hsource : l.edge.source = l.source := rfl
  have htarget : l.edge.target = l.target := rfl
  constructor
  · intro a ha
    rw [hactors] at ha
    rw [hleaving, Array.getElem?_modify, hw.leaving a ha, List.countP_append, List.countP_singleton,
      hsource]
    by_cases hat : l.source = a <;> simp [hat]
  · intro a ha
    rw [hactors] at ha
    rw [hentering, Array.getElem?_modify, hw.entering a ha, List.countP_append,
      List.countP_singleton, htarget]
    by_cases hat : l.target = a <;> simp [hat]

/-- Wiring a list of links appends their edges, numbered. -/
lemma Counts.foldlM_add : ∀ {links : List Link} {w : Wiring τ} {before : List Edge},
    w.Counts before → links.foldlM Wiring.add w = .ok w' →
      w'.graph.edges.toList = w.graph.edges.toList ++ Edge.numbered before (links.map Link.edge)
  | [], w, before, _, h => by
      rw [List.foldlM_nil, pure_eq_ok] at h
      subst h
      simp [Edge.numbered]
  | l :: rest, w, before, hw, h => by
      rw [List.foldlM_cons, bind_eq_ok] at h
      obtain ⟨m, hm, hrest⟩ := h
      rw [(hw.add hm).foldlM_add hrest, (add_eq_ok hm).2.1, hw.edge_eq hm, List.map_cons,
        Edge.numbered]
      simp

end Wiring

namespace Graph

variable [Clock τ]

/-- The edges of an expansion are those of its links, numbered in the order of the links. -/
theorem edges_of_expand (hexpand : g.expand grouping = .ok h) :
    h.edges.toList =
      Edge.numbered [] ((Expansion.links g grouping).toList.map Link.edge) := by
  obtain ⟨_, w, rfl, hw⟩ := exists_wiring hexpand
  exact (Wiring.counts_start _).foldlM_add hw

/-- The name of an expansion is that of the graph with a mark behind it. -/
theorem name_of_expand (hexpand : g.expand grouping = .ok h) : h.name = g.name ++ grouping.mark := by
  obtain ⟨_, w, rfl, hw⟩ := exists_wiring hexpand
  refine foldlM_induction (P := fun w => w.graph.name = g.name ++ grouping.mark) hw
    (fun l _ w w' hname hadd => ?_) rfl
  rw [Wiring.name_add hadd, hname]

end Graph

end Dataflow

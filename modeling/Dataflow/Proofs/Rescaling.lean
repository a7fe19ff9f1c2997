import Dataflow.Proofs.Balance.RepetitionVector
import Dataflow.Proofs.Expansion.Coalescing
import Dataflow.Proofs.Simulation.Units

/-!
# Rescaling the edges

If every token of an edge is cut into the same number of pieces, the rates and the delay of the edge
are multiplied by that number, and nothing that an iteration does depends on it.  The graph is the
rescaled one with its tokens counted in units, both have the same balance equations up to a factor,
and their runs begin and end with the same firings.

* `Edge.scaled`, `Graph.scaled` — the rescaled edges and graphs.
* `Graph.inUnits_scaled` — the graph counts in pieces.
* `Graph.isSolutionOn_scaled_iff` — the balance equations have the same solutions.
* `Segment.fromToken_scaled` — every run is as long as before, in pieces.
* `Wiring.Alike.foldlM_add` — the wiring numbers the ports alike, whatever the lengths of the runs.
* **`Graph.scaled_invariant`** — outcome, repetition vector and reduced form stay the same.
-/

namespace Dataflow

/-- The edge with each of its tokens cut into `n` pieces. -/
def Edge.scaled (n : Nat) (e : Edge) : Edge :=
  { e with production := n * e.production, consumption := n * e.consumption, delay := n * e.delay }

/-- The graph with the tokens of every edge cut into pieces. -/
def Graph.scaled {τ : Type} (g : Graph τ) (scale : Nat → Nat) : Graph τ :=
  g.updateEdges fun i e => e.scaled (scale i)

namespace Graph

variable {τ : Type} {g : Graph τ} {scale : Nat → Nat}

lemma getElem?_edges_scaled (g : Graph τ) (scale : Nat → Nat) (i : Nat) :
    (g.scaled scale).edges[i]? = g.edges[i]?.map (Edge.scaled (scale i)) := by
  simp only [scaled, updateEdges, Array.getElem?_mapIdx]
  rfl

lemma mem_edges_scaled {e' : Edge} :
    e' ∈ (g.scaled scale).edges ↔
      ∃ (i : Nat) (e : Edge), g.edges[i]? = some e ∧ e.scaled (scale i) = e' := by
  rw [Array.mem_iff_getElem?]
  simp only [getElem?_edges_scaled, Option.map_eq_some_iff]

/-- What does not depend on the pieces holds for all edges if it does for the rescaled ones. -/
lemma forall_mem_edges_scaled_iff {p : Edge → Prop} (hp : ∀ i e, p (e.scaled (scale i)) ↔ p e) :
    (∀ e ∈ (g.scaled scale).edges, p e) ↔ ∀ e ∈ g.edges, p e := by
  constructor
  · intro h e he
    obtain ⟨i, hi⟩ := Array.getElem?_of_mem he
    exact (hp i e).1 (h _ (mem_edges_scaled.2 ⟨i, e, hi, rfl⟩))
  · intro h e' he'
    obtain ⟨i, e, he, rfl⟩ := mem_edges_scaled.1 he'
    exact (hp i e).2 (h e (Array.mem_of_getElem? he))

/-! ## Simulation -/

/-- The graph is the rescaled one with the pieces of a token for a unit. -/
theorem inUnits_scaled (hscale : ∀ i, 1 ≤ scale i) : (g.scaled scale).InUnits scale g where
  unit_pos := hscale
  actors_size := rfl
  edges_size := by simp [scaled, updateEdges]
  actors a x y hx hy := by
    obtain rfl := Option.some.inj (hx.symm.trans hy)
    exact ⟨rfl, rfl, rfl, rfl⟩
  edges i e' e he' he := by
    rw [getElem?_edges_scaled, he, Option.map_some] at he'
    obtain rfl := Option.some.inj he'
    exact
      { source := rfl
        target := rfl
        production := rfl
        consumption := rfl
        delay := (Nat.mul_div_cancel_left _ (hscale i)).symm
        sourcePort := rfl
        targetPort := rfl }

/-! ## Balance -/

lemma linked_scaled (g : Graph τ) (scale : Nat → Nat) : (g.scaled scale).Linked = g.Linked := by
  have hjoins : ∀ a b, (g.scaled scale).Joins a b ↔ g.Joins a b := by
    intro a b
    have hends : (∀ e ∈ (g.scaled scale).edges, ¬ (e.source = a ∧ e.target = b)) ↔
        ∀ e ∈ g.edges, ¬ (e.source = a ∧ e.target = b) :=
      forall_mem_edges_scaled_iff fun _ _ => Iff.rfl
    simpa only [Joins, not_exists, not_and, not_forall, not_not, exists_prop] using
      not_congr hends
  have heq : (g.scaled scale).Joins = g.Joins := funext₂ fun a b => propext (hjoins a b)
  funext a b
  rw [Linked, Linked, heq]

lemma balances_scaled_iff {n : Nat} (hn : 0 < n) {e : Edge} {firings : Nat → Nat} :
    (e.scaled n).Balances firings ↔ e.Balances firings := by
  simp only [Edge.Balances, Edge.scaled, Nat.mul_assoc]
  exact Nat.mul_right_inj (Nat.ne_of_gt hn)

/-- The balance equations of the rescaled edges are multiples of those of the edges. -/
lemma isSolutionOn_scaled_iff (hscale : ∀ i, 1 ≤ scale i) {part : Nat → Prop}
    {firings : Nat → Nat} :
    (g.scaled scale).IsSolutionOn part firings ↔ g.IsSolutionOn part firings := by
  have hedges : (∀ e ∈ (g.scaled scale).edges, part e.source → e.Balances firings) ↔
      ∀ e ∈ g.edges, part e.source → e.Balances firings :=
    forall_mem_edges_scaled_iff fun i _ => imp_congr_right fun _ => balances_scaled_iff (hscale i)
  exact ⟨fun h => ⟨h.pos, hedges.1 h.balances⟩, fun h => ⟨h.pos, hedges.2 h.balances⟩⟩

lemma isLeastOn_scaled_iff (hscale : ∀ i, 1 ≤ scale i) {part : Nat → Prop}
    {firings : Nat → Nat} :
    (g.scaled scale).IsLeastOn part firings ↔ g.IsLeastOn part firings := by
  constructor
  · intro h
    refine ⟨(isSolutionOn_scaled_iff hscale).1 h.toIsSolutionOn, fun M hM => ?_⟩
    exact h.least M ((isSolutionOn_scaled_iff hscale).2 hM)
  · intro h
    refine ⟨(isSolutionOn_scaled_iff hscale).2 h.toIsSolutionOn, fun M hM => ?_⟩
    exact h.least M ((isSolutionOn_scaled_iff hscale).1 hM)

/-- What is found for the rescaled graph is what is found for the graph. -/
theorem repetitionVector_scaled (hscale : ∀ i, 1 ≤ scale i) {counts counts' : List Nat}
    (h : g.repetitionVector = .ok counts) (h' : (g.scaled scale).repetitionVector = .ok counts') :
    counts' = counts := by
  obtain ⟨hlength, hleast⟩ := isLeastOn_of_repetitionVector h
  obtain ⟨hlength', hleast'⟩ := isLeastOn_of_repetitionVector h'
  have hsize : counts'.length = counts.length := hlength'.trans hlength.symm
  refine List.ext_getElem hsize fun a ha' ha => ?_
  have hroot : a < g.actors.size := hlength ▸ ha
  have hpart := hleast' a hroot
  rw [linked_scaled, isLeastOn_scaled_iff hscale] at hpart
  simpa [ha, ha'] using (hleast a hroot).unique hpart (.refl a)

end Graph

/-! ## Runs -/

namespace Segment

variable {e : Edge} {n receivers sender offset : Nat}

/-- The segment in pieces. -/
def scaled (n : Nat) (s : Segment) : Segment :=
  { s with offset := n * s.offset, length := n * s.length }

lemma cut_scaled (hn : 0 < n) {left room : Nat} (hleft : 0 < left) (hroom : 0 < room) :
    cut .runs (n * left) (n * room) = n * cut .runs left room := by
  have hmin : 1 ≤ min left room := Nat.le_min.2 ⟨hleft, hroom⟩
  simp only [cut]
  rw [Nat.mul_min_mul_left, Nat.max_eq_right hmin, Nat.max_eq_right]
  exact Nat.mul_pos hn hmin

lemma startingAt_scaled (hn : 0 < n) (hc : 0 < e.consumption) (h : offset < e.production) :
    startingAt .runs (e.scaled n) receivers sender (n * offset) =
      (startingAt .runs e receivers sender offset).scaled n := by
  have htoken : firstToken (e.scaled n) sender + n * offset =
      n * (firstToken e sender + offset) := by
    simp only [firstToken, Edge.scaled]
    rw [Nat.mul_add, Nat.mul_add, Nat.mul_left_comm]
  have hroom : 0 < e.consumption -
      (firstToken e sender + offset) % (e.consumption * receivers) % e.consumption :=
    Nat.sub_pos_of_lt (Nat.mod_lt _ hc)
  simp only [startingAt, scaled, htoken]
  simp only [Edge.scaled, Nat.mul_assoc, Nat.mul_mod_mul_left, Nat.mul_div_mul_left _ _ hn,
    ← Nat.mul_sub, cut_scaled hn (Nat.sub_pos_of_lt h) hroom]

/-- The runs of a rescaled edge are the runs of the edge, in pieces. -/
theorem fromToken_scaled (hn : 0 < n) (hc : 0 < e.consumption) :
    fromToken .runs (e.scaled n) receivers sender (n * offset) =
      (fromToken .runs e receivers sender offset).map (scaled n) := by
  fun_induction fromToken .runs e receivers sender offset with
  | case1 offset h s ih =>
    have hlt : n * offset < (e.scaled n).production := Nat.mul_lt_mul_of_pos_left h hn
    have hstart : startingAt .runs (e.scaled n) receivers sender (n * offset) = s.scaled n :=
      startingAt_scaled hn hc h
    rw [fromToken_of_lt hlt, hstart, List.map_cons, ← ih, Nat.mul_add]
    rfl
  | case2 offset h =>
    have hnot : ¬ n * offset < (e.scaled n).production :=
      fun hlt => h (Nat.lt_of_mul_lt_mul_left hlt)
    rw [fromToken_of_not_lt hnot, List.map_nil]

lemma toList_ofEdge_scaled (hn : 0 < n) (hc : 0 < e.consumption) (senders : Nat) :
    (ofEdge .runs (e.scaled n) senders receivers).toList =
      (ofEdge .runs e senders receivers).toList.map (scaled n) := by
  rw [toList_ofEdge, toList_ofEdge, List.map_flatMap]
  refine List.flatMap_congr fun sender _ => ?_
  rw [← fromToken_scaled hn hc, Nat.mul_zero]

end Segment

namespace Expansion

variable {τ : Type} {g : Graph τ} {scale : Nat → Nat} {e : Edge} {n base : Nat}

/-- The links of a rescaled edge are the links of the edge, in pieces. -/
lemma arcs_edgeLinks_scaled (hn : 0 < n) (hc : 0 < e.consumption) :
    (edgeLinks (g.scaled scale) .runs base (e.scaled n)).map Link.arc =
      (edgeLinks g .runs base e).map Link.arc := by
  have hsegments : (segments (g.scaled scale) .runs (e.scaled n)).toList =
      (segments g .runs e).toList.map (Segment.scaled n) :=
    Segment.toList_ofEdge_scaled hn hc _
  rw [edgeLinks, edgeLinks, hsegments, List.map_map, List.map_map, List.map_map]
  refine List.map_congr_left fun s hs => ?_
  have hlength := length_pos_of_mem_segments hs
  have hlag : s.lag * (n * s.length) / (n * s.length) = s.lag * s.length / s.length := by
    rw [Nat.mul_div_cancel _ (Nat.mul_pos hn hlength), Nat.mul_div_cancel _ hlength]
  simp only [Function.comp_apply, Link.arc, link, Segment.delay, Segment.scaled, hlag]
  rfl

/-- The links of a rescaled graph have the arcs of the links of the graph. -/
theorem arcs_links_scaled (hscale : ∀ i, 1 ≤ scale i) (hc : ∀ e ∈ g.edges, 0 < e.consumption) :
    (links (g.scaled scale) .runs).toList.map Link.arc = (links g .runs).toList.map Link.arc := by
  have hedges : (g.scaled scale).edges.toList.zipIdx =
      g.edges.toList.zipIdx.map fun p => (p.1.scaled (scale p.2), p.2) := by
    refine List.ext_getElem? fun i => ?_
    simp [Graph.getElem?_edges_scaled, Function.comp_def]
  rw [toList_links, toList_links, hedges, List.map_flatMap, List.map_flatMap, List.flatMap_map]
  refine List.flatMap_congr fun p hmem => ?_
  have he := Array.mem_of_getElem? (mem_zipIdx_edges.1 hmem)
  exact arcs_edgeLinks_scaled (hscale p.2) (hc p.1 he)

end Expansion

/-! ## Wiring -/

namespace Wiring

variable {τ : Type} {w w' v v' : Wiring τ} {l l' : Link}

/-- The wirings number the next ports alike, and their edges have the same homogeneous forms. -/
structure Alike (w v : Wiring τ) : Prop where
  leaving : v.leaving = w.leaving
  entering : v.entering = w.entering
  edges : v.graph.edges.map Edge.homogeneous = w.graph.edges.map Edge.homogeneous

lemma Alike.homogeneous_edge (h : Alike w v) (hl : l'.arc = l.arc) :
    (v.edge l').homogeneous = (w.edge l).homogeneous := by
  simp only [Link.arc, Arc.mk.injEq] at hl
  obtain ⟨hsource, htarget, hlag, hbase⟩ := hl
  simp only [edge, Edge.homogeneous, Graph.numberedEdge, h.leaving, h.entering, hsource, htarget,
    hlag, hbase]

lemma Alike.add (h : Alike w v) (hl : l'.arc = l.arc) (hw : w.add l = .ok w')
    (hv : v.add l' = .ok v') : Alike w' v' := by
  obtain ⟨_, hedges, hleaving, hentering⟩ := add_eq_ok hw
  obtain ⟨_, hedges', hleaving', hentering'⟩ := add_eq_ok hv
  have hedge := h.homogeneous_edge hl
  simp only [Link.arc, Arc.mk.injEq] at hl
  obtain ⟨hsource, htarget, _⟩ := hl
  refine ⟨?_, ?_, ?_⟩
  · rw [hleaving, hleaving', h.leaving, hsource]
  · rw [hentering, hentering', h.entering, htarget]
  · rw [hedges, hedges', Array.map_push, Array.map_push, h.edges, hedge]

/-- Links with the same arcs are wired alike. -/
theorem Alike.foldlM_add : ∀ {links links' : List Link} {w v : Wiring τ}, Alike w v →
    links'.map Link.arc = links.map Link.arc → links.foldlM Wiring.add w = .ok w' →
      links'.foldlM Wiring.add v = .ok v' → Alike w' v'
  | [], [], w, v, h, _, hw, hv => by
      rw [List.foldlM_nil, pure_eq_ok] at hw hv
      exact hv ▸ hw ▸ h
  | l :: links, l' :: links', w, v, h, harcs, hw, hv => by
      rw [List.foldlM_cons, bind_eq_ok] at hw hv
      obtain ⟨m, hm, hrest⟩ := hw
      obtain ⟨m', hm', hrest'⟩ := hv
      obtain ⟨hl, harcs⟩ := List.cons.inj harcs
      exact (h.add hl hm hm').foldlM_add harcs hrest hrest'

end Wiring

/-! ## The reduced form -/

namespace Graph

variable {τ : Type} {g h : Graph τ} {scale : Nat → Nat}

lemma eq_of_parts (hname : h.name = g.name) (hactors : h.actors = g.actors)
    (hedges : h.edges = g.edges) : h = g := by
  obtain ⟨name, actors, edges, _⟩ := g
  obtain ⟨name', actors', edges', _⟩ := h
  obtain rfl : name' = name := hname
  obtain rfl : actors' = actors := hactors
  obtain rfl : edges' = edges := hedges
  rfl

variable [Clock τ]

/-- The single-rate expansions of the two graphs have the same homogeneous forms of edges. -/
lemma edges_expand_scaled (hscale : ∀ i, 1 ≤ scale i) {s s' : Graph τ}
    (hs : g.expand .runs = .ok s) (hs' : (g.scaled scale).expand .runs = .ok s') :
    s'.edges.map Edge.homogeneous = s.edges.map Edge.homogeneous := by
  obtain ⟨hg, w, rfl, hw⟩ := exists_wiring hs
  obtain ⟨_, w', rfl, hw'⟩ := exists_wiring hs'
  have hstart : Wiring.Alike (.start (Expansion.skeleton g .runs))
      (.start (Expansion.skeleton (g.scaled scale) .runs)) := ⟨rfl, rfl, rfl⟩
  have harcs := Expansion.arcs_links_scaled hscale hg.consumption_pos
  exact (hstart.foldlM_add harcs hw hw').edges

theorem reduced_scaled (hscale : ∀ i, 1 ≤ scale i) {r r' : Graph τ} (hr : g.reduced = .ok r)
    (hr' : (g.scaled scale).reduced = .ok r') : r' = r := by
  obtain ⟨s, hs, _⟩ := bind_eq_ok.1 hr
  obtain ⟨s', hs', _⟩ := bind_eq_ok.1 hr'
  obtain rfl := Except.ok.inj ((reduced_eq_ok hs).symm.trans hr)
  obtain rfl := Except.ok.inj ((reduced_eq_ok hs').symm.trans hr')
  have hexpanded := expanded_of_expand hs
  have hexpanded' := expanded_of_expand hs'
  refine eq_of_parts rfl ?_ ?_
  · rw [hexpanded.actors_homogeneousForm, hexpanded'.actors_homogeneousForm, hexpanded.actors,
      hexpanded'.actors]
    rfl
  · rw [hexpanded.edges_homogeneousForm, hexpanded'.edges_homogeneousForm,
      edges_expand_scaled hscale hs hs']

/-- **Rescaling.**  The rates and the delay of every edge may be multiplied by a positive factor of
the edge.  Whenever something is found for both graphs, the outcome of an iteration is the same, the
repetition vector is the same, and the reduced form is the same, the names of its ports and the
origins of its edges included. -/
theorem scaled_invariant (g : Graph τ) {scale : Nat → Nat} (hscale : ∀ i, 1 ≤ scale i) :
    (∀ o, (g.scaled scale).schedule = .ok o → g.schedule = .ok o) ∧
      (∀ counts counts', g.repetitionVector = .ok counts →
        (g.scaled scale).repetitionVector = .ok counts' → counts' = counts) ∧
      ∀ r r', g.reduced = .ok r → (g.scaled scale).reduced = .ok r' → r' = r :=
  ⟨fun _ => (inUnits_scaled hscale).schedule_eq,
    fun _ _ => repetitionVector_scaled hscale,
    fun _ _ => reduced_scaled hscale⟩

/-- The three edges of the pair may be cut into two, three and four pieces. -/
theorem parallelPair_scaled :
    (∀ i, 1 ≤ i + 2) ∧
      (∃ o, ((parallelPair 4 6).scaled (· + 2)).schedule = .ok o ∧
        (parallelPair 4 6).schedule = .ok o) ∧
      ((parallelPair 4 6).scaled (· + 2)).repetitionVector = .ok [2, 3] ∧
      ∃ r, (parallelPair 4 6).reduced = .ok r ∧
        ((parallelPair 4 6).scaled (· + 2)).reduced = .ok r ∧ r.edges.size = 12 := by
  have hscale : ∀ i, 1 ≤ i + 2 := fun i => Nat.le_add_left 1 (i + 1)
  obtain ⟨hschedule, hcounts, hreduced⟩ := scaled_invariant (parallelPair 4 6) hscale
  obtain ⟨o, ho, _⟩ := exists_of_any_ok (x := ((parallelPair 4 6).scaled (· + 2)).schedule)
    (p := fun _ => true) (by cbv)
  obtain ⟨counts, hc, _⟩ := exists_of_any_ok
    (x := ((parallelPair 4 6).scaled (· + 2)).repetitionVector) (p := fun _ => true) (by cbv)
  obtain ⟨s, hs, hsize⟩ := exists_of_any_ok (x := (parallelPair 4 6).expand .runs)
    (p := fun s => s.edges.size == 12) (by cbv)
  obtain ⟨s', hs', _⟩ := exists_of_any_ok (x := ((parallelPair 4 6).scaled (· + 2)).expand .runs)
    (p := fun _ => true) (by cbv)
  obtain rfl := hcounts [2, 3] counts (by cbv) hc
  have hr := reduced_eq_ok hs
  have hr' := reduced_eq_ok hs'
  refine ⟨hscale, ⟨o, ho, hschedule o ho⟩, hc, _, hr, ?_, ?_⟩
  · rw [hr', hreduced _ _ hr hr']
  · rw [(expanded_of_expand hs).edges_homogeneousForm, Array.size_map]
    exact eq_of_beq hsize

end Graph

end Dataflow

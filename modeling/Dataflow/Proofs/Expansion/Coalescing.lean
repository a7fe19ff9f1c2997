import Dataflow.Proofs.Clock.Exact
import Dataflow.Proofs.Expansion.Unfolding

/-!
# Coalescing tokens into runs

The homogeneous expansion has an edge for every token, the single-rate expansion one for every run
of tokens between the same two firings.  Spreading every edge of rate `m` into `m` edges of rate one
turns the second into the first, edge by edge and in the same order; no two runs of an edge could
have been joined, so that the homogeneous form of the single-rate expansion (`Graph.reduced`) holds
every edge of the homogeneous expansion once.

* `Graph.validateSingleRate_eq_ok_iff` — the graphs that have a homogeneous form.
* `Graph.reduced_eq_ok` — the one of a single-rate expansion is always found.
* `Graph.Expanded.actors_withOrigins`, `Graph.Expanded.edges_withOrigins` — the parts of an expansion
  remember where they come from.
* **`Graph.expand_runs_coalesces`** — the two expansions and the reduced form side by side.
-/

namespace Dataflow

namespace Graph

variable {τ : Type} {g h s : Graph τ} {grouping : Grouping}

/-! ## Homogeneous forms -/

/-- The homogeneous form of a graph that is single-rate. -/
def homogeneousForm (s : Graph τ) (name : String) : Graph τ :=
  (s.withOrigins.updateEdges fun _ e => e.homogeneous).rename name

lemma getElem?_edges_homogeneousForm (s : Graph τ) (name : String) (i : Nat) :
    (s.homogeneousForm name).edges[i]? =
      s.edges[i]?.map fun e => { e with base := some (e.base.getD i) }.homogeneous := by
  simp only [homogeneousForm, withOrigins, updateEdges, updateActors, rename,
    Array.getElem?_mapIdx, Option.map_map]
  rfl

lemma getElem?_actors_homogeneousForm (s : Graph τ) (name : String) (x : Nat) :
    (s.homogeneousForm name).actors[x]? =
      s.actors[x]?.map fun a => { a with base := some (a.base.getD x) } := by
  simp only [homogeneousForm, withOrigins, updateEdges, updateActors, rename,
    Array.getElem?_mapIdx]

lemma arc_homogeneous (e : Edge) : e.homogeneous.arc = e.arc := by
  simp [Edge.arc, Edge.homogeneous]

variable [Clock τ]

/-! ## Edges and tokens -/

lemma Expanded.production_eq_one (hh : Expanded .single g h) {e : Edge} (he : e ∈ h.edges) :
    e.production = 1 := by
  obtain ⟨l, hl, hc⟩ := hh.exists_link he
  obtain ⟨base, e', t, ht, rfl⟩ := Expansion.exists_segment hl
  obtain ⟨left, room, hlength⟩ := Expansion.exists_cut_of_mem_segments ht
  exact hc.production.trans hlength

/-- An edge for every token: the arcs of the edges are those of the tokens. -/
lemma Expanded.map_arc_single (hh : Expanded .single g h) :
    h.edges.toList.map Edge.arc = Expansion.tokenArcs g := by
  rw [← hh.arcs_eq, arcs, List.map_eq_flatMap]
  refine List.flatMap_congr fun e he => ?_
  rw [hh.production_eq_one (Array.mem_toList_iff.1 he), List.replicate_one]

lemma Expanded.nodup_arcs (hs : Expanded .runs g s) : (s.edges.toList.map Edge.arc).Nodup := by
  rw [hs.map_arc]
  exact Expansion.nodup_arcs_links hs.wellFormed

/-! ## The reduced form -/

lemma validateSingleRate_eq_ok_iff :
    g.validateSingleRate = .ok () ↔
      g.WellFormed ∧ ∀ e ∈ g.edges, e.production = e.consumption := by
  have hsingle : g.multiRateEdge? = none ↔ ∀ e ∈ g.edges, e.production = e.consumption := by
    rw [multiRateEdge?, Array.find?_eq_none]
    simp [Edge.isSingleRate]
  rw [← hsingle, ← validate_eq_ok_iff, validateSingleRate, check_bind_eq_ok]
  cases g.multiRateEdge? with
  | none => simp [pure_eq_ok]
  | some e => simp

lemma Expanded.validateSingleRate (hs : Expanded .runs g s) : s.validateSingleRate = .ok () :=
  validateSingleRate_eq_ok_iff.2
    ⟨hs.wellFormed_expansion, fun _ he => (hs.uniform he).consumption_eq.symm⟩

lemma homogeneous_eq_ok (hs : s.validateSingleRate = .ok ()) :
    s.homogeneous = .ok (s.homogeneousForm (s.name ++ "_HSDF")) := by
  rw [homogeneous, hs]
  rfl

lemma reduced_eq_ok (hs : g.expand .runs = .ok s) :
    g.reduced = .ok (s.homogeneousForm (g.name ++ "_HSDF")) := by
  have hform := homogeneous_eq_ok (expanded_of_expand hs).validateSingleRate
  rw [reduced, hs]
  simp only [bind, Except.bind, hform, pure, Except.pure]
  rfl

/-- Every actor of an expansion remembers where it comes from. -/
lemma Expanded.actors_withOrigins (hs : Expanded grouping g s) :
    s.withOrigins.actors = s.actors := by
  refine Array.ext_getElem? fun x => ?_
  simp only [withOrigins, updateEdges, updateActors, Array.getElem?_mapIdx]
  cases hx : s.actors[x]? with
  | none => rfl
  | some a =>
    obtain ⟨b, i, actor, _, rfl⟩ :=
      Expansion.exists_of_mem_instances hs.actors (Array.mem_of_getElem? hx)
    rfl

/-- Every edge of an expansion remembers where it comes from. -/
lemma Expanded.edges_withOrigins (hs : Expanded grouping g s) :
    s.withOrigins.edges = s.edges := by
  refine Array.ext_getElem? fun i => ?_
  simp only [withOrigins, updateEdges, updateActors, Array.getElem?_mapIdx]
  cases hi : s.edges[i]? with
  | none => rfl
  | some e =>
    obtain ⟨l, _, hc⟩ := hs.exists_link (Array.mem_of_getElem? hi)
    have hbase : some (e.base.getD i) = e.base := by rw [hc.base]; rfl
    simp [hbase]

lemma Expanded.edges_homogeneousForm (hs : Expanded .runs g s) (name : String) :
    (s.homogeneousForm name).edges = s.edges.map Edge.homogeneous := by
  refine Array.ext_getElem? fun i => ?_
  simp only [homogeneousForm, updateEdges, rename, Array.getElem?_mapIdx, Array.getElem?_map,
    hs.edges_withOrigins]
  rfl

lemma Expanded.actors_homogeneousForm (hs : Expanded .runs g s) (name : String) :
    (s.homogeneousForm name).actors = s.actors := hs.actors_withOrigins

lemma Expanded.map_arc_homogeneousForm (hs : Expanded .runs g s) (name : String) :
    (s.homogeneousForm name).edges.toList.map Edge.arc = s.edges.toList.map Edge.arc := by
  rw [hs.edges_homogeneousForm name, Array.toList_map, List.map_map]
  exact List.map_congr_left fun e _ => arc_homogeneous e

lemma Expanded.rates_homogeneousForm (hs : Expanded .runs g s) (name : String) :
    ∀ e ∈ (s.homogeneousForm name).edges, e.production = 1 ∧ e.consumption = 1 := by
  intro e he
  rw [hs.edges_homogeneousForm name, Array.mem_map] at he
  obtain ⟨e', _, rfl⟩ := he
  exact ⟨rfl, rfl⟩

/-- The homogeneous form of the single-rate expansion unfolds the graph, too. -/
theorem Expanded.unfolds_homogeneousForm (hs : Expanded .runs g s) (name : String) :
    g.Unfolds (s.homogeneousForm name) where
  actors := (hs.actors_homogeneousForm name).trans hs.actors
  edges e he := by
    obtain ⟨hp, hc⟩ := hs.rates_homogeneousForm name e he
    exact ⟨by omega, by omega, by simp [hp]⟩
  arcs x := by
    have hmem : (∃ e ∈ (s.homogeneousForm name).edges, e.arc = x) ↔ ∃ e ∈ s.edges, e.arc = x := by
      have := congrArg (x ∈ ·) (hs.map_arc_homogeneousForm name)
      simpa using this
    rw [hmem, hs.unfolds.arcs]

/-- **Coalescing.**  The homogeneous and the single-rate expansion have the same actors.  Every
edge of the single-rate expansion has one positive rate, which divides its delay; spread into edges
of rate one, these edges are those of the homogeneous expansion in the same order, and no two of
them have the same ends, lag and origin.  So the reduced form is found, and it holds every distinct
edge of the homogeneous expansion once. -/
theorem expand_runs_coalesces (hs : g.expand .runs = .ok s) (hh : g.expand .single = .ok h) :
    s.actors = h.actors ∧
      (∀ e ∈ s.edges, 1 ≤ e.production ∧ e.consumption = e.production ∧ e.production ∣ e.delay) ∧
      (∀ e ∈ h.edges, e.production = 1 ∧ e.consumption = 1) ∧
      h.edges.toList.map Edge.arc =
        s.edges.toList.flatMap (fun e => List.replicate e.production e.arc) ∧
      (s.edges.toList.map Edge.arc).Nodup ∧
      ∃ r, g.reduced = .ok r ∧ r.actors = h.actors ∧
        (∀ e ∈ r.edges, e.production = 1 ∧ e.consumption = 1) ∧
        (r.edges.toList.map Edge.arc).Nodup ∧
        ∀ x, x ∈ r.edges.toList.map Edge.arc ↔ x ∈ h.edges.toList.map Edge.arc := by
  have hr := reduced_eq_ok hs
  have hs := expanded_of_expand hs
  have hh := expanded_of_expand hh
  have hactors : s.actors = h.actors := hs.actors.trans hh.actors.symm
  refine ⟨hactors, fun e he => ?_, fun e he => ?_, ?_, hs.nodup_arcs, _, hr, ?_, ?_, ?_,
    fun x => ?_⟩
  · have := hs.uniform he
    exact ⟨this.production_pos, this.consumption_eq, this.dvd_delay⟩
  · have hp := hh.production_eq_one he
    exact ⟨hp, (hh.uniform he).consumption_eq.trans hp⟩
  · exact hh.map_arc_single.trans hs.arcs_eq.symm
  · exact (hs.actors_homogeneousForm _).trans hactors
  · exact hs.rates_homogeneousForm _
  · rw [hs.map_arc_homogeneousForm]
    exact hs.nodup_arcs
  · have hx := (hs.unfolds.arcs x).trans (hh.unfolds.arcs x).symm
    rw [hs.map_arc_homogeneousForm]
    simpa using hx

/-- The twelve runs of the pair spread into its 24 tokens. -/
theorem parallelPair_coalesces :
    ∃ s h r, (parallelPair 4 6).expand .runs = .ok s ∧ s.edges.size = 12 ∧
      (parallelPair 4 6).expand .single = .ok h ∧ h.edges.size = 24 ∧
      (parallelPair 4 6).reduced = .ok r ∧
      h.edges.toList.map Edge.arc =
        s.edges.toList.flatMap (fun e => List.replicate e.production e.arc) ∧
      (r.edges.toList.map Edge.arc).Nodup := by
  obtain ⟨s, hs, hruns⟩ := exists_of_any_ok (x := (parallelPair 4 6).expand .runs)
    (p := fun s => s.edges.size == 12) (by cbv)
  obtain ⟨h, hh, htokens⟩ := exists_of_any_ok (x := (parallelPair 4 6).expand .single)
    (p := fun h => h.edges.size == 24) (by cbv)
  obtain ⟨_, _, _, hspread, _, r, hr, _, _, hnodup, _⟩ := expand_runs_coalesces hs hh
  exact ⟨s, h, r, hs, by simpa using hruns, hh, by simpa using htokens, hr, hspread, hnodup⟩

end Graph

end Dataflow

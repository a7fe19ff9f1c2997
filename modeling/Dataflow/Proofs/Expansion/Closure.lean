import Dataflow.Proofs.Expansion.Precedence
import Dataflow.Proofs.Simulation.Homogeneous

/-!
# The forms of a graph are well-formed

A graph has several forms: its two expansions, the homogeneous form, the precedences inside an
iteration, and the last two of the single-rate expansion.  Every form of a well-formed graph is
well-formed.  The names of an expansion are the only point of doubt, because one actor may be named
like an instance of another; but a name is followed by one separator and by digits alone, so that
the last separator tells the two apart (`Actor.name_instance_inj`).

* `Graph.instanceNames` — the names of all instances.
* `Graph.WellFormed.precedenceForm`, `Graph.WellFormed.homogeneousForm` — forms of a well-formed
  graph, one at a time.
* **`Graph.forms_wellFormed`** — all forms, and when those of the single-rate expansion are found.
-/

namespace Dataflow.Graph

variable {τ : Type} {g h : Graph τ}

/-! ## Names of instances -/

/-- The names of all instances, actor by actor; the firings of an actor are counted from one. -/
def instanceNames (g : Graph τ) : List String :=
  g.actors.toList.flatMap fun a => (List.range a.repetitions).map fun i => s!"{a.name}_{i + 1}"

lemma names_instances (g : Graph τ) :
    (Expansion.instances g).toList.map Actor.name = g.instanceNames := by
  have hnames : (g.actors.toList.mapIdx Expansion.instancesOf).map (List.map Actor.name) =
      g.actors.toList.map fun a => (List.range a.repetitions).map fun i => s!"{a.name}_{i + 1}" := by
    refine List.ext_getElem? fun i => ?_
    cases hi : g.actors[i]? <;> simp [hi, Expansion.instancesOf, Actor.instance]
  rw [Expansion.toList_instances, List.map_flatten, hnames, instanceNames, List.flatMap]

variable [Clock τ]

lemma nodup_instanceNames (hg : g.WellFormed) : g.instanceNames.Nodup := by
  rw [← names_instances]
  exact names_nodup_of_instances (h := Expansion.skeleton g .runs) rfl hg

/-! ## What forms are made of -/

omit [Clock τ] in
/-- A graph that remembers where it comes from counts tokens as before. -/
lemma inUnits_withOrigins (g : Graph τ) : g.InUnits (fun _ => 1) g.withOrigins where
  unit_pos _ := Nat.one_pos
  actors_size := by simp [Graph.withOrigins, updateEdges, updateActors]
  edges_size := by simp [Graph.withOrigins, updateEdges, updateActors]
  actors a x y hx hy := by
    simp only [Graph.withOrigins, updateEdges, updateActors, Array.getElem?_mapIdx, hx,
      Option.map_some] at hy
    obtain rfl := Option.some.inj hy
    exact ⟨rfl, rfl, rfl, rfl⟩
  edges i e e' he he' := by
    simp only [Graph.withOrigins, updateEdges, updateActors, Array.getElem?_mapIdx, he,
      Option.map_some] at he'
    obtain rfl := Option.some.inj he'
    exact ⟨rfl, rfl, (Nat.one_mul _).symm, (Nat.one_mul _).symm, (Nat.div_one _).symm, rfl, rfl⟩

lemma WellFormed.filterEdges (hg : g.WellFormed) (name : String) (keep : Edge → Bool) :
    (g.filterEdges name keep).WellFormed where
  names_nodup := hg.names_nodup
  actors_wellFormed := hg.actors_wellFormed
  edges_wellFormed e he := by
    have hw := hg.edges_wellFormed e (Array.mem_filter.1 he).1
    exact ⟨hw.1, hw.2, hw.3, hw.4, hw.5, hw.6⟩

lemma WellFormed.rename (hg : g.WellFormed) (name : String) : (g.rename name).WellFormed where
  names_nodup := hg.names_nodup
  actors_wellFormed := hg.actors_wellFormed
  edges_wellFormed e he := by
    have hw := hg.edges_wellFormed e he
    exact ⟨hw.1, hw.2, hw.3, hw.4, hw.5, hw.6⟩

lemma WellFormed.precedenceForm (hg : g.WellFormed) (name : String) :
    (g.precedenceForm name).WellFormed :=
  ((inUnits_withOrigins g).wellFormed hg).filterEdges name _

lemma WellFormed.homogeneousForm (hg : g.WellFormed)
    (hrates : ∀ e ∈ g.edges, e.production = e.consumption) (name : String) :
    (g.homogeneousForm name).WellFormed :=
  (inUnits_homogeneousForm hg hrates name).wellFormed hg

/-! ## Forms -/

lemma wellFormed_of_homogeneous (hh : g.homogeneous = .ok h) : h.WellFormed := by
  obtain ⟨hvalid, hform⟩ := check_bind_eq_ok.1 hh
  obtain rfl := pure_eq_ok.1 hform
  obtain ⟨hg, hrates⟩ := validateSingleRate_eq_ok_iff.1 hvalid
  exact hg.homogeneousForm hrates _

lemma wellFormed_of_precedences (hh : g.precedences = .ok h) : h.WellFormed := by
  obtain ⟨hvalid, hform⟩ := check_bind_eq_ok.1 hh
  obtain rfl := pure_eq_ok.1 hform
  exact (validateSingleRate_eq_ok_iff.1 hvalid).1.precedenceForm _

lemma wellFormed_of_reduced (hh : g.reduced = .ok h) : h.WellFormed := by
  obtain ⟨s, hs, _⟩ := bind_eq_ok.1 hh
  obtain rfl := Except.ok.inj ((reduced_eq_ok hs).symm.trans hh)
  have hexpanded := expanded_of_expand hs
  refine hexpanded.wellFormed_expansion.homogeneousForm (fun e he => ?_) _
  exact (hexpanded.uniform he).consumption_eq.symm

lemma wellFormed_of_iterationPrecedences (hh : g.iterationPrecedences = .ok h) :
    h.WellFormed := by
  obtain ⟨s, hs, _⟩ := bind_eq_ok.1 hh
  obtain rfl := Except.ok.inj ((iterationPrecedences_eq_ok hs).symm.trans hh)
  exact ((expanded_of_expand hs).wellFormed_expansion.precedenceForm _).rename _

/-- **Forms of well-formed graphs are well-formed.**  No two instances of a well-formed graph share
a name, and every form that is found is well-formed again.  So the single-rate expansion always
passes the check that comes before its own forms, and these are found exactly if it is. -/
theorem forms_wellFormed (hg : g.validate = .ok ()) :
    g.instanceNames.Nodup ∧
      (∀ grouping h, g.expand grouping = .ok h →
        h.validate = .ok () ∧ h.actors.toList.map Actor.name = g.instanceNames) ∧
      (∀ h, g.reduced = .ok h → h.validate = .ok ()) ∧
      (∀ h, g.iterationPrecedences = .ok h → h.validate = .ok ()) ∧
      (∀ h, g.homogeneous = .ok h → h.validate = .ok ()) ∧
      (∀ h, g.precedences = .ok h → h.validate = .ok ()) ∧
      (∀ s, g.expand .runs = .ok s → s.validateSingleRate = .ok ()) ∧
      ((∃ r, g.reduced = .ok r) ↔ ∃ s, g.expand .runs = .ok s) ∧
      ((∃ d, g.iterationPrecedences = .ok d) ↔ ∃ s, g.expand .runs = .ok s) := by
  refine ⟨nodup_instanceNames (validate_eq_ok_iff.1 hg), fun grouping h hh => ?_,
    fun h hh => validate_eq_ok_iff.2 (wellFormed_of_reduced hh),
    fun h hh => validate_eq_ok_iff.2 (wellFormed_of_iterationPrecedences hh),
    fun h hh => validate_eq_ok_iff.2 (wellFormed_of_homogeneous hh),
    fun h hh => validate_eq_ok_iff.2 (wellFormed_of_precedences hh),
    fun s hs => (expanded_of_expand hs).validateSingleRate, ⟨?_, ?_⟩, ⟨?_, ?_⟩⟩
  · have hexpanded := expanded_of_expand hh
    refine ⟨validate_eq_ok_iff.2 hexpanded.wellFormed_expansion, ?_⟩
    rw [hexpanded.actors, names_instances]
  · rintro ⟨r, hr⟩
    exact (bind_eq_ok.1 hr).imp fun _ hs => hs.1
  · rintro ⟨s, hs⟩
    exact ⟨_, reduced_eq_ok hs⟩
  · rintro ⟨d, hd⟩
    exact (bind_eq_ok.1 hd).imp fun _ hs => hs.1
  · rintro ⟨s, hs⟩
    exact ⟨_, iterationPrecedences_eq_ok hs⟩

/-- Two actors, one of which is named like an instance of the other, with more initial tokens than
an iteration consumes. -/
def namesakes : Graph ℚ where
  name := "namesakes"
  actors := #[.atomic "A" 3 1, .atomic "A_1" 2 1]
  edges := #[numberedEdge 0 0 0 1 2 3 7]
  closed := by simp [numberedEdge]

/-- The five instances of the namesakes have five names, and both forms of the expansion are
well-formed. -/
theorem namesakes_forms :
    namesakes.validate = .ok () ∧
      namesakes.instanceNames = ["A_1", "A_2", "A_3", "A_1_1", "A_1_2"] ∧
      namesakes.instanceNames.Nodup ∧
      (∃ r, namesakes.reduced = .ok r ∧ r.validate = .ok ()) ∧
      ∃ d, namesakes.iterationPrecedences = .ok d ∧ d.validate = .ok () := by
  have hvalid : namesakes.validate = .ok () := by cbv
  obtain ⟨hnodup, _, hreduced, hprecedences, _, _, _, hr, hd⟩ := forms_wellFormed hvalid
  obtain ⟨s, hs, _⟩ := exists_of_any_ok (x := namesakes.expand .runs) (p := fun _ => true) (by cbv)
  obtain ⟨r, hr⟩ := hr.2 ⟨s, hs⟩
  obtain ⟨d, hd⟩ := hd.2 ⟨s, hs⟩
  exact ⟨hvalid, by cbv, hnodup, ⟨r, hr, hreduced r hr⟩, d, hd, hprecedences d hd⟩

end Dataflow.Graph

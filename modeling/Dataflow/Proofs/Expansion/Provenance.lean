import Dataflow.Proofs.Expansion.Precedence

/-!
# Where the parts of an expansion come from

Everything in an expansion remembers what it was made from.  Its actors are the instances, those of
one actor of the graph after those of another, and its edges point to the edges of the graph whose
tokens they carry.  The forms of the single-rate expansion keep these memories: a form only lets
those actors and edges point to the expansion that have no memory of their own, and there are none.

* `Graph.baseOf` — the actor that an instance belongs to.
* `Graph.Derives` — the actors are the instances, and every edge leads between instances of the
  ends of the edge that it comes from.
* `Graph.Unfolds.derives` — whatever unfolds a graph is derived from it.
* **`Graph.forms_derived`** — both expansions and both forms of the single-rate expansion.
-/

namespace Dataflow

namespace Graph

variable {τ : Type} {g h s : Graph τ} {grouping : Grouping}

/-- The actor of the expanded graph that an actor is an instance of. -/
def baseOf (h : Graph τ) (x : Nat) : Option Nat := h.actors[x]?.bind Actor.base

/-- The parts of `h` come from those of `g`.  The actors are the instances for the firings of every
actor in turn, and every edge knows the edge of `g` that it was made from and leads from an instance
of its source to an instance of its target. -/
structure Derives (g h : Graph τ) : Prop where
  actors : h.actors.toList = g.actors.toList.zipIdx.flatMap fun (a, base) =>
    (List.range a.repetitions).map fun i =>
      { name := s!"{a.name}_{i + 1}", kind := a.kind, repetitions := 1, duration := a.duration,
        normalizedRate := none, base := some base }
  edges : ∀ e ∈ h.edges, ∃ base e', e.base = some base ∧ g.edges[base]? = some e' ∧
    h.baseOf e.source = some e'.source ∧ h.baseOf e.target = some e'.target

lemma IsInstance.baseOf {x a i : Nat} (hx : g.IsInstance h x a i) : h.baseOf x = some a := by
  obtain ⟨actor, _, _, hx⟩ := hx
  simp [Graph.baseOf, hx, Actor.instance]

/-- The instances stand in the order of their actors and of the firings. -/
lemma toList_instances_zipIdx (g : Graph τ) :
    (Expansion.instances g).toList = g.actors.toList.zipIdx.flatMap fun (a, base) =>
      (List.range a.repetitions).map (a.instance base) := by
  rw [Expansion.toList_instances, List.mapIdx_eq_zipIdx_map, List.flatMap]
  rfl

/-! ## Derived graphs -/

section Forms

variable [Clock τ]

/-- Whatever unfolds a graph is derived from it. -/
theorem Unfolds.derives (hh : g.Unfolds h) (hg : g.WellFormed) : g.Derives h where
  actors := by
    rw [hh.actors]
    exact toList_instances_zipIdx g
  edges e he := by
    obtain ⟨base, e', n, he', hn, harc⟩ := mem_tokenArcs.1 ((hh.arcs e.arc).1 ⟨e, he, rfl⟩)
    have hends := g.closed e' (Array.mem_of_getElem? he')
    have hsender : n / e'.production < g.repetitions e'.source := Nat.div_lt_of_lt_mul hn
    have hreceiver := Nat.mod_lt (e'.reader n) (hg.repetitions_pos hends.2)
    have hsource : e.source = _ := (congrArg Arc.source harc).symm
    have htarget : e.target = _ := (congrArg Arc.target harc).symm
    refine ⟨base, e', (congrArg Arc.base harc).symm, he', ?_, ?_⟩
    · rw [hsource]
      exact (Expansion.isInstance_firstInstance hh.actors hsender).baseOf
    · rw [htarget]
      exact (Expansion.isInstance_firstInstance hh.actors hreceiver).baseOf

/-- Dropping edges loses no memory. -/
lemma Expanded.derives_precedenceForm (hs : Expanded grouping g s) (name name' : String) :
    g.Derives ((s.precedenceForm name).rename name') := by
  have hderives := hs.unfolds.derives hs.wellFormed
  have hactors : ((s.precedenceForm name).rename name').actors = s.actors := hs.actors_withOrigins
  refine ⟨hactors ▸ hderives.actors, fun e he => ?_⟩
  have hkept : e ∈ s.withOrigins.edges := (Array.mem_filter.1 he).1
  rw [hs.edges_withOrigins] at hkept
  simp only [Graph.baseOf, hactors]
  exact hderives.edges e hkept

end Forms

variable [Clock τ]

/-- **Provenance.**  Both expansions of a graph, the homogeneous form of the single-rate expansion
and its precedences are derived from the graph: the actors are the instances in order, with kind and
time of their actor and one firing each, and every edge comes from an edge of the graph itself whose
ends are what its own ends are instances of. -/
theorem forms_derived (g : Graph τ) :
    (∀ grouping h, g.expand grouping = .ok h → g.Derives h) ∧
      (∀ h, g.reduced = .ok h → g.Derives h) ∧
      ∀ h, g.iterationPrecedences = .ok h → g.Derives h := by
  refine ⟨fun grouping h hh => ?_, fun h hh => ?_, fun h hh => ?_⟩
  · have hexpanded := expanded_of_expand hh
    exact hexpanded.unfolds.derives hexpanded.wellFormed
  · obtain ⟨s, hs, _⟩ := bind_eq_ok.1 hh
    obtain rfl := Except.ok.inj ((reduced_eq_ok hs).symm.trans hh)
    have hexpanded := expanded_of_expand hs
    exact (hexpanded.unfolds_homogeneousForm _).derives hexpanded.wellFormed
  · obtain ⟨s, hs, _⟩ := bind_eq_ok.1 hh
    obtain rfl := Except.ok.inj ((iterationPrecedences_eq_ok hs).symm.trans hh)
    exact (expanded_of_expand hs).derives_precedenceForm _ _

/-- All forms of the pair are found and derived from it. -/
theorem parallelPair_derives :
    (∃ h, (parallelPair 4 6).expand .single = .ok h ∧ (parallelPair 4 6).Derives h) ∧
      (∃ s, (parallelPair 4 6).expand .runs = .ok s ∧ (parallelPair 4 6).Derives s) ∧
      (∃ r, (parallelPair 4 6).reduced = .ok r ∧ (parallelPair 4 6).Derives r) ∧
      ∃ d, (parallelPair 4 6).iterationPrecedences = .ok d ∧ (parallelPair 4 6).Derives d := by
  obtain ⟨hexpand, hreduced, hprecedences⟩ := forms_derived (parallelPair 4 6)
  obtain ⟨h, hh, _⟩ := exists_of_any_ok (x := (parallelPair 4 6).expand .single)
    (p := fun _ => true) (by cbv)
  obtain ⟨s, hs, _⟩ := exists_of_any_ok (x := (parallelPair 4 6).expand .runs)
    (p := fun _ => true) (by cbv)
  exact ⟨⟨h, hh, hexpand _ h hh⟩, ⟨s, hs, hexpand _ s hs⟩,
    ⟨_, reduced_eq_ok hs, hreduced _ (reduced_eq_ok hs)⟩,
    _, iterationPrecedences_eq_ok hs, hprecedences _ (iterationPrecedences_eq_ok hs)⟩

end Graph

end Dataflow

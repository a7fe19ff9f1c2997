import Dataflow.Proofs.Expansion.Tokens
import Dataflow.Proofs.Expansion.Wiring
import Dataflow.Proofs.Text

/-!
# What an expansion unfolds

The edges of an expansion carry the tokens that an iteration of the graph sends between the
instances of its actors, and every expansion is a well-formed single-rate graph.

* `Graph.Unfolds` — actors are the instances, edges are single-rate and carry the tokens.
* **`Graph.Expanded.arcs_eq`**, `Graph.Expanded.unfolds` — an expansion unfolds its graph.
* **`Graph.Expanded.wellFormed`** — and is well-formed: the names of instances are distinct because
  a name determines the actor and the firing (`Actor.name_instance_inj`).
-/

namespace Dataflow

/-! ## The names of instances -/

lemma Actor.name_instance_inj {τ : Type} {a b : Actor τ} {base base' i j : Nat}
    (h : (a.instance base i).name = (b.instance base' j).name) : a.name = b.name ∧ i = j := by
  have hname : ∀ (c : Actor τ) (base k : Nat), (c.instance base k).name.toList =
      c.name.toList ++ '_' :: (toString (k + 1)).toList := by
    intro c base k
    simp [Actor.instance, toString]
  have hlists := congrArg String.toList h
  rw [hname, hname] at hlists
  obtain ⟨hnames, hdigits⟩ := append_cons_inj (notMem_toString (by decide))
    (notMem_toString (by decide)) hlists
  have hsucc := Counter.toString_inj (String.toList_inj.1 hdigits)
  exact ⟨String.toList_inj.1 hnames, Nat.add_right_cancel hsucc⟩

/-! ## Edges and links -/

lemma Edge.Carries.arc {e : Edge} {l : Link} (h : e.Carries l) : e.arc = l.arc := by
  rw [Edge.arc, Link.arc, h.source, h.target, h.production, h.delay, h.base]

/-- Both rates of the edge are the same, and its delay lasts for whole firings. -/
structure Edge.Uniform (e : Edge) : Prop where
  production_pos : 0 < e.production
  consumption_eq : e.consumption = e.production
  dvd_delay : e.production ∣ e.delay

lemma flatMap_replicate_arc : ∀ {edges : List Edge} {links : List Link},
    List.Forall₂ Edge.Carries edges links →
      edges.flatMap (fun e => List.replicate e.production e.arc) =
        links.flatMap fun l => List.replicate l.rate l.arc
  | [], [], .nil => rfl
  | e :: edges, l :: links, .cons h rest => by
      rw [List.flatMap_cons, List.flatMap_cons, flatMap_replicate_arc rest, h.production, h.arc]

lemma exists_of_forall₂ {α β : Type} {R : α → β → Prop} {x : α} : ∀ {l : List α} {l' : List β},
    List.Forall₂ R l l' → x ∈ l → ∃ y ∈ l', R x y
  | [], _, _, h => by simp at h
  | a :: l, b :: l', .cons hab rest, h => by
      rcases List.mem_cons.1 h with rfl | h
      · exact ⟨b, List.mem_cons_self, hab⟩
      · obtain ⟨y, hy, hxy⟩ := exists_of_forall₂ rest h
        exact ⟨y, List.mem_cons_of_mem b hy, hxy⟩

namespace Graph

variable {τ : Type} {g h : Graph τ} {grouping : Grouping}

/-- The tokens that an iteration of `h` sends on its edges, edge by edge. -/
def arcs (h : Graph τ) : List Arc :=
  h.edges.toList.flatMap fun e => List.replicate e.production e.arc

/-- The graph `h` has the instances of `g` as its actors, and its edges carry the tokens of `g`. -/
structure Unfolds (g h : Graph τ) : Prop where
  actors : h.actors = Expansion.instances g
  edges : ∀ e ∈ h.edges, e.Uniform
  arcs : ∀ x, (∃ e ∈ h.edges, e.arc = x) ↔ x ∈ Expansion.tokenArcs g

lemma mem_tokenArcs {x : Arc} : x ∈ Expansion.tokenArcs g ↔
    ∃ (base : Nat) (e : Edge) (n : Nat), g.edges[base]? = some e ∧
      n < e.production * g.repetitions e.source ∧ Expansion.tokenArc g base e n = x := by
  simp only [Expansion.tokenArcs, Expansion.edgeArcs, List.mem_flatMap, List.mem_map,
    List.mem_range]
  constructor
  · rintro ⟨⟨e, base⟩, hmem, n, hn, rfl⟩
    exact ⟨base, e, n, Expansion.mem_zipIdx_edges.1 hmem, hn, rfl⟩
  · rintro ⟨base, e, n, he, hn, rfl⟩
    exact ⟨(e, base), Expansion.mem_zipIdx_edges.2 he, n, hn, rfl⟩

/-! ## Expansions unfold their graphs -/

namespace Expanded

variable [Clock τ]

lemma map_arc (hh : Expanded grouping g h) :
    h.edges.toList.map Edge.arc = (Expansion.links g grouping).toList.map Link.arc := by
  have hmap : List.Forall₂ (· = ·) (h.edges.toList.map Edge.arc)
      ((Expansion.links g grouping).toList.map Link.arc) := by
    rw [List.forall₂_map_left_iff, List.forall₂_map_right_iff]
    exact hh.edges.imp fun e l hc => hc.arc
  rwa [List.forall₂_eq_eq_eq] at hmap

/-- The edges carry the tokens that an iteration of the graph sends, in order. -/
theorem arcs_eq (hh : Expanded grouping g h) : h.arcs = Expansion.tokenArcs g := by
  rw [← Expansion.arcs_links hh.wellFormed, arcs]
  exact flatMap_replicate_arc hh.edges

lemma exists_link (hh : Expanded grouping g h) {e : Edge} (he : e ∈ h.edges) :
    ∃ l ∈ Expansion.links g grouping, e.Carries l := by
  obtain ⟨l, hl, hc⟩ := exists_of_forall₂ hh.edges (Array.mem_toList_iff.2 he)
  exact ⟨l, Array.mem_toList_iff.1 hl, hc⟩

lemma uniform (hh : Expanded grouping g h) {e : Edge} (he : e ∈ h.edges) :
    e.Uniform := by
  obtain ⟨l, hl, hc⟩ := hh.exists_link he
  obtain ⟨base, e', s, hs, rfl⟩ := Expansion.exists_segment hl
  refine ⟨?_, hc.consumption.trans hc.production.symm, ?_⟩
  · rw [hc.production]
    exact Expansion.length_pos_of_mem_segments hs
  · rw [hc.production, hc.delay]
    exact Nat.dvd_mul_left _ _

theorem unfolds (hh : Expanded grouping g h) : g.Unfolds h where
  actors := hh.actors
  edges _ he := hh.uniform he
  arcs x := by
    rw [← hh.arcs_eq, Graph.arcs]
    simp only [List.mem_flatMap, List.mem_replicate, Array.mem_toList_iff]
    constructor
    · rintro ⟨e, he, rfl⟩
      exact ⟨e, he, Nat.ne_of_gt (hh.uniform he).production_pos, rfl⟩
    · rintro ⟨e, he, _, rfl⟩
      exact ⟨e, he, rfl⟩

end Expanded

/-! ## Expansions are well-formed -/

section WellFormed

variable [Clock τ]

/-- The ends of an edge are instances of the ends of the edge that it comes from. -/
lemma Unfolds.ends (hh : g.Unfolds h) (hg : g.WellFormed) {e : Edge} (he : e ∈ h.edges) :
    ∃ e' ∈ g.edges, (∃ i, g.IsInstance h e.source e'.source i) ∧
      ∃ j, g.IsInstance h e.target e'.target j := by
  obtain ⟨base, e', n, he', hn, hx⟩ := mem_tokenArcs.1 ((hh.arcs e.arc).1 ⟨e, he, rfl⟩)
  have hmem := Array.mem_of_getElem? he'
  have hsender : n / e'.production < g.repetitions e'.source := Nat.div_lt_of_lt_mul hn
  have htarget : 0 < g.repetitions e'.target := hg.repetitions_pos (g.closed e' hmem).2
  have hreceiver := Nat.mod_lt (e'.reader n) htarget
  refine ⟨e', hmem, ⟨n / e'.production, ?_⟩, ⟨e'.reader n % g.repetitions e'.target, ?_⟩⟩
  · have hsource : e.source = _ := (congrArg Arc.source hx).symm
    rw [hsource]
    exact Expansion.isInstance_firstInstance hh.actors hsender
  · have htarget : e.target = _ := (congrArg Arc.target hx).symm
    rw [htarget]
    exact Expansion.isInstance_firstInstance hh.actors hreceiver

/-- No two instances share a name. -/
lemma names_nodup_of_instances (hactors : h.actors = Expansion.instances g) (hg : g.WellFormed) :
    (h.actors.toList.map Actor.name).Nodup := by
  rw [List.Nodup, List.pairwise_map, List.pairwise_iff_getElem]
  intro x y hx hy hxy hname
  obtain ⟨a, i, rfl, actor, ha, _, hxi⟩ :=
    Expansion.exists_isInstance hactors (by simpa using hx)
  obtain ⟨b, j, rfl, actor', hb, _, hyj⟩ :=
    Expansion.exists_isInstance hactors (by simpa using hy)
  obtain ⟨_, hxi⟩ := Array.getElem?_eq_some_iff.1 hxi
  obtain ⟨_, hyj⟩ := Array.getElem?_eq_some_iff.1 hyj
  rw [Array.getElem_toList, Array.getElem_toList, hxi, hyj] at hname
  obtain ⟨hnames, rfl⟩ := Actor.name_instance_inj hname
  -- actors of the graph with one name are one actor
  have hsize : a < (g.actors.toList.map Actor.name).length := by
    simpa using (Array.getElem?_eq_some_iff.1 ha).1
  have hab : a = b := by
    refine (List.getElem?_inj hsize hg.names_nodup).1 ?_
    simp [ha, hb, hnames]
  subst hab
  exact Nat.lt_irrefl _ hxy

/-- A graph that unfolds a well-formed one is well-formed if its ports have the right
directions. -/
theorem Unfolds.wellFormed (hh : g.Unfolds h) (hg : g.WellFormed)
    (hports : ∀ e ∈ h.edges, e.sourcePort.direction = .output ∧ e.targetPort.direction = .input) :
    h.WellFormed := by
  refine ⟨names_nodup_of_instances hh.actors hg, fun a ha => ?_, fun e he => ?_⟩
  · obtain ⟨b, i, actor, hb, rfl⟩ := Expansion.exists_of_mem_instances hh.actors ha
    exact ⟨Nat.one_pos, (hg.actors_wellFormed actor (Array.mem_of_getElem? hb)).isDuration⟩
  · have hs := hh.edges e he
    obtain ⟨e', he', ⟨i, actor, ha, _, hsource⟩, j, actor', hb, _, htarget⟩ := hh.ends hg he
    have hw := hg.edges_wellFormed e' he'
    refine ⟨hs.production_pos, ?_, (hports e he).1, (hports e he).2, ?_, ?_⟩
    · rw [hs.consumption_eq]
      exact hs.production_pos
    · have := hw.source_not_output
      simp only [ha, hsource, Option.map_some] at this ⊢
      exact this
    · have := hw.target_not_input
      simp only [hb, htarget, Option.map_some] at this ⊢
      exact this

lemma Expanded.ports (hh : Expanded grouping g h) {e : Edge} (he : e ∈ h.edges) :
    e.sourcePort.direction = .output ∧ e.targetPort.direction = .input := by
  obtain ⟨l, _, hc⟩ := hh.exists_link he
  exact ⟨hc.sourcePort_output, hc.targetPort_input⟩

theorem Expanded.wellFormed_expansion (hh : Expanded grouping g h) : h.WellFormed :=
  hh.unfolds.wellFormed hh.wellFormed fun _ he => hh.ports he

end WellFormed

end Graph

end Dataflow

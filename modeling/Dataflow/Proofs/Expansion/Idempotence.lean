import Dataflow.Proofs.Expansion.Numbering
import Dataflow.Proofs.Expansion.Range

/-!
# Expanding an expansion

In an expansion every actor fires once, and the delay of an edge lasts for whole firings.  So there
is nothing left to expand: every actor has one instance and all tokens of an edge have one sender
and one reader.  A second expansion keeps the actors and, if it does not split the runs of the
first, the edges with their ports.  The homogeneous expansion of the single-rate expansion spreads
every run into its tokens, and these are the edges of the homogeneous expansion of the graph.

The second way needs less than the first: a run is refused for the number of its first token only,
a token for its own.

* `Graph.Flat` — graphs with nothing to expand, and `Graph.Expanded.flat` that expansions are such.
* `Graph.Flat.map_edge_links_runs`, `Graph.Flat.tokenArcs_eq` — the links of such a graph.
* `Edge.rebase` — the origin of the origin of an edge.
* **`Graph.expand_expand`** — expansions of expansions.
* **`Graph.tardy_expand`** — a graph that has a homogeneous expansion by the second way only.
-/

namespace Dataflow

/-! ## Edges without numbers -/

/-- The edge for one token of an arc, with ports that are still to be numbered. -/
def Arc.edge (x : Arc) : Edge :=
  { Graph.numberedEdge 0 0 x.source x.target 1 1 x.lag with base := x.base }

lemma Link.edge_of_rate_one {l : Link} (h : l.rate = 1) : l.edge = l.arc.edge := by
  simp [Link.edge, Arc.edge, Link.arc, h]

namespace Edge

/-- The edge with another origin and with ports that are still to be numbered. -/
def unnumbered (base : Option Nat) (e : Edge) : Edge :=
  { Graph.numberedEdge 0 0 e.source e.target e.production e.consumption e.delay with base := base }

lemma Carries.unnumbered {e : Edge} {l : Link} (h : e.Carries l) :
    e.unnumbered e.base = l.edge := by
  rw [Edge.unnumbered, Link.edge, h.source, h.target, h.production, h.consumption, h.delay, h.base]

/-- The edge of an expansion of `s`, with what its origin in `s` comes from as its origin. -/
def rebase {τ : Type} (s : Graph τ) (e : Edge) : Edge :=
  { e with base := e.base.bind fun i => s.edges[i]?.bind base }

lemma map_rebase_numbered {τ : Type} (s : Graph τ) (edges : List Edge) :
    (numbered [] edges).map (rebase s) = numbered [] (edges.map (rebase s)) :=
  (numbered_map_base (r := fun b => b.bind fun i => s.edges[i]?.bind base) edges []).symm

end Edge

namespace Expansion

variable {τ : Type} {g : Graph τ} {l : Link}

lemma rate_of_mem_links_single (hl : l ∈ (links g .single).toList) : l.rate = 1 := by
  obtain ⟨base, e, s, hs, rfl⟩ := exists_segment (Array.mem_toList_iff.1 hl)
  obtain ⟨left, room, hlength⟩ := exists_cut_of_mem_segments hs
  exact hlength

/-- The homogeneous expansion is determined by the arcs of the tokens. -/
lemma map_edge_links_single [Clock τ] (hg : g.WellFormed) :
    (links g .single).toList.map Link.edge = (tokenArcs g).map Arc.edge := by
  have harcs : (links g .single).toList.flatMap (fun l => List.replicate l.rate l.arc) =
      tokenArcs g := arcs_links hg
  rw [← harcs, List.map_flatMap, List.map_eq_flatMap]
  refine List.flatMap_congr fun l hl => ?_
  have hrate := rate_of_mem_links_single hl
  rw [hrate, List.replicate_one, List.map_singleton, Link.edge_of_rate_one hrate]

lemma length_tokenArcs (g : Graph τ) : (tokenArcs g).length =
    (g.edges.toList.map fun e => e.production * g.repetitions e.source).sum := by
  have hedge : ∀ p ∈ g.edges.toList.zipIdx, (edgeArcs g p.2 p.1).length =
      p.1.production * g.repetitions p.1.source := by
    intro p _
    simp [edgeArcs]
  rw [tokenArcs, List.length_flatMap, List.map_congr_left hedge]
  congr 1
  conv_rhs => rw [← List.zipIdx_map_fst 0 g.edges.toList, List.map_map]
  rfl

end Expansion

namespace Graph

variable {τ : Type} {g h s u : Graph τ} {grouping : Grouping}

/-! ## Graphs with nothing to expand -/

/-- Every actor fires once in an iteration, and the delay of every edge lasts for whole firings. -/
structure Flat (s : Graph τ) : Prop where
  repetitions_eq_one : ∀ a ∈ s.actors, a.repetitions = 1
  edges : ∀ e ∈ s.edges, e.Uniform

namespace Flat

variable {a i : Nat} {e : Edge}

lemma repetitions_eq (hs : s.Flat) (ha : a < s.actors.size) : s.repetitions a = 1 := by
  simp [Graph.repetitions, ha, hs.repetitions_eq_one]

/-- An actor has the same number as its only instance. -/
lemma firstInstance_eq (hs : s.Flat) (ha : a ≤ s.actors.size) :
    Expansion.firstInstance s a = a := by
  induction a with
  | zero => simp [Expansion.firstInstance]
  | succ a ih => rw [Expansion.firstInstance_succ, ih (Nat.le_of_succ_le ha), hs.repetitions_eq ha]

/-- All tokens of an edge have the same ends and are read equally late. -/
lemma edgeArcs_eq (hs : s.Flat) (he : s.edges[i]? = some e) :
    Expansion.edgeArcs s i e = List.replicate e.production { e.arc with base := some i } := by
  have hmem := Array.mem_of_getElem? he
  obtain ⟨hsource, htarget⟩ := s.closed e hmem
  obtain ⟨hp, hrates, lag, hlag⟩ := hs.edges e hmem
  rw [Expansion.edgeArcs, hs.repetitions_eq hsource, Nat.mul_one, List.eq_replicate_iff]
  refine ⟨by simp, fun x hx => ?_⟩
  obtain ⟨n, hn, rfl⟩ := List.mem_map.1 hx
  have hn := List.mem_range.1 hn
  have hreader : e.reader n = e.delay / e.production := by
    rw [Edge.reader, hrates, hlag, Nat.mul_add_div hp, Nat.div_eq_of_lt hn, Nat.add_zero,
      Nat.mul_div_cancel_left _ hp]
  simp only [Expansion.tokenArc, Expansion.arcBetween, hs.repetitions_eq htarget, hreader,
    hs.firstInstance_eq hsource.le, hs.firstInstance_eq htarget.le, Nat.div_eq_of_lt hn, Nat.mod_one,
    Nat.div_one, Nat.add_zero, Edge.arc]

lemma tokenArcs_eq (hs : s.Flat) : Expansion.tokenArcs s =
    s.edges.toList.zipIdx.flatMap fun (e, i) =>
      List.replicate e.production { e.arc with base := some i } := by
  refine List.flatMap_congr fun ⟨e, i⟩ hmem => ?_
  exact hs.edgeArcs_eq (Expansion.mem_zipIdx_edges.1 hmem)

/-- All tokens of an edge make one run. -/
lemma edgeLinks_runs (hs : s.Flat) (he : s.edges[i]? = some e) :
    (Expansion.edgeLinks s .runs i e).map Link.edge = [e.unnumbered (some i)] := by
  have hmem := Array.mem_of_getElem? he
  obtain ⟨hsource, htarget⟩ := s.closed e hmem
  obtain ⟨hp, hrates, hdelay⟩ := hs.edges e hmem
  have hlength : (Segment.startingAt .runs e 1 0 0).length = e.production := by
    rw [Segment.length_startingAt, hrates, Nat.zero_mul, Nat.add_zero,
      Nat.mod_eq_zero_of_dvd hdelay]
    simp only [Segment.cut]
    omega
  have hlag : (Segment.startingAt .runs e 1 0 0).lag = e.delay / e.production := by
    simp [Segment.lag_startingAt, Edge.reader, hrates]
  have hreceiver : (Segment.startingAt .runs e 1 0 0).receiver = 0 := by
    rw [Segment.receiver_startingAt, Nat.mod_one]
  have hsegments : (Expansion.segments s .runs e).toList = [Segment.startingAt .runs e 1 0 0] := by
    rw [Expansion.segments, hs.repetitions_eq hsource, hs.repetitions_eq htarget,
      Segment.toList_ofEdge, List.range_one, List.flatMap_singleton, Segment.fromToken_of_lt hp,
      Segment.fromToken_of_not_lt (by omega)]
  rw [Expansion.edgeLinks, hsegments, List.map_singleton, List.map_singleton, List.singleton_inj]
  simp only [Link.edge, Expansion.link, Edge.unnumbered, Segment.delay, hlength, hlag, hreceiver,
    Expansion.firstInstances_getElem? hsource, Expansion.firstInstances_getElem? htarget,
    hs.firstInstance_eq hsource.le, hs.firstInstance_eq htarget.le, Nat.div_mul_cancel hdelay, hrates]
  rfl

lemma map_edge_links_runs (hs : s.Flat) : (Expansion.links s .runs).toList.map Link.edge =
    s.edges.toList.zipIdx.map fun (e, i) => e.unnumbered (some i) := by
  rw [Expansion.toList_links, List.map_flatMap, List.map_eq_flatMap]
  refine List.flatMap_congr fun ⟨e, i⟩ hmem => ?_
  exact hs.edgeLinks_runs (Expansion.mem_zipIdx_edges.1 hmem)

/-- Every actor has one instance. -/
lemma instances_eq (hs : s.Flat) :
    Expansion.instances s = s.actors.mapIdx fun x a => a.instance x 0 := by
  refine Array.toList_inj.1 ?_
  have hone : s.actors.toList.mapIdx Expansion.instancesOf =
      (s.actors.toList.mapIdx fun x a => a.instance x 0).map ([·]) := by
    refine List.ext_getElem? fun x => ?_
    cases hx : s.actors[x]? with
    | none => simp [hx]
    | some a =>
      have ha := hs.repetitions_eq_one a (Array.mem_of_getElem? hx)
      simp [hx, Expansion.instancesOf, ha]
  rw [Expansion.toList_instances, hone, Array.toList_mapIdx, ← List.flatMap_def]
  simp

end Flat

/-- The origins that edges have from their numbers are what they remember. -/
lemma map_rebase_unnumbered (s : Graph τ) :
    (s.edges.toList.zipIdx.map fun (e, i) => e.unnumbered (some i)).map (Edge.rebase s) =
      s.edges.toList.map fun e => e.unnumbered e.base := by
  conv_rhs => rw [← List.zipIdx_map_fst 0 s.edges.toList, List.map_map]
  rw [List.map_map]
  refine List.map_congr_left fun ⟨e, i⟩ hmem => ?_
  have he := Expansion.mem_zipIdx_edges.1 hmem
  simp [Edge.rebase, Edge.unnumbered, he]

/-! ## Expansions are flat -/

section Expanded

variable [Clock τ]

theorem Expanded.flat (hs : Expanded grouping g s) : s.Flat where
  repetitions_eq_one a ha := by
    obtain ⟨base, i, actor, _, rfl⟩ := Expansion.exists_of_mem_instances hs.actors ha
    rfl
  edges _ he := hs.uniform he

/-- The actors of the second expansion are those of the first. -/
lemma Expanded.instances_eq (hs : Expanded grouping g s) : Expansion.instances s =
    s.actors.mapIdx fun x a => { a with name := s!"{a.name}_1", base := some x } := by
  rw [hs.flat.instances_eq]
  refine Array.ext_getElem? fun x => ?_
  rw [Array.getElem?_mapIdx, Array.getElem?_mapIdx]
  cases hx : s.actors[x]? with
  | none => rfl
  | some a =>
    obtain ⟨base, i, actor, _, rfl⟩ :=
      Expansion.exists_of_mem_instances hs.actors (Array.mem_of_getElem? hx)
    simp only [Option.map_some, Actor.instance, toString, String.append_assoc]
    rfl

lemma Expanded.map_edge_links (hs : Expanded grouping g s) :
    (Expansion.links g grouping).toList.map Link.edge =
      s.edges.toList.map fun e => e.unnumbered e.base := by
  have hmap : List.Forall₂ (· = ·) (s.edges.toList.map fun e => e.unnumbered e.base)
      ((Expansion.links g grouping).toList.map Link.edge) := by
    rw [List.forall₂_map_left_iff, List.forall₂_map_right_iff]
    exact hs.edges.imp fun e l hc => hc.unnumbered
  rw [List.forall₂_eq_eq_eq] at hmap
  exact hmap.symm

/-- With the grouping of the first expansion, the second one splits no edge. -/
lemma Expanded.map_edge_links_again (hs : Expanded grouping g s) :
    (Expansion.links s grouping).toList.map Link.edge =
      s.edges.toList.zipIdx.map fun (e, i) => e.unnumbered (some i) := by
  cases grouping with
  | runs => exact hs.flat.map_edge_links_runs
  | single =>
    rw [Expansion.map_edge_links_single hs.wellFormed_expansion, hs.flat.tokenArcs_eq,
      List.map_flatMap, List.map_eq_flatMap]
    refine List.flatMap_congr fun ⟨e, i⟩ hmem => ?_
    have he := Array.mem_of_getElem? (Expansion.mem_zipIdx_edges.1 hmem)
    have hp := hs.production_eq_one he
    have hc := (hs.uniform he).consumption_eq.trans hp
    simp [hp, hc, Arc.edge, Edge.arc, Edge.unnumbered]

/-- The tokens of an expansion are those of the graph. -/
lemma Expanded.rebase_tokenArcs (hs : Expanded grouping g s) :
    ((Expansion.tokenArcs s).map Arc.edge).map (Edge.rebase s) =
      (Expansion.tokenArcs g).map Arc.edge := by
  have hedge : ∀ p ∈ s.edges.toList.zipIdx,
      (List.replicate p.1.production { p.1.arc with base := some p.2 }).map
          (Edge.rebase s ∘ Arc.edge) =
        (List.replicate p.1.production p.1.arc).map Arc.edge := by
    rintro ⟨e, i⟩ hmem
    have he := Expansion.mem_zipIdx_edges.1 hmem
    simp [Arc.edge, Edge.rebase, he, Edge.arc]
  rw [← hs.arcs_eq, hs.flat.tokenArcs_eq, List.map_map, List.map_flatMap, arcs, List.map_flatMap,
    List.flatMap_congr hedge]
  conv_rhs => rw [← List.zipIdx_map_fst 0 s.edges.toList, List.flatMap_map]

end Expanded

/-! ## Second expansions -/

variable [Clock τ]

/-- A second expansion with the same grouping changes the origins of edges only. -/
lemma edges_of_expand_again (hs : g.expand grouping = .ok s) (hu : s.expand grouping = .ok u) :
    u.edges = s.edges.mapIdx fun i e => { e with base := some i } := by
  have hexpanded := expanded_of_expand hs
  have hnumbered := edges_of_expand hu
  rw [hexpanded.map_edge_links_again] at hnumbered
  -- with the origins of the first expansion, the edges are those of the first expansion
  have hrebased : u.edges.toList.map (Edge.rebase s) = s.edges.toList := by
    rw [hnumbered, Edge.map_rebase_numbered, map_rebase_unnumbered, ← hexpanded.map_edge_links,
      ← edges_of_expand hs]
  have hbase : u.edges.toList.map Edge.base = s.edges.toList.zipIdx.map fun p => some p.2 := by
    rw [hnumbered, Edge.base_numbered, List.map_map]
    rfl
  refine Array.ext_getElem? fun i => ?_
  have hrebased := congrArg (·[i]?) hrebased
  have hbase := congrArg (·[i]?) hbase
  rw [Array.getElem?_mapIdx]
  simp only [List.getElem?_map, Array.getElem?_toList, List.getElem?_zipIdx] at hrebased hbase
  rw [← hrebased] at hbase ⊢
  cases hi : u.edges[i]? with
  | none => rfl
  | some e =>
    have hbase : e.base = some i := by simpa [hi] using hbase
    simp [Edge.rebase, ← hbase]

/-- The homogeneous expansion of an expansion is the homogeneous expansion of the graph. -/
lemma rebase_edges_of_expand (hs : g.expand grouping = .ok s) (hu : s.expand .single = .ok u)
    (hh : g.expand .single = .ok h) : u.edges.map (Edge.rebase s) = h.edges := by
  have hexpanded := expanded_of_expand hs
  refine Array.toList_inj.1 ?_
  rw [Array.toList_map, edges_of_expand hu, edges_of_expand hh, Edge.map_rebase_numbered,
    Expansion.map_edge_links_single hexpanded.wellFormed_expansion, hexpanded.rebase_tokenArcs,
    Expansion.map_edge_links_single hexpanded.wellFormed]

/-- If an expansion has a homogeneous expansion, the graph has one if all its tokens can be
numbered. -/
lemma exists_expand_single_iff (hs : g.expand grouping = .ok s) (hu : s.expand .single = .ok u) :
    (∃ h, g.expand .single = .ok h) ↔
      ∀ e ∈ g.edges, e.delay + e.production * g.repetitions e.source ≤ Counter.bound := by
  have hexpanded := expanded_of_expand hs
  have hg := hexpanded.wellFormed
  obtain ⟨⟨size, hsize⟩, hcheck⟩ := (exists_expand_iff hg).1 ⟨s, hs⟩
  obtain ⟨hsize', _⟩ := (exists_expand_iff hexpanded.wellFormed_expansion).1 ⟨u, hu⟩
  have hactors : (g.actors.toList.map Actor.repetitions).sum ≤ Expansion.capacity := by
    obtain ⟨hcount, _, hle, _⟩ := Expansion.size_eq_ok_iff.1 hsize
    exact (Expansion.actorCount_eq_ok_iff.1 hcount).2 ▸ hle
  have htokens : (g.edges.toList.map fun e => e.production * g.repetitions e.source).sum ≤
      Expansion.capacity := by
    have hle := (Expansion.exists_size_single_iff.1 hsize').2
    rw [← Expansion.length_tokenArcs] at hle ⊢
    have hlength := congrArg List.length hexpanded.rebase_tokenArcs
    simp only [List.length_map] at hlength
    rwa [← hlength]
  have hconsumed : ∀ e ∈ g.edges, e.consumption * g.repetitions e.target < Counter.bound := by
    intro e he
    have hedge := forM_eq_ok.1 hcheck e (Array.mem_toList_iff.2 he)
    simp only [Segment.checkEdge, bind_eq_ok, Counter.mul_eq_ok_iff] at hedge
    obtain ⟨_, ⟨hlt, _⟩, _⟩ := hedge
    exact hlt
  rw [exists_expand_iff hg, Expansion.exists_size_single_iff, Expansion.check_single_eq_ok_iff hg]
  constructor
  · rintro ⟨_, h⟩ e he
    exact (h e he).2
  · intro h
    exact ⟨⟨hactors, htokens⟩, fun e he => ⟨hconsumed e he, h e he⟩⟩

/-- **Expanding an expansion.**  A second expansion with the same grouping has the edges of the
first, index by index and with their ports, and the same actors; only names and origins change.  The
homogeneous expansion of the single-rate expansion has rates of one and the edges of the homogeneous
expansion of the graph, index by index and with their ports, if the graph has one.  Where the former
is found, the latter is found exactly if all tokens of the graph have counters, and it is refused for
the range of a number otherwise. -/
theorem expand_expand (hs : g.expand grouping = .ok s) :
    (∀ u, s.expand grouping = .ok u →
      u.name = s.name ++ grouping.mark ∧
      u.actors = s.actors.mapIdx (fun x a => { a with name := s!"{a.name}_1", base := some x }) ∧
      u.edges = s.edges.mapIdx fun i e => { e with base := some i }) ∧
    (grouping = .runs → ∀ u, s.expand .single = .ok u →
      (∀ e ∈ u.edges, e.production = 1 ∧ e.consumption = 1) ∧
      (∀ h, g.expand .single = .ok h → u.edges.map (Edge.rebase s) = h.edges) ∧
      ((∃ h, g.expand .single = .ok h) ↔
        ∀ e ∈ g.edges, e.delay + e.production * g.repetitions e.source ≤ Counter.bound) ∧
      ∀ failure, g.expand .single = .error failure → failure.kind = .arithmeticRange) := by
  have hexpanded := expanded_of_expand hs
  refine ⟨fun u hu => ⟨name_of_expand hu, ?_, edges_of_expand_again hs hu⟩, fun _ u hu =>
    ⟨fun e he => ?_, fun h hh => rebase_edges_of_expand hs hu hh, exists_expand_single_iff hs hu,
      fun _ => kind_of_expand_eq_error hexpanded.wellFormed⟩⟩
  · rw [(expanded_of_expand hu).actors, hexpanded.instances_eq]
  · have hu := expanded_of_expand hu
    have hp := hu.production_eq_one he
    exact ⟨hp, (hu.uniform he).consumption_eq.trans hp⟩

/-- The twelve runs of the pair stay as they are in a second expansion, and spread into the 24 edges
of the homogeneous expansion. -/
theorem parallelPair_expand_expand :
    ∃ s t u h, (parallelPair 4 6).expand .runs = .ok s ∧ s.edges.size = 12 ∧
      s.expand .runs = .ok t ∧ t.edges = s.edges.mapIdx (fun i e => { e with base := some i }) ∧
      s.expand .single = .ok u ∧ (parallelPair 4 6).expand .single = .ok h ∧ h.edges.size = 24 ∧
      u.edges.map (Edge.rebase s) = h.edges := by
  obtain ⟨⟨s, t, u⟩, hstu, hsize⟩ := exists_of_any_ok
    (x := do
      let s ← (parallelPair 4 6).expand .runs
      let t ← s.expand .runs
      let u ← s.expand .single
      return (s, t, u))
    (p := fun r => r.1.edges.size == 12) (by cbv)
  obtain ⟨h, hh, hsize'⟩ := exists_of_any_ok (x := (parallelPair 4 6).expand .single)
    (p := fun h => h.edges.size == 24) (by cbv)
  simp only [bind_eq_ok, pure_eq_ok, Prod.mk.injEq] at hstu
  obtain ⟨_, hs, _, ht, _, hu, rfl, rfl, rfl⟩ := hstu
  obtain ⟨hagain, hspread⟩ := expand_expand hs
  obtain ⟨_, _, hedges⟩ := hagain _ ht
  obtain ⟨_, hsame, _⟩ := hspread rfl _ hu
  exact ⟨_, _, _, h, hs, beq_iff_eq.1 hsize, ht, hedges, hu, hh, beq_iff_eq.1 hsize', hsame h hh⟩

/-- A firing sends six tokens behind so many others that only the first four of them have counters;
they make two runs of three tokens, which begin with the first and the fourth. -/
def tardy : Graph ℚ where
  name := "tardy"
  actors := #[.atomic "X" 1 1, .atomic "Y" 2 1]
  edges := #[numberedEdge 0 0 0 1 6 3 (Counter.bound - 4)]
  closed := by simp [numberedEdge]

/-- Both runs are found, and so are the six tokens that they spread into.  The graph itself has no
homogeneous expansion, because its fifth token has no counter. -/
theorem tardy_expand :
    tardy.validate = .ok () ∧
      (∃ s u, tardy.expand .runs = .ok s ∧ s.edges.size = 2 ∧ s.expand .single = .ok u ∧
        u.edges.size = 6) ∧
      tardy.expand .single = .error (.range (.sum "token index" (Counter.bound - 4) 4)) := by
  obtain ⟨⟨s, u⟩, hsu, hsizes⟩ := exists_of_any_ok
    (x := do
      let s ← tardy.expand .runs
      let u ← s.expand .single
      return (s, u))
    (p := fun r => r.1.edges.size == 2 && r.2.edges.size == 6) (by cbv)
  simp only [bind_eq_ok, pure_eq_ok, Prod.mk.injEq] at hsu
  obtain ⟨_, hs, _, hu, rfl, rfl⟩ := hsu
  rw [Bool.and_eq_true, beq_iff_eq, beq_iff_eq] at hsizes
  exact ⟨by cbv, ⟨_, _, hs, hsizes.1, hu, hsizes.2⟩, by cbv⟩

end Graph

end Dataflow

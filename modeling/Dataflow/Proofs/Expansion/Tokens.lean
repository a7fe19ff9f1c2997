import Dataflow.Proofs.Expansion.Instances
import Mathlib.Data.List.Sigma

/-!
# The tokens of an expansion

Token by token, an expansion does not depend on how tokens are grouped.  The token that is sent at
place `n` of an iteration is token `delay + n` of its edge, so firing `(delay + n) / consumption` of
the target reads it, where firings are counted on through all iterations.  Grouping only decides
how many consecutive tokens share an edge: those of one edge have one sender and one reader, and
with `Grouping.runs` two edges never share both.

* `Arc` — what all tokens of an edge of an expansion have in common.
* `Expansion.tokenArcs` — the arcs of all tokens that an iteration sends.
* **`Expansion.arcs_links`** — the links carry these tokens, in this order.
* **`Expansion.nodup_arcs_links`** — with `Grouping.runs` no two links have one arc.
-/

namespace Dataflow

/-- What the tokens of an edge of an expansion have in common. -/
structure Arc where
  source : Nat
  target : Nat
  /-- How many iterations later the tokens are read. -/
  lag : Nat
  /-- The edge that was expanded. -/
  base : Option Nat
  deriving DecidableEq, Repr

/-- What the tokens of a single-rate edge have in common. -/
def Edge.arc (e : Edge) : Arc := ⟨e.source, e.target, e.delay / e.production, e.base⟩

/-- What the tokens of a link have in common. -/
def Link.arc (l : Link) : Arc := ⟨l.source, l.target, l.delay / l.rate, some l.base⟩

/-- The firing of the target, counted through all iterations, that reads the token sent at place
`n` of the first iteration. -/
def Edge.reader (e : Edge) (n : Nat) : Nat := (e.delay + n) / e.consumption

/-! ## The tokens of a segment -/

namespace Segment

variable {grouping : Grouping} {e : Edge} {receivers sender offset : Nat}

/-- The firing of the target that reads a segment, counted through all iterations. -/
def reader (receivers : Nat) (s : Segment) : Nat := s.receiver + receivers * s.lag

lemma receiver_startingAt :
    (startingAt grouping e receivers sender offset).receiver =
      e.reader (sender * e.production + offset) % receivers := by
  rw [startingAt, firstToken, Edge.reader, Nat.add_assoc]
  exact Nat.mod_mul_right_div_self _ _ _

lemma lag_startingAt :
    (startingAt grouping e receivers sender offset).lag =
      e.reader (sender * e.production + offset) / receivers := by
  rw [startingAt, firstToken, Edge.reader, Nat.add_assoc]
  exact (Nat.div_div_eq_div_mul _ _ _).symm

lemma reader_startingAt :
    (startingAt grouping e receivers sender offset).reader receivers =
      e.reader (sender * e.production + offset) := by
  rw [reader, receiver_startingAt, lag_startingAt, Nat.mod_add_div]

lemma length_startingAt :
    (startingAt grouping e receivers sender offset).length = cut grouping (e.production - offset)
      (e.consumption - (e.delay + (sender * e.production + offset)) % e.consumption) := by
  rw [startingAt, firstToken, Nat.add_assoc]
  simp only [Nat.mod_mul_right_mod]

lemma length_startingAt_le (h : offset < e.production) :
    (startingAt grouping e receivers sender offset).length ≤ e.production - offset := by
  rw [length_startingAt]
  cases grouping <;> simp only [cut] <;> omega

/-- All tokens of a segment have one reader. -/
lemma reader_of_lt_length (hc : 0 < e.consumption) {i : Nat}
    (hi : i < (startingAt grouping e receivers sender offset).length) :
    e.reader (sender * e.production + (offset + i)) =
      e.reader (sender * e.production + offset) := by
  rw [length_startingAt] at hi
  have hmod := Nat.mod_lt (e.delay + (sender * e.production + offset)) hc
  have hroom : (e.delay + (sender * e.production + offset)) % e.consumption + i <
      e.consumption := by
    cases grouping <;> simp only [cut] at hi <;> omega
  have hdiv := Nat.div_add_mod (e.delay + (sender * e.production + offset)) e.consumption
  rw [Edge.reader, Edge.reader]
  refine Nat.div_eq_of_lt_le ?_ ?_
  · rw [Nat.mul_comm]
    omega
  · rw [Nat.add_mul, Nat.mul_comm _ e.consumption]
    omega

/-- The token behind a run has the next reader, unless its firing has no more tokens. -/
lemma reader_succ (hc : 0 < e.consumption)
    (h : offset + (startingAt .runs e receivers sender offset).length < e.production) :
    e.reader (sender * e.production +
        (offset + (startingAt .runs e receivers sender offset).length)) =
      e.reader (sender * e.production + offset) + 1 := by
  rw [length_startingAt] at h ⊢
  have hmod := Nat.mod_lt (e.delay + (sender * e.production + offset)) hc
  have hdiv := Nat.div_add_mod (e.delay + (sender * e.production + offset)) e.consumption
  have hcut : cut .runs (e.production - offset)
      (e.consumption - (e.delay + (sender * e.production + offset)) % e.consumption) =
        e.consumption - (e.delay + (sender * e.production + offset)) % e.consumption := by
    simp only [cut] at h ⊢
    omega
  rw [hcut, Edge.reader, Edge.reader]
  refine Nat.div_eq_of_lt_le ?_ ?_
  · rw [Nat.add_mul, Nat.mul_comm _ e.consumption]
    omega
  · rw [Nat.add_mul, Nat.add_mul, Nat.mul_comm _ e.consumption]
    omega

/-- Token by token, the segments of a firing do not depend on the grouping. -/
lemma flatMap_fromToken {β : Type} (f : Nat → Nat → Nat → β) (hc : 0 < e.consumption) :
    (fromToken grouping e receivers sender offset).flatMap
        (fun s => List.replicate s.length (f s.sender s.receiver s.lag)) =
      (List.range' offset (e.production - offset)).map fun place =>
        f sender (e.reader (sender * e.production + place) % receivers)
          (e.reader (sender * e.production + place) / receivers) := by
  fun_induction fromToken grouping e receivers sender offset with
  | case1 offset h s ih =>
    have hle : s.length ≤ e.production - offset := length_startingAt_le h
    have hrun : List.replicate s.length (f s.sender s.receiver s.lag) =
        (List.range' offset s.length).map fun place =>
          f sender (e.reader (sender * e.production + place) % receivers)
            (e.reader (sender * e.production + place) / receivers) := by
      symm
      rw [List.eq_replicate_iff, List.length_map, List.length_range']
      refine ⟨rfl, fun x hx => ?_⟩
      obtain ⟨place, hplace, rfl⟩ := List.mem_map.1 hx
      obtain ⟨i, hi, rfl⟩ := List.mem_range'.1 hplace
      rw [Nat.one_mul, reader_of_lt_length hc hi, receiver_startingAt, lag_startingAt]
      rfl
    rw [List.flatMap_cons, ih, hrun, ← List.map_append, List.range'_append_1, Nat.sub_add_eq,
      Nat.add_sub_cancel' hle]
  | case2 offset h => simp [Nat.sub_eq_zero_of_le (Nat.le_of_not_lt h)]

/-- The runs of a firing have greater and greater readers. -/
lemma pairwise_reader_fromToken (hc : 0 < e.consumption) :
    (fromToken .runs e receivers sender offset).Pairwise
        (fun s s' => s.reader receivers < s'.reader receivers) ∧
      ∀ s ∈ fromToken .runs e receivers sender offset,
        s.sender = sender ∧ e.reader (sender * e.production + offset) ≤ s.reader receivers := by
  fun_induction fromToken .runs e receivers sender offset with
  | case1 offset h s ih =>
    have hlater : ∀ s' ∈ fromToken .runs e receivers sender (offset + s.length),
        s.reader receivers < s'.reader receivers := by
      intro s' hs'
      have hle := (ih.2 s' hs').2
      by_cases hmore : offset + s.length < e.production
      · rw [reader_succ hc hmore] at hle
        rw [reader_startingAt]
        omega
      · simp [fromToken_of_not_lt hmore] at hs'
    have hfirst : e.reader (sender * e.production + offset) ≤ s.reader receivers :=
      Nat.le_of_eq reader_startingAt.symm
    refine ⟨List.pairwise_cons.2 ⟨hlater, ih.1⟩, List.forall_mem_cons.2 ⟨⟨rfl, hfirst⟩, ?_⟩⟩
    intro s' hs'
    exact ⟨(ih.2 s' hs').1, Nat.le_trans hfirst (Nat.le_of_lt (hlater s' hs'))⟩
  | case2 offset h => simp

/-- Every segment of a firing begins at one of its tokens. -/
lemma exists_startingAt_of_mem {s : Segment} (hs : s ∈ fromToken grouping e receivers sender offset) :
    ∃ place < e.production, s = startingAt grouping e receivers sender place := by
  fun_induction fromToken grouping e receivers sender offset with
  | case1 offset h t ih =>
    rcases List.mem_cons.1 hs with rfl | hs
    · exact ⟨offset, h, rfl⟩
    · exact ih hs
  | case2 offset h => simp at hs

lemma exists_cut_of_mem {s : Segment} (hs : s ∈ fromToken grouping e receivers sender offset) :
    ∃ left room, s.length = cut grouping left room := by
  obtain ⟨place, _, rfl⟩ := exists_startingAt_of_mem hs
  exact ⟨_, _, rfl⟩

/-! ## The tokens of an edge -/

/-- Two nested counters are one counter with its quotient and its remainder. -/
lemma flatMap_range_map {β : Type} {p : Nat} (hp : 0 < p) (f : Nat → Nat → β) (n : Nat) :
    ((List.range n).flatMap fun i => (List.range p).map (f i)) =
      (List.range (p * n)).map fun k => f (k / p) (k % p) := by
  induction n with
  | zero => simp
  | succ n ih =>
    rw [List.range_succ, List.flatMap_append, ih, Nat.mul_succ, List.range_add, List.map_append,
      List.map_map]
    congr 1
    rw [List.flatMap_singleton]
    refine List.map_congr_left fun k hk => ?_
    have hk := List.mem_range.1 hk
    simp [Nat.mul_add_div hp, Nat.div_eq_of_lt hk, Nat.mod_eq_of_lt hk]

lemma flatMap_ofEdge {β : Type} (f : Nat → Nat → Nat → β) (hp : 0 < e.production)
    (hc : 0 < e.consumption) (senders : Nat) :
    (ofEdge grouping e senders receivers).toList.flatMap
        (fun s => List.replicate s.length (f s.sender s.receiver s.lag)) =
      (List.range (e.production * senders)).map fun n =>
        f (n / e.production) (e.reader n % receivers) (e.reader n / receivers) := by
  rw [toList_ofEdge, List.flatMap_assoc]
  simp only [flatMap_fromToken f hc, Nat.sub_zero, ← List.range_eq_range']
  rw [flatMap_range_map hp]
  refine List.map_congr_left fun n _ => ?_
  rw [Nat.div_add_mod']

/-- No two runs of an edge have one sender and one reader. -/
lemma nodup_ofEdge (hc : 0 < e.consumption) (senders : Nat) :
    ((ofEdge .runs e senders receivers).toList.map fun s =>
      (s.sender, s.receiver, s.lag)).Nodup := by
  rw [toList_ofEdge, List.map_flatMap, List.nodup_flatMap]
  refine ⟨fun sender _ => ?_, ?_⟩
  · refine List.Pairwise.map _ (fun s s' hlt heq => ?_) (pairwise_reader_fromToken hc).1
    simp only [Prod.mk.injEq] at heq
    rw [reader, reader, heq.2.1, heq.2.2] at hlt
    exact Nat.lt_irrefl _ hlt
  · refine List.nodup_range.imp fun {i j} hij x hx hy => hij ?_
    obtain ⟨s, hs, rfl⟩ := List.mem_map.1 hx
    obtain ⟨s', hs', heq⟩ := List.mem_map.1 hy
    rw [← ((pairwise_reader_fromToken hc).2 s hs).1, ← ((pairwise_reader_fromToken hc).2 s' hs').1]
    exact (Prod.mk.inj heq).1.symm

end Segment

/-! ## The tokens of a graph -/

namespace Expansion

variable {τ : Type} {g : Graph τ} {grouping : Grouping} {base : Nat} {e : Edge}

/-- The arc from one firing of the source of an edge to one firing of its target. -/
def arcBetween (g : Graph τ) (base : Nat) (e : Edge) (sender receiver lag : Nat) : Arc where
  source := firstInstance g e.source + sender
  target := firstInstance g e.target + receiver
  lag := lag
  base := some base

/-- The arc of the token that edge number `base` sends at place `n` of an iteration. -/
def tokenArc (g : Graph τ) (base : Nat) (e : Edge) (n : Nat) : Arc :=
  arcBetween g base e (n / e.production) (e.reader n % g.repetitions e.target)
    (e.reader n / g.repetitions e.target)

/-- The arcs of the tokens that an edge sends in an iteration, in their order. -/
def edgeArcs (g : Graph τ) (base : Nat) (e : Edge) : List Arc :=
  (List.range (e.production * g.repetitions e.source)).map (tokenArc g base e)

/-- The arcs of all tokens that an iteration sends, edge by edge. -/
def tokenArcs (g : Graph τ) : List Arc :=
  g.edges.toList.zipIdx.flatMap fun (e, base) => edgeArcs g base e

/-- The links of an edge. -/
def edgeLinks (g : Graph τ) (grouping : Grouping) (base : Nat) (e : Edge) : List Link :=
  (segments g grouping e).toList.map (link (firstInstances g) e base)

lemma toList_links : (links g grouping).toList =
    g.edges.toList.zipIdx.flatMap fun (e, base) => edgeLinks g grouping base e := by
  simp [links, edgeLinks, Array.toList_flatMap]

lemma exists_segment {l : Link} (hl : l ∈ links g grouping) :
    ∃ (base : Nat) (e : Edge), ∃ s ∈ (segments g grouping e).toList,
      link (firstInstances g) e base s = l := by
  rw [← Array.mem_toList_iff, toList_links, List.mem_flatMap] at hl
  obtain ⟨⟨e, base⟩, _, hl⟩ := hl
  exact ⟨base, e, List.mem_map.1 hl⟩

lemma mem_zipIdx_edges : (e, base) ∈ g.edges.toList.zipIdx ↔ g.edges[base]? = some e := by
  simp [List.mem_zipIdx_iff_getElem?]

lemma exists_cut_of_mem_segments {s : Segment} (hs : s ∈ (segments g grouping e).toList) :
    ∃ left room, s.length = Segment.cut grouping left room := by
  rw [segments, Segment.toList_ofEdge, List.mem_flatMap] at hs
  obtain ⟨sender, _, hs⟩ := hs
  exact Segment.exists_cut_of_mem hs

lemma length_pos_of_mem_segments {s : Segment} (hs : s ∈ (segments g grouping e).toList) :
    0 < s.length := by
  obtain ⟨left, room, hlength⟩ := exists_cut_of_mem_segments hs
  rw [hlength]
  exact Segment.cut_pos grouping left room

lemma firstInstances_getElem? {a : Nat} (ha : a < g.actors.size) :
    (firstInstances g)[a]?.getD 0 = firstInstance g a := by
  simp [firstInstances_eq, ha]

lemma arc_link (he : e ∈ g.edges) {s : Segment} (hs : s ∈ (segments g grouping e).toList) :
    (link (firstInstances g) e base s).arc = arcBetween g base e s.sender s.receiver s.lag := by
  obtain ⟨hsource, htarget⟩ := g.closed e he
  simp only [Link.arc, link, firstInstances_getElem? hsource, firstInstances_getElem? htarget,
    Segment.delay, Nat.mul_div_cancel _ (length_pos_of_mem_segments hs), arcBetween]

/-- The links of an edge carry its tokens in order. -/
lemma arcs_edgeLinks (he : e ∈ g.edges) (hp : 0 < e.production) (hc : 0 < e.consumption) :
    (edgeLinks g grouping base e).flatMap (fun l => List.replicate l.rate l.arc) =
      edgeArcs g base e := by
  have hlink : ∀ s ∈ (segments g grouping e).toList,
      List.replicate (link (firstInstances g) e base s).rate
          (link (firstInstances g) e base s).arc =
        List.replicate s.length (arcBetween g base e s.sender s.receiver s.lag) := by
    intro s hs
    rw [arc_link he hs]
    rfl
  rw [edgeLinks, List.flatMap_map, List.flatMap_congr hlink, segments,
    Segment.flatMap_ofEdge (arcBetween g base e) hp hc]
  rfl

lemma nodup_arcs_edgeLinks (he : e ∈ g.edges) (hc : 0 < e.consumption) :
    ((edgeLinks g .runs base e).map Link.arc).Nodup := by
  have hmap : (edgeLinks g .runs base e).map Link.arc =
      ((segments g .runs e).toList.map fun s => (s.sender, s.receiver, s.lag)).map
        fun x => arcBetween g base e x.1 x.2.1 x.2.2 := by
    rw [edgeLinks, List.map_map, List.map_map]
    exact List.map_congr_left fun s hs => arc_link he hs
  rw [hmap]
  refine (Segment.nodup_ofEdge hc _).map fun x y hxy => ?_
  simp only [arcBetween, Arc.mk.injEq, Nat.add_left_cancel_iff, and_true] at hxy
  exact Prod.ext hxy.1 (Prod.ext hxy.2.1 hxy.2.2)

lemma base_of_mem_arcs_edgeLinks {x : Arc} (hx : x ∈ (edgeLinks g grouping base e).map Link.arc) :
    x.base = some base := by
  simp only [edgeLinks, List.map_map, List.mem_map, Function.comp_apply] at hx
  obtain ⟨s, _, rfl⟩ := hx
  rfl

variable [Clock τ]

/-- Whatever the grouping, the links carry the tokens that an iteration sends, in order. -/
theorem arcs_links (hg : g.WellFormed) :
    (links g grouping).toList.flatMap (fun l => List.replicate l.rate l.arc) = tokenArcs g := by
  rw [toList_links, List.flatMap_assoc, tokenArcs]
  refine List.flatMap_congr fun ⟨e, base⟩ hmem => ?_
  have he := Array.mem_of_getElem? (mem_zipIdx_edges.1 hmem)
  have hw := hg.edges_wellFormed e he
  exact arcs_edgeLinks he hw.production_pos hw.consumption_pos

/-- With `Grouping.runs` no two links have one arc. -/
theorem nodup_arcs_links (hg : g.WellFormed) :
    ((links g .runs).toList.map Link.arc).Nodup := by
  rw [toList_links, List.map_flatMap, List.nodup_flatMap]
  constructor
  · rintro ⟨e, base⟩ hmem
    have he := Array.mem_of_getElem? (mem_zipIdx_edges.1 hmem)
    exact nodup_arcs_edgeLinks he (hg.consumption_pos e he)
  · have hbases := List.pairwise_map.1 (List.nodup_zipIdx_map_snd g.edges.toList)
    refine hbases.imp fun {p q} hpq x hx hy => hpq ?_
    have := (base_of_mem_arcs_edgeLinks hx).symm.trans (base_of_mem_arcs_edgeLinks hy)
    exact Option.some.inj this

end Expansion

end Dataflow

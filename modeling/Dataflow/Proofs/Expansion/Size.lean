import Dataflow.Proofs.Counter
import Dataflow.Proofs.Expansion.Fifo

/-!
# How large an expansion is

An expansion has one actor for every firing.  It has one edge for every token, or, if tokens are
joined into runs, one edge for every firing of the target that reads tokens of one firing of the
source (`Edge.runs`).  Before an expansion is built, its runs are bounded by the firings of both
ends.  This is right as long as no edge brings more than its target takes (`Graph.Absorbs`): what
is left over meets the same firings again, an iteration later, and each time ends a run.

* `Edge.runs_le_firings` — the bound, for one edge.
* `Segment.size_ofEdge_single`, `Segment.size_ofEdge_runs` — the number of segments of an edge.
* **`Graph.expand_size`** — the number of actors and edges of an expansion.
-/

namespace Dataflow

namespace Edge

variable {e : Edge}

/-- In how many runs do some firings of the source send their tokens?  Each firing needs one for
every firing of the target that reads from it. -/
def runs (e : Edge) (senders : Nat) : Nat :=
  ((List.range senders).map fun i =>
    e.reader (i * e.production + (e.production - 1)) + 1 - e.reader (i * e.production)).sum

lemma reader_mono {m n : Nat} (h : m ≤ n) : e.reader m ≤ e.reader n :=
  Nat.div_le_div_right (Nat.add_le_add_left h _)

/-- A run ends where the reader changes or the firing of the source ends. -/
lemma runs_add_reader_le (e : Edge) (senders : Nat) :
    e.runs senders + e.reader 0 ≤ senders + e.reader (senders * e.production) := by
  induction senders with
  | zero => simp [runs]
  | succ n ih =>
    have hlast : e.reader (n * e.production + (e.production - 1)) ≤
        e.reader ((n + 1) * e.production) :=
      reader_mono (by rw [Nat.add_mul]; omega)
    have hfirst : e.reader (n * e.production) ≤
        e.reader (n * e.production + (e.production - 1)) :=
      reader_mono (Nat.le_add_right _ _)
    rw [runs] at ih ⊢
    rw [List.range_succ, List.map_append, List.sum_append, List.map_singleton, List.sum_singleton]
    omega

/-- If the source brings no more than the target takes, there are no more runs than firings. -/
lemma runs_le_firings (hc : 0 < e.consumption) {senders receivers : Nat}
    (h : e.production * senders ≤ e.consumption * receivers) :
    e.runs senders ≤ senders + receivers := by
  have hruns := e.runs_add_reader_le senders
  have hlast : e.reader (senders * e.production) ≤ e.reader 0 + receivers := by
    have hread : e.reader (e.consumption * receivers) = e.reader 0 + receivers := by
      rw [reader, reader, Nat.add_zero, Nat.add_mul_div_left _ _ hc]
    rw [← hread, Nat.mul_comm]
    exact reader_mono h
  omega

end Edge

namespace Graph

variable {τ : Type} {g : Graph τ}

/-- In how many runs does an iteration send its tokens? -/
def runs (g : Graph τ) : Nat := (g.edges.toList.map fun e => e.runs (g.repetitions e.source)).sum

/-- No edge brings more in an iteration than its target takes. -/
def Absorbs (g : Graph τ) : Prop :=
  ∀ e ∈ g.edges, e.production * g.repetitions e.source ≤ e.consumption * g.repetitions e.target

lemma Balanced.absorbs (hg : g.Balanced) : g.Absorbs := fun e he => (hg e he).le

end Graph

/-! ## The segments of an edge -/

namespace Segment

variable {grouping : Grouping} {e : Edge} {receivers sender offset : Nat}

/-- Every segment holds a token. -/
lemma length_fromToken_le :
    (fromToken grouping e receivers sender offset).length ≤ e.production - offset := by
  fun_induction fromToken grouping e receivers sender offset with
  | case1 offset h s ih =>
    have hpos : 0 < s.length := length_startingAt_pos _ _ _ _ _
    rw [List.length_cons]
    omega
  | case2 offset h => simp

lemma length_fromToken_single :
    (fromToken .single e receivers sender offset).length = e.production - offset := by
  fun_induction fromToken .single e receivers sender offset with
  | case1 offset h s ih =>
    have hone : s.length = 1 := rfl
    rw [List.length_cons, ih, hone]
    omega
  | case2 offset h => simp [Nat.sub_eq_zero_of_le (Nat.le_of_not_lt h)]

/-- The runs of a firing are counted by their readers. -/
lemma length_fromToken_runs (hc : 0 < e.consumption) (h : offset < e.production) :
    (fromToken .runs e receivers sender offset).length =
      e.reader (sender * e.production + (e.production - 1)) + 1 -
        e.reader (sender * e.production + offset) := by
  fun_induction fromToken .runs e receivers sender offset with
  | case1 offset _ s ih =>
    rw [List.length_cons]
    by_cases hmore : offset + s.length < e.production
    · have hnext : e.reader (sender * e.production + (offset + s.length)) =
          e.reader (sender * e.production + offset) + 1 := reader_succ hc hmore
      have hle : e.reader (sender * e.production + (offset + s.length)) ≤
          e.reader (sender * e.production + (e.production - 1)) := Edge.reader_mono (by omega)
      rw [ih hmore, hnext]
      rw [hnext] at hle
      omega
    · -- the run reaches the last token of the firing
      have hlast : e.reader (sender * e.production + (offset + (e.production - 1 - offset))) =
          e.reader (sender * e.production + offset) :=
        reader_of_lt_length hc (show _ < s.length by omega)
      rw [Nat.add_sub_cancel' (by omega)] at hlast
      rw [fromToken_of_not_lt hmore, hlast, List.length_nil]
      omega
  | case2 offset hnot => exact absurd h hnot

lemma size_ofEdge (senders : Nat) :
    (ofEdge grouping e senders receivers).size =
      ((List.range senders).map fun i => (fromToken grouping e receivers i 0).length).sum := by
  rw [← Array.length_toList, toList_ofEdge, List.length_flatMap]

lemma size_ofEdge_le (senders : Nat) :
    (ofEdge grouping e senders receivers).size ≤ e.production * senders := by
  rw [size_ofEdge]
  have h := List.sum_le_card_nsmul ((List.range senders).map fun i =>
    (fromToken grouping e receivers i 0).length) e.production
    (List.forall_mem_map.2 fun i _ => length_fromToken_le)
  simpa [Nat.mul_comm] using h

/-- With `Grouping.single` an edge has a segment for every token. -/
lemma size_ofEdge_single (senders : Nat) :
    (ofEdge .single e senders receivers).size = e.production * senders := by
  simp [size_ofEdge, length_fromToken_single, Nat.mul_comm]

/-- With `Grouping.runs` it has one for every run. -/
lemma size_ofEdge_runs (hp : 0 < e.production) (hc : 0 < e.consumption) (senders : Nat) :
    (ofEdge .runs e senders receivers).size = e.runs senders := by
  rw [size_ofEdge, Edge.runs]
  congr 1
  refine List.map_congr_left fun i _ => ?_
  exact length_fromToken_runs hc hp

end Segment

/-! ## The size that is computed -/

namespace Expansion

variable {τ : Type} {g : Graph τ} {grouping : Grouping} {n : Nat}

lemma edgeBound_single {e : Edge} (h : edgeBound g .single e = .ok n) :
    n = e.production * g.repetitions e.source := by
  obtain ⟨tokens, htokens, hn⟩ := bind_eq_ok.1 h
  obtain ⟨_, rfl⟩ := Counter.mul_eq_ok_iff.1 htokens
  exact (pure_eq_ok.1 hn).symm

lemma edgeBound_runs {e : Edge} (h : edgeBound g .runs e = .ok n) :
    n = min (e.production * g.repetitions e.source)
      (g.repetitions e.source + g.repetitions e.target) := by
  obtain ⟨tokens, htokens, hn⟩ := bind_eq_ok.1 h
  obtain ⟨firings, hfirings, hn⟩ := bind_eq_ok.1 hn
  obtain ⟨_, rfl⟩ := Counter.mul_eq_ok_iff.1 htokens
  obtain ⟨_, rfl⟩ := Counter.add_eq_ok_iff.1 hfirings
  exact (pure_eq_ok.1 hn).symm

lemma actorCount_eq_ok_iff : actorCount g = .ok n ↔
    (g.actors.toList.map Actor.repetitions).sum < Counter.bound ∧
      n = (g.actors.toList.map Actor.repetitions).sum := by
  rw [actorCount, ← Array.foldlM_toList, ← Nat.zero_add (List.sum _)]
  exact Counter.foldlM_add_eq_ok_iff (f := fun a : Actor τ => .ok a.repetitions)
    (fun _ _ h => (Except.ok.inj h).symm) (fun _ _ => rfl) (by decide)

lemma size_instances (g : Graph τ) :
    (instances g).size = (g.actors.toList.map Actor.repetitions).sum := by
  have h := sum_length_take g g.actors.size
  rw [firstInstance, List.take_of_length_le (by simp), List.take_of_length_le (by simp)] at h
  rw [← Array.length_toList, toList_instances, List.length_flatten]
  exact h

lemma size_links (g : Graph τ) (grouping : Grouping) :
    (links g grouping).size = (g.edges.toList.map fun e => (segments g grouping e).size).sum := by
  rw [← Array.length_toList, toList_links, List.length_flatMap]
  conv_rhs => rw [← List.zipIdx_map_fst 0 g.edges.toList, List.map_map]
  simp [edgeLinks, Function.comp_def]

lemma size_eq_ok_iff {m : Nat} : size g grouping = .ok (n, m) ↔
    actorCount g = .ok n ∧ edgeCount g grouping = .ok m ∧ n ≤ capacity ∧ m ≤ capacity := by
  simp only [size, bind_eq_ok, mapError_eq_ok]
  constructor
  · rintro ⟨n', hn, m', hm, h⟩
    split_ifs at h with hactors hedges
    · obtain ⟨rfl, rfl⟩ := Prod.mk.inj (pure_eq_ok.1 h)
      exact ⟨hn, hm, not_lt.1 hactors, not_lt.1 hedges⟩
  · rintro ⟨hn, hm, hactors, hedges⟩
    refine ⟨n, hn, m, hm, ?_⟩
    rw [if_neg (not_lt.2 hactors), if_neg (not_lt.2 hedges)]
    rfl

lemma edgeCount_eq_ok (h : edgeCount g grouping = .ok n) :
    ∃ bounds, List.Forall₂ (fun e b => edgeBound g grouping e = .ok b) g.edges.toList bounds ∧
      n = bounds.sum := by
  rw [edgeCount, ← Array.foldlM_toList] at h
  simpa using Counter.foldlM_add_eq_ok h

lemma edgeCount_single_eq_ok_iff : edgeCount g .single = .ok n ↔
    (g.edges.toList.map fun e => e.production * g.repetitions e.source).sum < Counter.bound ∧
      n = (g.edges.toList.map fun e => e.production * g.repetitions e.source).sum := by
  rw [edgeCount, ← Array.foldlM_toList, ← Nat.zero_add (List.sum _)]
  refine Counter.foldlM_add_eq_ok_iff (fun _ _ h => edgeBound_single h) (fun e he => ?_) (by decide)
  exact bind_eq_ok.2 ⟨_, Counter.mul_eq_ok_iff.2 ⟨he, rfl⟩, rfl⟩

/-- The number of edges that is computed is exact if every token gets one. -/
lemma edgeCount_single (h : edgeCount g .single = .ok n) : (links g .single).size = n := by
  obtain ⟨_, rfl⟩ := edgeCount_single_eq_ok_iff.1 h
  rw [size_links]
  congr 1
  exact List.map_congr_left fun e _ => Segment.size_ofEdge_single _

lemma size_links_runs (hp : ∀ e ∈ g.edges, 0 < e.production)
    (hc : ∀ e ∈ g.edges, 0 < e.consumption) : (links g .runs).size = g.runs := by
  rw [size_links, Graph.runs]
  congr 1
  refine List.map_congr_left fun e he => ?_
  have he := Array.mem_toList_iff.1 he
  exact Segment.size_ofEdge_runs (hp e he) (hc e he) _

/-- It is a bound for runs if no edge brings more than its target takes. -/
lemma size_links_runs_le [Clock τ] (hg : g.WellFormed) (habsorbs : g.Absorbs)
    (h : edgeCount g .runs = .ok n) : (links g .runs).size ≤ n := by
  obtain ⟨bounds, hbounds, rfl⟩ := edgeCount_eq_ok h
  rw [size_links]
  refine List.Forall₂.sum_le_sum (List.forall₂_map_left_iff.2 ?_)
  have hmem : ∀ e ∈ g.edges.toList, e ∈ g.edges := fun e he => Array.mem_toList_iff.1 he
  refine ((List.forall₂_and_left _ _).2 ⟨hmem, hbounds⟩).imp ?_
  rintro e b ⟨he, hb⟩
  have hw := hg.edges_wellFormed e he
  rw [edgeBound_runs hb]
  refine Nat.le_min.2 ⟨Segment.size_ofEdge_le _, ?_⟩
  rw [segments, Segment.size_ofEdge_runs hw.production_pos hw.consumption_pos]
  exact Edge.runs_le_firings hw.consumption_pos (habsorbs e he)

end Expansion

/-! ## The size of an expansion -/

namespace Graph

variable {τ : Type} [Clock τ] {g h : Graph τ} {grouping : Grouping}

/-- **The size of an expansion.**  Whenever an expansion is found, its size was computed before and
fits the numbering of a graph.  The number of actors is exact.  So is the number of edges if every
token gets one; otherwise there is one edge for every run, and what was computed is a bound for
them if no edge brings more in an iteration than its target takes. -/
theorem expand_size (hexpand : g.expand grouping = .ok h) :
    ∃ n m, Expansion.size g grouping = .ok (n, m) ∧
      n ≤ Expansion.capacity ∧ m ≤ Expansion.capacity ∧
      h.actors.size = n ∧
      (grouping = .single → h.edges.size = m) ∧
      (grouping = .runs → h.edges.size = g.runs ∧ (g.Absorbs → h.edges.size ≤ m)) := by
  have hexpanded := expanded_of_expand hexpand
  have hg := hexpanded.wellFormed
  have hedges : h.edges.size = (Expansion.links g grouping).size := hexpanded.edges.length_eq
  obtain ⟨_, _, hsized⟩ := bind_eq_ok.1 hexpand
  obtain ⟨⟨n, m⟩, hsize, _⟩ := bind_eq_ok.1 hsized
  obtain ⟨hactors, hcount, hn, hm⟩ := Expansion.size_eq_ok_iff.1 hsize
  refine ⟨n, m, hsize, hn, hm, ?_, ?_, ?_⟩
  · rw [hexpanded.actors, Expansion.size_instances, (Expansion.actorCount_eq_ok_iff.1 hactors).2]
  · rintro rfl
    rw [hedges, Expansion.edgeCount_single hcount]
  · rintro rfl
    rw [hedges]
    refine ⟨Expansion.size_links_runs hg.production_pos hg.consumption_pos, fun habsorbs => ?_⟩
    exact Expansion.size_links_runs_le hg habsorbs hcount

/-- The balanced pair expands to five actors and twelve edges, three less than allowed for. -/
theorem parallelPair_size :
    ∃ h, (parallelPair 4 6).expand .runs = .ok h ∧
      Expansion.size (parallelPair 4 6) .runs = .ok (5, 15) ∧ h.actors.size = 5 ∧
      h.edges.size = 12 ∧ h.edges.size ≤ 15 := by
  have hsize : Expansion.size (parallelPair 4 6) .runs = .ok (5, 15) := by cbv
  obtain ⟨h, hh, _⟩ := exists_of_any_ok (x := (parallelPair 4 6).expand .runs)
    (p := fun _ => true) (by cbv)
  obtain ⟨n, m, hnm, _, _, hactors, _, hruns⟩ := expand_size hh
  obtain ⟨rfl, rfl⟩ := Prod.mk.inj (Except.ok.inj (hsize.symm.trans hnm))
  obtain ⟨hedges, hbound⟩ := hruns rfl
  exact ⟨h, hh, hsize, hactors, hedges.trans (by cbv),
    hbound (balanced_parallelPair 4 6).absorbs⟩

/-- An actor that sends many tokens to one that takes a single token in an iteration. -/
def burst (tokens : Nat) : Graph ℚ where
  name := "burst"
  actors := #[.atomic "X" 1 1, .atomic "Y" 1 1]
  edges := #[numberedEdge 0 0 0 1 tokens 1 0]
  closed := by simp [numberedEdge]

/-- The same firing reads every token of a burst, each in another iteration, so that no two of them
share an edge.  Three tokens make three edges where two are allowed for, and more tokens than a
graph can number pass the check as well. -/
theorem burst_exceeds_bound :
    (∃ h, (burst 3).validate = .ok () ∧ Expansion.size (burst 3) .runs = .ok (2, 2) ∧
      (burst 3).expand .runs = .ok h ∧ h.edges.size = 3) ∧
    (burst (1 <<< 32)).validate = .ok () ∧ Expansion.size (burst (1 <<< 32)) .runs = .ok (2, 2) ∧
      Expansion.capacity < (burst (1 <<< 32)).runs := by
  obtain ⟨h, hh, hsize⟩ := exists_of_any_ok (x := (burst 3).expand .runs)
    (p := fun h => h.edges.size == 3) (by cbv)
  exact ⟨⟨h, by cbv, by cbv, hh, beq_iff_eq.1 hsize⟩, by cbv, by cbv, by cbv⟩

end Graph

end Dataflow

import Dataflow.Proofs.Expansion.Conservation
import Dataflow.Proofs.Expansion.Size
import Mathlib.Data.Int.CardIntervalMod

/-!
# Where both ends of a run change at once

A run of tokens ends where the firing of the source or that of the target does.  An iteration of a
balanced edge has as many ends of firings as both of its actors fire together, and a run for each
of them, unless two firings end with the same token.  That happens for the firings of the source
that solve a congruence, so that it depends on the delay whether it happens at all, but not how
often.

* `Edge.coincidences` — how many firings of the source end together with one of the target.
* `Edge.runs_add_coincidences` — the runs and these firings make up all ends.
* **`Edge.coincidences_eq`** — how many they are.
* **`Graph.length_derivedFrom_runs`** — the number of edges that an edge is expanded into.
-/

namespace Dataflow

/-! ## Solutions of a congruence -/

section Congruence

variable {c d i j k m n p : Nat}

/-- The solutions of the congruence are those numbers that are congruent to one of them. -/
lemma dvd_add_mul_iff (hc : 0 < c) (hj : c ∣ d + j * p) :
    c ∣ d + i * p ↔ i ≡ j [MOD c / c.gcd p] := by
  have hsolution : c ∣ d + i * p ↔ i * p ≡ j * p [MOD c] := by
    rw [← Nat.modEq_zero_iff_dvd]
    have hzero : d + j * p ≡ 0 [MOD c] := Nat.modEq_zero_iff_dvd.2 hj
    constructor
    · intro h
      exact Nat.ModEq.add_left_cancel' d (h.trans hzero.symm)
    · intro h
      exact (h.add_left d).trans hzero
  rw [hsolution]
  constructor
  · exact Nat.ModEq.cancel_right_div_gcd hc
  · intro h
    have hdvd : c ∣ c / c.gcd p * p := by
      rw [Nat.div_mul_right_comm (Nat.gcd_dvd_left c p),
        Nat.mul_div_assoc _ (Nat.gcd_dvd_right c p)]
      exact Nat.dvd_mul_right _ _
    exact (h.mul_right' p).of_dvd hdvd

/-- The congruence has a solution if the common divisor divides its constant. -/
lemma exists_dvd_add_mul (hc : 0 < c) (hd : p.gcd c ∣ d) : ∃ j, c ∣ d + j * p := by
  -- a multiple of `p` that is `-d` modulo `c`
  have hcompatible : 0 ≡ (c - 1) * d [MOD p.gcd c] :=
    (Nat.modEq_zero_iff_dvd.2 (hd.mul_left _)).symm
  obtain ⟨k, hp, hk⟩ := Nat.chineseRemainder' hcompatible
  obtain ⟨j, rfl⟩ := Nat.modEq_zero_iff_dvd.1 hp
  refine ⟨j, Nat.modEq_zero_iff_dvd.1 ?_⟩
  calc d + j * p ≡ d + (c - 1) * d [MOD c] := by
        rw [Nat.mul_comm j]
        exact hk.add_left d
    _ = c * d := by rw [Nat.sub_one_mul, Nat.add_sub_cancel' (Nat.le_mul_of_pos_left d hc)]
    _ ≡ 0 [MOD c] := Nat.modEq_zero_iff_dvd.2 (Nat.dvd_mul_right c d)

/-- Over a whole number of periods, the congruence has one solution in each, or none at all. -/
lemma count_dvd_add_mul (hc : 0 < c) (hp : 0 < p) (h : p * n = c * m) :
    Nat.count (fun i => c ∣ d + i * p) n =
      if p.gcd c ∣ d then p * n / p.lcm c else 0 := by
  split_ifs with hd
  · obtain ⟨j, hj⟩ := exists_dvd_add_mul hc hd
    have hgcd : 0 < c.gcd p := Nat.gcd_pos_of_pos_left p hc
    have hperiod : 0 < c / c.gcd p := Nat.div_pos (Nat.gcd_le_left p hc) hgcd
    have hdvd : c / c.gcd p ∣ n := by
      refine (Nat.coprime_div_gcd_div_gcd hgcd).dvd_of_dvd_mul_left (k := c / c.gcd p) ?_
      refine ⟨m, ?_⟩
      rw [← Nat.mul_div_right_comm (Nat.gcd_dvd_right c p), h,
        Nat.mul_div_right_comm (Nat.gcd_dvd_left c p)]
    have hlcm : p.lcm c = p * (c / c.gcd p) := by
      rw [Nat.lcm, Nat.gcd_comm, Nat.mul_div_assoc _ (Nat.gcd_dvd_left c p)]
    simp only [dvd_add_mul_iff hc hj]
    rw [Nat.count_modEq_card _ hperiod, Nat.mod_eq_zero_of_dvd hdvd, if_neg (Nat.not_lt_zero _),
      Nat.add_zero, hlcm, Nat.mul_div_mul_left _ _ hp]
  · rw [Nat.count_iff_forall_not]
    intro i _ hi
    have hgcd : p.gcd c ∣ d + i * p := (Nat.gcd_dvd_right p c).trans hi
    exact hd ((Nat.dvd_add_left ((Nat.gcd_dvd_left p c).mul_left i)).1 hgcd)

end Congruence

/-! ## Ends of firings -/

namespace Edge

variable {e : Edge} {senders receivers : Nat}

/-- How many of some firings of the source end together with a firing of the target? -/
def coincidences (e : Edge) (senders : Nat) : Nat :=
  Nat.count (fun i => e.consumption ∣ e.delay + e.production + i * e.production) senders

/-- A run for every end of a firing, unless two firings end together. -/
lemma runs_add_coincidences (hp : 0 < e.production) (senders : Nat) :
    e.runs senders + e.coincidences senders + e.reader 0 =
      senders + e.reader (senders * e.production) := by
  induction senders with
  | zero => simp [runs, coincidences]
  | succ n ih =>
    have hfirst : e.reader (n * e.production) ≤ e.reader (n * e.production + (e.production - 1)) :=
      reader_mono (Nat.le_add_right _ _)
    have hlast : e.reader ((n + 1) * e.production) =
        e.reader (n * e.production + (e.production - 1)) +
          if e.consumption ∣ e.delay + e.production + n * e.production then 1 else 0 := by
      have htoken : e.delay + e.production + n * e.production =
          e.delay + (n * e.production + (e.production - 1)) + 1 := by omega
      have hnext : e.delay + (n + 1) * e.production =
          e.delay + (n * e.production + (e.production - 1)) + 1 := by
        rw [Nat.succ_mul]
        omega
      rw [reader, reader, hnext, Nat.succ_div, htoken]
    rw [coincidences] at ih ⊢
    rw [runs] at ih ⊢
    rw [List.range_succ, List.map_append, List.sum_append, List.map_singleton, List.sum_singleton,
      Nat.count_succ]
    omega

/-- In an iteration that is balanced, either no two firings end together, or as many as there are
common multiples of the rates among its tokens. -/
theorem coincidences_eq (hp : 0 < e.production) (hc : 0 < e.consumption)
    (h : e.production * senders = e.consumption * receivers) :
    e.coincidences senders =
      if e.production.gcd e.consumption ∣ e.delay then
        e.production * senders / e.production.lcm e.consumption
      else 0 := by
  have hgcd : e.production.gcd e.consumption ∣ e.delay + e.production ↔
      e.production.gcd e.consumption ∣ e.delay :=
    Nat.dvd_add_left (Nat.gcd_dvd_left _ _)
  rw [coincidences, count_dvd_add_mul hc hp h]
  simp only [hgcd]

/-- The runs of an iteration that is balanced. -/
lemma runs_add_eq (hp : 0 < e.production) (hc : 0 < e.consumption)
    (h : e.production * senders = e.consumption * receivers) :
    e.runs senders + e.coincidences senders = senders + receivers := by
  have hruns := e.runs_add_coincidences hp senders
  have hlast : e.reader (senders * e.production) = e.reader 0 + receivers := by
    rw [reader, reader, Nat.mul_comm, h, Nat.add_mul_div_left _ _ hc, Nat.add_zero]
  omega

end Edge

/-! ## Edges of the expansion -/

namespace Graph

variable {τ : Type} [Clock τ] {g h s : Graph τ} {grouping : Grouping} {b : Nat} {e : Edge}

/-- The derived edges of an edge are those for its segments. -/
lemma Expanded.length_derivedFrom (hh : Expanded grouping g h) (he : g.edges[b]? = some e) :
    (h.derivedFrom b).length = (Expansion.segments g grouping e).size := by
  have hkey : ∀ p : Edge × Nat, ∀ l ∈ Expansion.edgeLinks g grouping p.2 p.1,
      l.arc.base = some p.2 := by
    intro p l hl
    exact Expansion.base_of_mem_arcs_edgeLinks (List.mem_map_of_mem hl)
  have hlinks := filter_flatMap_zipIdx hkey (k := 0) (Array.getElem?_toList.trans he)
  have harcs : (h.derivedFrom b).map Edge.arc =
      ((Expansion.links g grouping).toList.filter (·.arc.base == some b)).map Link.arc := by
    have := congrArg (List.filter (·.base == some b)) hh.map_arc
    rw [List.filter_map, List.filter_map] at this
    exact this
  rw [Expansion.toList_links] at harcs
  rw [Nat.zero_add] at hlinks
  rw [← List.length_map Edge.arc, harcs, List.length_map]
  refine (congrArg List.length hlinks).trans ?_
  simp [Expansion.edgeLinks]

/-- **The number of runs.**  The single-rate expansion of a balanced graph has, for every edge, as
many edges as its two actors fire together in an iteration, less the firings of both that end with
the same token: one for every common multiple of the rates among the tokens of an iteration if the
greatest common divisor of the rates divides the delay, and none otherwise. -/
theorem length_derivedFrom_runs (hbalanced : g.Balanced) (hs : g.expand .runs = .ok s)
    (he : g.edges[b]? = some e) :
    e.production.lcm e.consumption ∣ e.production * g.repetitions e.source ∧
      (s.derivedFrom b).length +
          (if e.production.gcd e.consumption ∣ e.delay then
            e.production * g.repetitions e.source / e.production.lcm e.consumption
          else 0) =
        g.repetitions e.source + g.repetitions e.target := by
  have hexpanded := expanded_of_expand hs
  have hmem := Array.mem_of_getElem? he
  have hp := hexpanded.wellFormed.production_pos e hmem
  have hc := hexpanded.wellFormed.consumption_pos e hmem
  have htokens : e.production * g.repetitions e.source = e.consumption * g.repetitions e.target :=
    hbalanced e hmem
  constructor
  · refine Nat.lcm_dvd (Nat.dvd_mul_right _ _) ?_
    rw [htokens]
    exact Nat.dvd_mul_right _ _
  · rw [hexpanded.length_derivedFrom he, Expansion.segments, Segment.size_ofEdge_runs hp hc,
      ← Edge.coincidences_eq hp hc htokens, Edge.runs_add_eq hp hc htokens]

/-- With four initial tokens, two of the five firings at the second edge of the pair end together,
and four edges are left; a fifth token keeps them apart. -/
theorem parallelPair_runs :
    (parallelPair 4 6).Balanced ∧ (parallelPair 5 6).Balanced ∧
      (∃ s, (parallelPair 4 6).expand .runs = .ok s ∧ (s.derivedFrom 1).length = 4) ∧
      ∃ s, (parallelPair 5 6).expand .runs = .ok s ∧ (s.derivedFrom 1).length = 5 := by
  have hfour := balanced_parallelPair 4 6
  have hfive := balanced_parallelPair 5 6
  obtain ⟨s, hs, _⟩ := exists_of_any_ok (x := (parallelPair 4 6).expand .runs)
    (p := fun _ => true) (by cbv)
  obtain ⟨t, ht, _⟩ := exists_of_any_ok (x := (parallelPair 5 6).expand .runs)
    (p := fun _ => true) (by cbv)
  have hs' : (s.derivedFrom 1).length + 1 = 5 :=
    (length_derivedFrom_runs hfour hs (b := 1) rfl).2
  have ht' : (t.derivedFrom 1).length + 0 = 5 :=
    (length_derivedFrom_runs hfive ht (b := 1) rfl).2
  exact ⟨hfour, hfive, ⟨s, hs, Nat.succ.inj hs'⟩, t, ht, ht'⟩

end Graph

end Dataflow

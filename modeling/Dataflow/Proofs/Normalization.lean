import Dataflow.Balance
import Dataflow.Normalization
import Dataflow.Proofs.Clock.Exact
import Dataflow.Proofs.Counter
import Dataflow.Proofs.Decimal.Binary64
import Mathlib.Algebra.GCDMonoid.Finset

/-!
# Normalized rates and factors

The period is found whenever the least common multiple of the repetition counts is a counter,
whatever the order of the actors.  All that can fail comes before the first annotation is written,
so a graph is annotated as a whole or not at all.

* `Graph.commonPeriod` — the least common multiple of the repetition counts, without a bound.
* `Fraction.value` — the number that a factor stands for.
* `Graph.normalization_eq_ok_iff` — when a graph can be normalized, and what is found.
* `Graph.gcd_rates_eq_one` — the rates have no common divisor, since no smaller number is a multiple
  of all counts.
* `Graph.value_factor` — on a balanced edge the factor is the rate of the source over what it puts
  in.
* **`Graph.normalize_annotates`** — normalization in full.
* **`Graph.toFloat_factors`** — the doubles that are shown for the factors: each counter of a factor
  is rounded before they are divided.
-/

namespace Dataflow

lemma forall₂_and_eq_iff {α β : Type} {p : α → Prop} {f : α → β} {l : List α} {r : List β} :
    List.Forall₂ (fun a b => p a ∧ b = f a) l r ↔ (∀ a ∈ l, p a) ∧ r = l.map f := by
  rw [List.forall₂_and_left, @eq_comm _ r, ← List.forall₂_eq_eq_eq, List.forall₂_map_left_iff]
  simp only [@eq_comm _ (f _)]

/-- The number that a fraction stands for. -/
def Fraction.value (f : Fraction) : ℚ := f.num / f.den

namespace Graph

variable {τ : Type} {g : Graph τ}

/-! ## The period and the tokens of an iteration -/

/-- The least common multiple of the repetition counts. -/
def commonPeriod (g : Graph τ) : Nat := (Finset.range g.actors.size).lcm g.repetitions

lemma commonPeriod_eq (g : Graph τ) :
    g.commonPeriod = ((g.actors.toList.map Actor.repetitions : List Nat) : Multiset Nat).lcm := by
  have hcounts : (List.range g.actors.size).map g.repetitions =
      g.actors.toList.map Actor.repetitions := by
    refine List.ext_getElem (by simp) fun a ha _ => ?_
    simp only [List.length_map, List.length_range] at ha
    simp [repetitions, ha]
  rw [commonPeriod, Finset.lcm_def, Finset.range_val, ← Multiset.coe_range, Multiset.map_coe,
    hcounts]

lemma repetitions_dvd_commonPeriod {a : Nat} (ha : a < g.actors.size) :
    g.repetitions a ∣ g.commonPeriod :=
  Finset.dvd_lcm (Finset.mem_range.2 ha)

/-- The period is found if it is a counter. -/
lemma period_eq_ok_iff {period : Nat} (hpos : ∀ a ∈ g.actors, 0 < a.repetitions) :
    g.period = .ok period ↔ g.commonPeriod < Counter.bound ∧ period = g.commonPeriod := by
  rw [Graph.period, commonPeriod_eq, Counter.lcmAll_eq_ok_iff]
  intro n hn
  obtain ⟨a, ha, rfl⟩ := List.mem_map.1 hn
  exact hpos a (Array.mem_toList_iff.1 ha)

/-- The tokens that an iteration takes out of an edge. -/
def tokensConsumed (g : Graph τ) (e : Edge) : Nat := e.consumption * g.repetitions e.target

lemma consumed_eq_ok_iff {tokens : Array Nat} :
    g.consumed = .ok tokens ↔
      (∀ e ∈ g.edges, g.tokensConsumed e < Counter.bound) ∧
        tokens = g.edges.map g.tokensConsumed := by
  rw [Graph.consumed, array_mapM_eq_ok]
  simp only [Counter.mul_eq_ok_iff]
  refine forall₂_and_eq_iff.trans ?_
  rw [← Array.toList_map, Array.toList_inj]
  simp only [Array.mem_toList_iff]
  rfl

/-! ## Rates and factors -/

variable {rate : Nat → Nat}

/-- The rates have no common divisor: it would divide the period, and the quotient would still be a
multiple of all counts. -/
theorem gcd_rates_eq_one (hpos : 0 < g.commonPeriod) (hsize : 0 < g.actors.size)
    (hrate : ∀ a < g.actors.size, rate a * g.repetitions a = g.commonPeriod) :
    (Finset.range g.actors.size).gcd rate = 1 := by
  set d := (Finset.range g.actors.size).gcd rate
  have hdvd : ∀ a < g.actors.size, d ∣ rate a := fun a ha => Finset.gcd_dvd (Finset.mem_range.2 ha)
  obtain ⟨m, hm⟩ : d ∣ g.commonPeriod := by
    rw [← hrate 0 hsize]
    exact (hdvd 0 hsize).mul_right _
  have hdm : 0 < d * m := hm ▸ hpos
  have hquotient : g.commonPeriod ∣ m := by
    refine Finset.lcm_dvd fun a ha => ?_
    rw [Finset.mem_range] at ha
    obtain ⟨r, hr⟩ := hdvd a ha
    refine ⟨r, Nat.eq_of_mul_eq_mul_left (Nat.pos_of_mul_pos_right hdm) ?_⟩
    rw [← hm, ← hrate a ha, hr]
    ac_rfl
  have hle : d * m ≤ 1 * m := by
    rw [← hm, Nat.one_mul]
    exact Nat.le_of_dvd (Nat.pos_of_mul_pos_left hdm) hquotient
  have hone : d ≤ 1 := Nat.le_of_mul_le_mul_right hle (Nat.pos_of_mul_pos_left hdm)
  exact Nat.le_antisymm hone (Nat.pos_of_mul_pos_right hdm)

/-- On a balanced edge the factor is the rate of the source over what it puts in. -/
lemma value_factor {e : Edge} {r : Nat} (hr : r * g.repetitions e.source = g.commonPeriod)
    (hpos : 0 < g.repetitions e.source) (h : e.Balances g.repetitions) :
    (Fraction.mk g.commonPeriod (g.tokensConsumed e)).value = r / e.production := by
  have hne : (g.repetitions e.source : ℚ) ≠ 0 := Nat.cast_ne_zero.2 (Nat.ne_of_gt hpos)
  have hbalanced : g.tokensConsumed e = e.production * g.repetitions e.source := h.symm
  rw [Fraction.value, ← hr, hbalanced, Nat.cast_mul, Nat.cast_mul]
  exact mul_div_mul_right _ _ hne

/-- The graph with some rates, and with the tokens of an iteration below its common period. -/
def withRates (g : Graph τ) (rate : Nat → Nat) : Graph τ :=
  (g.updateActors fun i a => { a with normalizedRate := some (rate i) }).updateEdges fun _ e =>
    { e with factor := some ⟨g.commonPeriod, g.tokensConsumed e⟩ }

lemma edges_withRates (g : Graph τ) (rate : Nat → Nat) :
    (g.withRates rate).edges =
      g.edges.map fun e => { e with factor := some ⟨g.commonPeriod, g.tokensConsumed e⟩ } := by
  refine Array.ext (by simp [withRates, updateEdges, updateActors]) fun i _ _ => ?_
  simp [withRates, updateEdges, updateActors]

lemma annotated_eq (g : Graph τ) :
    g.annotated g.commonPeriod (g.edges.map g.tokensConsumed) =
      g.withRates fun a => g.commonPeriod / g.repetitions a := by
  have hactors : (g.actors.mapIdx fun _ a =>
      { a with normalizedRate := some (g.commonPeriod / a.repetitions) }) =
        g.actors.mapIdx fun i a =>
          { a with normalizedRate := some (g.commonPeriod / g.repetitions i) } := by
    refine Array.ext (by simp) fun i hi _ => ?_
    rw [Array.size_mapIdx] at hi
    simp [repetitions, hi]
  have hedges : (g.edges.mapIdx fun i e =>
      { e with factor :=
          ((g.edges.map g.tokensConsumed)[i]?).map fun tokens => ⟨g.commonPeriod, tokens⟩ }) =
        g.edges.mapIdx fun _ e =>
          { e with factor := some ⟨g.commonPeriod, g.tokensConsumed e⟩ } := by
    refine Array.ext (by simp) fun i hi _ => ?_
    rw [Array.size_mapIdx] at hi
    simp [hi]
  simp only [annotated, withRates, updateEdges, updateActors, hactors, hedges]

/-! ## Normalization -/

variable [Clock τ]

/-- When a graph can be normalized, and what is found. -/
lemma normalization_eq_ok_iff {r : Nat × Array Nat} :
    g.normalization = .ok r ↔
      (g.validate = .ok () ∧ g.commonPeriod < Counter.bound ∧
        ∀ e ∈ g.edges, g.tokensConsumed e < Counter.bound) ∧
      r = (g.commonPeriod, g.edges.map g.tokensConsumed) := by
  rw [normalization, check_bind_eq_ok, and_assoc]
  refine and_congr_right fun hvalid => ?_
  have hpos : ∀ a ∈ g.actors, 0 < a.repetitions := fun a ha =>
    ((validate_eq_ok_iff.1 hvalid).actors_wellFormed a ha).repetitions_pos
  simp only [bind_eq_ok, mapError_eq_ok, pure_eq_ok, period_eq_ok_iff hpos, consumed_eq_ok_iff]
  constructor
  · rintro ⟨_, ⟨hperiod, rfl⟩, _, ⟨htokens, rfl⟩, rfl⟩
    exact ⟨⟨hperiod, htokens⟩, rfl⟩
  · rintro ⟨⟨hperiod, htokens⟩, rfl⟩
    exact ⟨_, ⟨hperiod, rfl⟩, _, ⟨htokens, rfl⟩, rfl⟩

lemma normalize_eq_ok_iff {h : Graph τ} :
    g.normalize = .ok h ↔
      (g.validate = .ok () ∧ g.commonPeriod < Counter.bound ∧
        ∀ e ∈ g.edges, g.tokensConsumed e < Counter.bound) ∧
      h = g.withRates fun a => g.commonPeriod / g.repetitions a := by
  rw [normalize, Attempt.outcome_eq_ok, annotate, ← annotated_eq]
  cases hn : g.normalization with
  | error failure =>
    have hrefused : ∀ r, g.normalization ≠ .ok r := by simp [hn]
    simp only [Ne, normalization_eq_ok_iff] at hrefused
    refine iff_of_false Attempt.stopped_ne_finished fun ⟨hfit, _⟩ => hrefused _ ⟨hfit, rfl⟩
  | ok r =>
    obtain ⟨hfit, rfl⟩ := normalization_eq_ok_iff.1 hn
    rw [Attempt.finished_inj, and_iff_right hfit, eq_comm]

lemma annotate_of_normalize_error {failure : Failure τ} (h : g.normalize = .error failure) :
    g.annotate = .stopped g failure := by
  rw [normalize, annotate] at h
  rw [annotate]
  split at h
  case h_1 => simp [Attempt.outcome, Attempt.finished] at h
  case h_2 failure' _ =>
    rw [Attempt.outcome, Attempt.stopped, Except.error.injEq] at h
    rw [h]

/-- **Normalization.**  A graph can be normalized if and only if it is well-formed, the least common
multiple of its repetition counts is a counter, and so are the tokens that an iteration takes out of
each edge.  Then the rates times the counts are that multiple, the rates have no common divisor, and
the factor of an edge that is balanced is the rate of its source over what a firing puts in; all but
the rates and the factors is left as it was.  A graph that is refused is left as it was, the
annotations that it had included. -/
theorem normalize_annotates (g : Graph τ) :
    ((∃ h, g.normalize = .ok h) ↔
      g.validate = .ok () ∧ g.commonPeriod < Counter.bound ∧
        ∀ e ∈ g.edges, g.tokensConsumed e < Counter.bound) ∧
      (∀ h, g.normalize = .ok h →
        ∃ rate : Nat → Nat,
          (∀ a < g.actors.size, rate a * g.repetitions a = g.commonPeriod) ∧
            (0 < g.actors.size → (Finset.range g.actors.size).gcd rate = 1) ∧
            (∀ e ∈ g.edges, e.Balances g.repetitions →
              (Fraction.mk g.commonPeriod (g.tokensConsumed e)).value =
                rate e.source / e.production) ∧
            h = g.withRates rate) ∧
      ∀ failure, g.normalize = .error failure → g.annotate = .stopped g failure := by
  refine ⟨?_, fun h hh => ?_, fun failure => annotate_of_normalize_error⟩
  · simp only [normalize_eq_ok_iff]
    exact ⟨fun ⟨_, hfit, _⟩ => hfit, fun hfit => ⟨_, hfit, rfl⟩⟩
  · obtain ⟨⟨hvalid, _⟩, rfl⟩ := normalize_eq_ok_iff.1 hh
    have hg := validate_eq_ok_iff.1 hvalid
    have hrate : ∀ a < g.actors.size,
        g.commonPeriod / g.repetitions a * g.repetitions a = g.commonPeriod :=
      fun a ha => Nat.div_mul_cancel (repetitions_dvd_commonPeriod ha)
    have hperiod : 0 < g.commonPeriod := by
      refine Nat.pos_of_ne_zero (Finset.lcm_ne_zero_iff.2 fun a ha => ?_)
      exact Nat.ne_of_gt (hg.repetitions_pos (Finset.mem_range.1 ha))
    refine ⟨_, hrate, fun hsize => gcd_rates_eq_one hperiod hsize hrate, fun e he => ?_, rfl⟩
    have hsource := (g.closed e he).1
    exact value_factor (hrate e.source hsource) (hg.repetitions_pos hsource)

/-- **Factors as doubles.**  What is shown for an edge of a normalized graph is the quotient of two
doubles, one that approximates the period and one that approximates the tokens that an iteration
takes out of the edge.  The identity with the rate of the source over what a firing puts in is one
of fractions: the doubles depend on the counters that a fraction is written with. -/
theorem toFloat_factors {h : Graph τ} (hh : g.normalize = .ok h) :
    (h.edges.map fun e => e.factor.map Fraction.toFloat) =
        g.edges.map (fun e => some (Binary64.nearestFloat g.commonPeriod 1 /
          Binary64.nearestFloat (g.tokensConsumed e) 1)) ∧
      Binary64.Approximates (Binary64.nearest g.commonPeriod 1) g.commonPeriod ∧
      ∀ e ∈ g.edges,
        Binary64.Approximates (Binary64.nearest (g.tokensConsumed e) 1) (g.tokensConsumed e) := by
  obtain ⟨⟨_, hperiod, htokens⟩, rfl⟩ := normalize_eq_ok_iff.1 hh
  refine ⟨?_, Binary64.nearest_approximates hperiod, fun e he =>
    Binary64.nearest_approximates (htokens e he)⟩
  rw [edges_withRates, Array.map_map]
  rfl

/-- One fraction, with and without the common divisor, is shown as two doubles. -/
example :
    (Fraction.mk 3 9007199254740993).value = (Fraction.mk 1 3002399751580331).value ∧
      (Fraction.mk 3 9007199254740993).toFloat.toBits ≠
        (Fraction.mk 1 3002399751580331).toFloat.toBits :=
  ⟨by norm_num [Fraction.value], by decide +kernel⟩

/-- Three actors of which the first two fire three times and twice, and the last `n` times.  The
first one has a rate already. -/
def unevenPace (n : Nat) : Graph ℚ where
  name := "pace"
  actors := #[{ Actor.atomic "A" 3 1 with normalizedRate := some 7 }, .atomic "B" 2 1,
    .atomic "C" n 1]
  edges := #[numberedEdge 0 0 0 1 2 3 0]
  closed := by simp [numberedEdge]

/-- Six firings of the last actor make a period of six; with `2 ^ 63` firings the period is no
counter, and the first actor keeps the rate that it has. -/
theorem unevenPace_normalized :
    (∃ h, (unevenPace 6).normalize = .ok h ∧
      h.normalizedRates = [("A", 2), ("B", 3), ("C", 1)]) ∧
      ∃ failure, (unevenPace (1 <<< 63)).annotate = .stopped (unevenPace (1 <<< 63)) failure := by
  obtain ⟨hfit, hrates, _⟩ := normalize_annotates (unevenPace 6)
  obtain ⟨_, _, hrefused⟩ := normalize_annotates (unevenPace (1 <<< 63))
  constructor
  · obtain ⟨h, hh⟩ := hfit.2 ⟨by cbv, by decide +kernel, by decide +kernel⟩
    obtain ⟨rate, hrate, _, _, rfl⟩ := hrates h hh
    have hperiod : (unevenPace 6).commonPeriod = 6 := by decide +kernel
    rw [hperiod] at hrate
    have hA : rate 0 = 2 := Nat.eq_of_mul_eq_mul_right (by decide) (hrate 0 (by decide))
    have hB : rate 1 = 3 := Nat.eq_of_mul_eq_mul_right (by decide) (hrate 1 (by decide))
    have hC : rate 2 = 1 := Nat.eq_of_mul_eq_mul_right (by decide) (hrate 2 (by decide))
    refine ⟨_, hh, ?_⟩
    simp [normalizedRates, withRates, updateEdges, updateActors, unevenPace, Actor.atomic, hA, hB,
      hC]
  · exact ⟨_, hrefused (.range (.product "least common multiple" 3 (1 <<< 63))) (by cbv)⟩

end Graph

end Dataflow

import Dataflow.Proofs.Expansion.Instances
import Dataflow.Proofs.Simulation.Earliest

/-!
# Relaxing a graph

More initial tokens and shorter durations never delay an iteration.  Two simulations cannot be
compared step by step, because other firings end together as soon as one date changes; but firings
can be compared by their dates.  A firing of the relaxed graph needs no more firings than before
(`Edge.RelaxedBy.demand_le`), so it can have ended by every date by which it could before.

* `Edge.RelaxedBy`, `Graph.RelaxedBy` — an edge with no fewer initial tokens, and a graph with such
  edges and no longer durations.
* `Graph.EndedBy.relax` — what could have ended by a date can in the relaxed graph.
* `Graph.RelaxedBy.exists_span` — a firing occurs in the relaxed graph, no later than before.
* **`Graph.schedule_relaxed`** — the relaxed graph is live if the graph is, and takes no longer.
-/

namespace Dataflow

/-- The second edge is the first one with no fewer initial tokens. -/
structure Edge.RelaxedBy (e e' : Edge) : Prop where
  source : e'.source = e.source
  target : e'.target = e.target
  production : e'.production = e.production
  consumption : e'.consumption = e.consumption
  delay_le : e.delay ≤ e'.delay

lemma Edge.RelaxedBy.demand_le {e e' : Edge} (h : e.RelaxedBy e') (k : Nat) :
    e'.demand k ≤ e.demand k := by
  have hdelay := h.delay_le
  rw [demand, demand, h.production, h.consumption]
  exact Nat.div_le_div_right (by omega)

namespace Graph

/-- The second graph has the actors of the first, with no longer durations, and some or all of its
edges, with no fewer initial tokens. -/
structure RelaxedBy {τ : Type} [Clock τ] [LE τ] (g g' : Graph τ) : Prop where
  actors_size : g'.actors.size = g.actors.size
  repetitions (a : Nat) : g'.repetitions a = g.repetitions a
  duration_le (a : Nat) : g'.duration a ≤ g.duration a
  edges : ∀ e' ∈ g'.edges, ∃ e ∈ g.edges, e.RelaxedBy e'

variable {τ : Type} [Clock τ] [AddCommMonoid τ] [LinearOrder τ] {g g' : Graph τ} {a k : Nat} {t : τ}

/-! ## Dates of firings -/

/-- A firing of the relaxed graph waits for no more firings than before. -/
lemma RelaxedBy.canStart (hr : g.RelaxedBy g') (nonneg : 0 ≤ t)
    (fed : ∀ e ∈ g.edges, e.target = a → 0 < e.demand k → g'.EndedBy e.source (e.demand k) t) :
    g'.CanStart a k t := by
  refine ⟨nonneg, fun e' he' htarget hdemand => ?_⟩
  obtain ⟨e, he, hrelaxed⟩ := hr.edges e' he'
  have hle := hrelaxed.demand_le k
  rw [hrelaxed.source]
  exact (fed e he (hrelaxed.target ▸ htarget) (hdemand.trans_le hle)).mono hdemand hle le_rfl

variable [IsOrderedAddMonoid τ]

/-- It can have ended whenever it can in the graph. -/
theorem EndedBy.relax (hr : g.RelaxedBy g') (h : g.EndedBy a k t) : g'.EndedBy a k t := by
  induction h with
  | @intro a k start t pos le nonneg fed ends ih =>
    have hstart := hr.canStart nonneg ih
    have hends := add_le_add_right (hr.duration_le a) start
    exact .intro pos (hr.repetitions a ▸ le) hstart.1 hstart.2 (hends.trans ends)

lemma CanStart.relax (hr : g.RelaxedBy g') (h : g.CanStart a k t) : g'.CanStart a k t :=
  hr.canStart h.1 fun e he htarget hdemand => (h.2 e he htarget hdemand).relax hr

lemma Finishes.relax (hr : g.RelaxedBy g') (h : g.Finishes) : g'.Finishes := by
  obtain ⟨t, hall⟩ := h
  refine ⟨t, fun a ha => ?_⟩
  rw [hr.repetitions]
  exact (hall a (hr.actors_size ▸ ha)).relax hr

/-- Once all firings of the graph can have ended, those of the relaxed graph can. -/
lemma Settles.relax (hr : g.RelaxedBy g') (hfinishes : g.Finishes) (h : g.Settles t) :
    g'.Settles t := by
  obtain ⟨t', hall⟩ := hfinishes
  refine ⟨h.1, fun a k u hu => ?_⟩
  have hle : k ≤ g.repetitions a := hr.repetitions a ▸ hu.le_repetitions
  have ha : a < g.actors.size := lt_size_of_lt_repetitions (hu.pos.trans_le hle)
  have hend := (h.2 a _ t' (hall a ha)).relax hr
  exact hend.mono hu.pos hle le_rfl

/-! ## Runs -/

variable [Clock.Exact τ]

/-- A firing of the graph occurs in the relaxed graph, and starts and ends no later. -/
lemma RelaxedBy.exists_span {s : Simulation g} {s' : Simulation g'} {x : Span τ}
    (hr : g.RelaxedBy g') (hg : g.WellFormed) (hg' : g'.WellFormed)
    (hs : g.simulation.run = .finished s) (hs' : g'.simulation.run = .finished s')
    (hx : g.firing? a k = some x) :
    ∃ y, g'.firing? a k = some y ∧ y.start ≤ x.start ∧ y.finish ≤ x.finish := by
  have hearliest := firing?_earliest hg hs hx
  have hend := (firing?_endsAt hg hs hx).1.relax hr
  obtain ⟨y, hy⟩ := exists_firing? hg' hs' hend
  have hearliest' := firing?_earliest hg' hs' hy
  exact ⟨y, hy, hearliest'.startsAt.2 (hearliest.startsAt.1.relax hr),
    (firing?_endsAt hg' hs' hy).2 hend⟩

/-- **No timing anomalies.**  Suppose that a graph has an outcome, and so has a graph with the same
actors, no longer durations and no fewer initial tokens.  Every firing of the first occurs in the
second, and starts and ends no later there.  If the first is live, so is the second, and its
iteration takes no longer. -/
theorem schedule_relaxed {o o' : Outcome τ} (hr : g.RelaxedBy g') (ho : g.schedule = .ok o)
    (ho' : g'.schedule = .ok o') :
    (∀ a k x, g.firing? a k = some x →
      ∃ y, g'.firing? a k = some y ∧ y.start ≤ x.start ∧ y.finish ≤ x.finish) ∧
    (o.live = true → o'.live = true ∧ o'.duration ≤ o.duration) := by
  refine ⟨fun a k x hx => ?_, fun hlive => ?_⟩
  · obtain ⟨hg, s, hs, _⟩ := schedule_eq_ok.1 ho
    obtain ⟨hg', s', hs', _⟩ := schedule_eq_ok.1 ho'
    exact hr.exists_span hg hg' hs hs' hx
  · obtain ⟨hleast, _, hcompleted⟩ := schedule_settles ho
    obtain ⟨hleast', _, hcompleted'⟩ := schedule_settles ho'
    have hfinishes : g.Finishes := hcompleted.1 (beq_iff_eq.1 hlive)
    exact ⟨beq_iff_eq.2 (hcompleted'.2 (hfinishes.relax hr)),
      hleast'.2 (hleast.1.relax hr hfinishes)⟩

/-- The pair with two more tokens on one edge and half the durations. -/
def briskPair : Graph ℚ := (parallelPair 4 6).updateActors fun _ a => { a with duration := 1 / 2 }

lemma parallelPair_relaxedBy : (parallelPair 4 4).RelaxedBy briskPair where
  actors_size := by simp [briskPair, parallelPair, updateActors]
  repetitions a := by
    simp only [Graph.repetitions, briskPair, updateActors, Array.getElem?_mapIdx, Option.map_map]
    rfl
  duration_le a := by
    rcases a with _ | _ | a
    all_goals simp [Graph.duration, briskPair, parallelPair, updateActors, Actor.atomic]
    all_goals norm_num
  edges e he := by
    simp only [briskPair, updateActors, parallelPair, List.mem_toArray, List.mem_cons,
      List.not_mem_nil, or_false] at he
    rcases he with rfl | rfl | rfl
    · exact ⟨numberedEdge 0 0 0 1 3 2 0, by simp [parallelPair], rfl, rfl, rfl, rfl, le_rfl⟩
    · exact ⟨numberedEdge 1 1 0 1 6 4 4, by simp [parallelPair], rfl, rfl, rfl, rfl, le_rfl⟩
    · exact ⟨numberedEdge 0 0 1 0 2 3 4, by simp [parallelPair], rfl, rfl, rfl, rfl, by decide⟩

/-- The brisk pair is live, takes no longer than the four units of the pair, and ends the second
firing of its first actor in time. -/
theorem briskPair_relaxed :
    (parallelPair 4 4).RelaxedBy briskPair ∧
      ∃ o o' : Outcome ℚ, (parallelPair 4 4).schedule = .ok o ∧ briskPair.schedule = .ok o' ∧
        o'.live = true ∧ o'.duration ≤ 4 ∧
        ∃ y, briskPair.firing? 0 2 = some y ∧ y.start ≤ 2 ∧ y.finish ≤ 3 := by
  obtain ⟨o, ho, hp⟩ := exists_of_any_ok (x := (parallelPair 4 4).schedule)
    (p := fun o => o.live && o.duration == 4) (by cbv)
  obtain ⟨o', ho', _⟩ := exists_of_any_ok (x := briskPair.schedule) (p := fun _ => true) (by cbv)
  obtain ⟨hlive, hfour⟩ : o.live = true ∧ o.duration = 4 := by simpa using hp
  obtain ⟨hfirings, houtcome⟩ := schedule_relaxed parallelPair_relaxedBy ho ho'
  obtain ⟨hlive', hle⟩ := houtcome hlive
  exact ⟨parallelPair_relaxedBy, o, o', ho, ho', hlive', hfour ▸ hle,
    hfirings 0 2 ⟨2, 3⟩ (by cbv)⟩

end Graph

end Dataflow

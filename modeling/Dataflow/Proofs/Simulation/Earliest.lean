import Dataflow.Proofs.Simulation.History

/-!
# As soon as possible

When every firing of a run begins.  A firing takes tokens that other firings have put in, and it
begins when the last of those has ended; firings that find all their tokens in the delays begin at
zero.  So the dates of a run are determined by the graph alone.

* `Graph.firing?_earliest` — the firings that occur have their earliest dates.
* `Graph.exists_firing?` — a firing that can have ended by some date occurs.
* **`Graph.schedule_asSoonAsPossible`** — the dates of a run, firing by firing, and its duration.
-/

namespace Dataflow

namespace Graph

variable {τ : Type} [Clock τ] [AddCommMonoid τ] [LinearOrder τ] [IsOrderedAddMonoid τ]
  [Clock.Exact τ] {g : Graph τ} {s : Simulation g} {a b k : Nat} {x y : Span τ}

omit [AddCommMonoid τ] [LinearOrder τ] [IsOrderedAddMonoid τ] [Clock.Exact τ] in
lemma firing?_eq_some : g.firing? a k = some x ↔ 0 < k ∧ (g.spans a)[k - 1]? = some x := by
  rw [firing?]
  split_ifs with hk
  · simp [hk]
  · exact ⟨fun h => ⟨Nat.pos_of_ne_zero hk, h⟩, And.right⟩

omit [AddCommMonoid τ] [LinearOrder τ] [IsOrderedAddMonoid τ] [Clock.Exact τ] in
lemma mem_spans : x ∈ g.spans a ↔ ∃ k, g.firing? a k = some x := by
  rw [List.mem_iff_getElem?]
  constructor
  · rintro ⟨i, hi⟩
    exact ⟨i + 1, firing?_eq_some.2 ⟨Nat.succ_pos i, hi⟩⟩
  · rintro ⟨k, hk⟩
    exact ⟨k - 1, (firing?_eq_some.1 hk).2⟩

/-! ## The firings of a run -/

lemma length_spans (hg : g.WellFormed) (hs : g.simulation.run = .finished s) :
    (g.spans a).length = s.ledger.firings a := by
  have h := ((Simulation.leads_history hs).spans hg a (Simulation.timed_simulation g)).1
  rwa [Graph.simulation, Ledger.firings_ledger, Nat.zero_add] at h

lemma firing?_earliest (hg : g.WellFormed) (hs : g.simulation.run = .finished s)
    (hx : g.firing? a k = some x) : Simulation.Earliest g a k x := by
  obtain ⟨hk, hx⟩ := firing?_eq_some.1 hx
  have h := ((Simulation.leads_history hs).spans hg a (Simulation.timed_simulation g)).2 _ x hx
  rwa [Graph.simulation, Ledger.firings_ledger, Nat.zero_add, Nat.sub_add_cancel hk] at h

lemma firing?_endsAt (hg : g.WellFormed) (hs : g.simulation.run = .finished s)
    (hx : g.firing? a k = some x) : g.EndsAt a k x.finish := by
  have h := firing?_earliest hg hs hx
  rw [h.finish_eq]
  exact h.startsAt.endsAt (firing?_eq_some.1 hx).1 h.le_repetitions

lemma exists_firing? (hg : g.WellFormed) (hs : g.simulation.run = .finished s) {t : τ}
    (h : g.EndedBy a k t) : ∃ x, g.firing? a k = some x := by
  have hle := Simulation.le_firings_of_run hg hs h
  have hpos := h.pos
  rw [← length_spans hg hs] at hle
  exact ⟨_, firing?_eq_some.2 ⟨hpos, List.getElem?_eq_getElem (by omega)⟩⟩

lemma exists_feeding (hg : g.WellFormed) (hs : g.simulation.run = .finished s)
    (hx : g.firing? b k = some x) {e : Edge} (he : e ∈ g.feeds b k) :
    ∃ y, g.firing? e.source (e.demand k) = some y ∧ y.finish ≤ x.start := by
  have hfed := (firing?_earliest hg hs hx).startsAt.1.2 e he.1 he.2.1 he.2.2
  obtain ⟨y, hy⟩ := exists_firing? hg hs hfed
  exact ⟨y, hy, (firing?_endsAt hg hs hy).2 hfed⟩

/-! ## Starts and ends -/

/-- The start of a firing is the latest end of the firings that feed it. -/
lemma start_isGreatest (hg : g.WellFormed) (hs : g.simulation.run = .finished s)
    (hx : g.firing? b k = some x) : g.feeds b k = ∅ ∧ x.start = 0 ∨
      IsGreatest {t | ∃ e ∈ g.feeds b k, ∃ y, g.firing? e.source (e.demand k) = some y ∧
        y.finish = t} x.start := by
  refine ((firing?_earliest hg hs hx).startsAt.exists_critical hg).imp id ?_
  rintro ⟨e, he, hcritical⟩
  obtain ⟨y, hy, _⟩ := exists_feeding hg hs hx he
  refine ⟨⟨e, he, y, hy, (firing?_endsAt hg hs hy).unique hcritical⟩, ?_⟩
  rintro t ⟨e', he', y', hy', rfl⟩
  obtain ⟨y'', hy'', hle⟩ := exists_feeding hg hs hx he'
  rwa [Option.some.inj (hy'.symm.trans hy'')]

/-- The duration of an iteration is the latest end of a firing. -/
lemma duration_isGreatest (hg : g.WellFormed) (hs : g.simulation.run = .finished s) :
    (∀ a, g.spans a = []) ∧ s.elapsed = 0 ∨
      IsGreatest {t | ∃ a, ∃ x ∈ g.spans a, x.finish = t} s.elapsed := by
  have htimed := Simulation.timed_run hg hs
  have hends : ∀ {a k x}, g.firing? a k = some x → x.finish ≤ s.elapsed := by
    intro a k x hx
    have hends := firing?_endsAt hg hs hx
    exact hends.2 (Simulation.endedBy_of_run hg hs hends.1.pos
      (Simulation.le_firings_of_run hg hs hends.1))
  have hbound : s.elapsed ∈ upperBounds {t | ∃ a, ∃ x ∈ g.spans a, x.finish = t} := by
    rintro t ⟨a, x, hx, rfl⟩
    obtain ⟨k, hk⟩ := mem_spans.1 hx
    exact hends hk
  rcases htimed.dated.attained with hzero | ⟨a, k, hpos, hle, hfirst⟩
  · by_cases hnone : ∀ a, g.spans a = []
    · exact Or.inl ⟨hnone, hzero⟩
    · -- some firing occurs, and none can end before zero
      push Not at hnone
      obtain ⟨a, hsome⟩ := hnone
      obtain ⟨x, hx⟩ := List.exists_mem_of_ne_nil _ hsome
      obtain ⟨k, hk⟩ := mem_spans.1 hx
      refine Or.inr ⟨⟨a, x, hx, le_antisymm (hends hk) ?_⟩, hbound⟩
      rw [hzero]
      exact (firing?_endsAt hg hs hk).1.nonneg hg
  · obtain ⟨x, hx⟩ := exists_firing? hg hs
      (Simulation.endedBy_of_run hg hs hpos (hle.trans (Nat.sub_le _ _)))
    refine Or.inr ⟨⟨a, x, mem_spans.2 ⟨k, hx⟩, le_antisymm (hends hx) ?_⟩, hbound⟩
    exact hfirst _ (firing?_endsAt hg hs hx).1

/-! ## The dates of a graph -/

omit [AddCommMonoid τ] [LinearOrder τ] [IsOrderedAddMonoid τ] [Clock.Exact τ] in
lemma mem_feeds_iff (hg : g.WellFormed) {e : Edge} :
    e ∈ g.feeds b k ↔ e ∈ g.edges ∧ e.target = b ∧ e.delay < k * e.consumption :=
  and_congr_right fun he => and_congr_right fun _ =>
    Edge.demand_pos_iff (hg.production_pos e he)

/-- **As soon as possible.**  Suppose that a graph has an outcome.  Its run lists as many firings of
every actor as the final ledger counts.  Firing number `k` of an actor ends a duration after it
starts.  It starts at the latest end among the firings that send it tokens; along an edge whose
delay is less than `k` times its consumption, this is the firing whose number is their difference
divided by the production, rounded up, and it occurs.  Without such an edge the firing starts at
zero.  The duration of an iteration is the latest end of a firing that occurs, and the dates of the
batches that end do not decrease. -/
theorem schedule_asSoonAsPossible {o : Outcome τ} (ho : g.schedule = .ok o) :
    (∃ s, g.simulation.run.outcome = .ok s ∧ s.outcome = o ∧
      ∀ b, (g.spans b).length = s.ledger.firings b) ∧
    (∀ b k x, g.firing? b k = some x →
      x.finish = x.start + g.duration b ∧
      (∀ e ∈ g.edges, e.target = b → e.delay < k * e.consumption →
        ∃ y, g.firing? e.source (e.demand k) = some y) ∧
      ((∀ e ∈ g.edges, e.target = b → k * e.consumption ≤ e.delay) ∧ x.start = 0 ∨
        IsGreatest {t | ∃ e ∈ g.edges, e.target = b ∧ e.delay < k * e.consumption ∧
          ∃ y, g.firing? e.source (e.demand k) = some y ∧ y.finish = t} x.start)) ∧
    ((∀ b, g.spans b = []) ∧ o.duration = 0 ∨
      IsGreatest {t | ∃ b, ∃ x ∈ g.spans b, x.finish = t} o.duration) ∧
    g.batchDates.Pairwise (· ≤ ·) := by
  obtain ⟨hg, s, hs, rfl⟩ := schedule_eq_ok.1 ho
  refine ⟨⟨s, Attempt.outcome_eq_ok.2 hs, rfl, fun b => length_spans hg hs⟩, fun b k x hx => ?_,
    duration_isGreatest hg hs,
    ((Simulation.leads_history hs).dates hg (Simulation.timed_simulation g)).1⟩
  refine ⟨(firing?_earliest hg hs hx).finish_eq, fun e he htarget hdelay => ?_, ?_⟩
  · exact (exists_feeding hg hs hx ((mem_feeds_iff hg).2 ⟨he, htarget, hdelay⟩)).imp fun _ h => h.1
  · rcases start_isGreatest hg hs hx with ⟨hnone, hzero⟩ | hlatest
    · refine Or.inl ⟨fun e he htarget => ?_, hzero⟩
      rw [← not_lt]
      intro hdelay
      exact (Set.eq_empty_iff_forall_notMem.1 hnone e) ((mem_feeds_iff hg).2 ⟨he, htarget, hdelay⟩)
    · right
      simpa only [mem_feeds_iff hg, and_assoc] using hlatest

/-- The second firing of the first actor waits until the other actor has ended its first. -/
theorem parallelPair_second_firing :
    ∃ o : Outcome ℚ, (parallelPair 4 4).schedule = .ok o ∧
      (parallelPair 4 4).firing? 0 2 = some ⟨2, 3⟩ ∧
      IsGreatest {t | ∃ e ∈ (parallelPair 4 4).edges, e.target = 0 ∧
        e.delay < 2 * e.consumption ∧ ∃ y,
          (parallelPair 4 4).firing? e.source (e.demand 2) = some y ∧ y.finish = t} 2 := by
  obtain ⟨o, ho, _⟩ := exists_of_any_ok (x := (parallelPair 4 4).schedule)
    (p := fun _ => true) (by cbv)
  have hx : (parallelPair 4 4).firing? 0 2 = some ⟨2, 3⟩ := by cbv
  obtain ⟨_, _, hstart⟩ := (schedule_asSoonAsPossible ho).2.1 0 2 _ hx
  exact ⟨o, ho, hx, hstart.resolve_left fun h => two_ne_zero h.2⟩

end Graph

end Dataflow

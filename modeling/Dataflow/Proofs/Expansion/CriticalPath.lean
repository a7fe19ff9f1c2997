import Dataflow.Proofs.Expansion.Deadlock
import Dataflow.Proofs.Simulation.Earliest

/-!
# Critical paths

Over an exact clock, the duration of an iteration that is completed is the duration of the longest
path through its precedences.  No path is longer, because every firing on it waits for the one
before; and following the critical firings back from the firing that ends last gives a path along
which nothing waits.

* `Graph.pathDuration` — the durations of the actors on a path, one after another.
* `Graph.EndedBy.pathDuration_le` — by the date at which a firing has ended, so has any path to it.
* `Graph.EndsAt.exists_path` — a firing that ends as early as it can is at the end of a path that
  takes all the time until then.
* **`Graph.schedule_isGreatest_path`** — the duration of an iteration.
-/

namespace Dataflow.Graph

variable {τ : Type} [Clock τ] [AddCommMonoid τ] {g d : Graph τ} {a i k : Nat} {t : τ}

/-- How long the actors on a path take one after another. -/
def pathDuration (d : Graph τ) (path : List Nat) : τ := (path.map d.duration).sum

lemma pathDuration_concat (d : Graph τ) (path : List Nat) (x : Nat) :
    d.pathDuration (path ++ [x]) = d.pathDuration path + d.duration x := by
  simp [pathDuration]

variable [LinearOrder τ] [IsOrderedAddMonoid τ]

/-- When a firing has ended, every path to its instance or to an earlier one has been followed. -/
theorem EndedBy.pathDuration_le (hd : g.Orders d) (h : g.EndedBy a k t) :
    ∀ i < k, ∀ path : List Nat, d.IsPath (path ++ [Expansion.firstInstance g a + i]) →
      d.pathDuration (path ++ [Expansion.firstInstance g a + i]) ≤ t := by
  induction h with
  | @intro a k start t pos le nonneg fed ends ih =>
    intro i hi path hpath
    have hin : i < g.repetitions a := Nat.lt_of_lt_of_le hi le
    rw [pathDuration_concat, (hd.isInstance hin).2]
    refine (add_le_add_left ?_ _).trans ends
    rcases List.eq_nil_or_concat path with rfl | ⟨before, x, rfl⟩
    · simpa [pathDuration] using nonneg
    · rw [List.concat_eq_append] at hpath ⊢
      obtain ⟨hbefore, hjoins⟩ := isPath_concat_concat.1 hpath
      obtain ⟨e, he, htarget, j, hj, rfl⟩ := hd.exists_sender hin hjoins
      have hneeded : j < e.demand k := Nat.lt_of_lt_of_le hj (Edge.demand_mono hi)
      exact ih e he htarget (Nat.zero_lt_of_lt hneeded) j hneeded before hbefore

variable [Clock.Exact τ]

/-- Critical firings, followed back from a firing, make up a path that ends with it and takes all
the time until its end. -/
theorem EndsAt.exists_path (hd : g.Orders d) (hsupplied : g.Supplied)
    (h : g.EndsAt a (i + 1) t) :
    ∃ path : List Nat, d.IsPath (path ++ [Expansion.firstInstance g a + i]) ∧
      d.pathDuration (path ++ [Expansion.firstInstance g a + i]) = t := by
  have hg := hd.wellFormed
  -- the induction is on some end of the firing, not on the earliest
  obtain ⟨u, hended⟩ : ∃ u, g.EndedBy a (i + 1) u := ⟨t, h.1⟩
  generalize hk : i + 1 = k at h hended
  induction hended generalizing i t with
  | @intro a k _ _ pos le nonneg fed ends ih =>
    subst hk
    obtain ⟨start, hstart⟩ := h.1.exists_startsAt hg
    obtain rfl := h.unique (hstart.endsAt pos le)
    obtain ⟨hsize, hduration⟩ := hd.isInstance le
    rcases hstart.exists_critical hg with ⟨_, rfl⟩ | ⟨e, ⟨he, rfl, hdemand⟩, hcritical⟩
    · refine ⟨[], isPath_singleton hsize, ?_⟩
      rw [pathDuration_concat, hduration]
      simp [pathDuration]
    · obtain ⟨j, hj⟩ := Nat.exists_eq_succ_of_ne_zero hdemand.ne'
      obtain ⟨_, hjoins⟩ := hd.joins_last hsupplied he le hj
      obtain ⟨path, hpath, hsum⟩ := ih e he rfl hdemand hj.symm hcritical
      refine ⟨path ++ [_], isPath_concat_concat.2 ⟨hpath, hjoins⟩, ?_⟩
      rw [pathDuration_concat, hsum, hduration]

/-! ## The duration of an iteration -/

omit [AddCommMonoid τ] [LinearOrder τ] [IsOrderedAddMonoid τ] [Clock.Exact τ] in
lemma supplied_of_completed (hg : g.WellFormed) {s : Simulation g}
    (hs : g.simulation.run = .finished s)
    (hall : ∀ a < g.actors.size, s.ledger.firings a = g.repetitions a) : g.Supplied := by
  intro e he
  obtain ⟨i, hi⟩ := Array.getElem?_of_mem he
  obtain ⟨hsource, htarget⟩ := g.closed e he
  have hq := Simulation.tokens_eq_of_run hg.consumption_pos hs hi
  rw [hall _ hsource, hall _ htarget, Nat.mul_comm e.consumption] at hq
  omega

/-- **The critical path.**  Suppose that a graph with actors completes its iteration.  No path
through the precedences inside the iteration visits an actor twice, and the greatest duration of
all paths is the duration of the iteration. -/
theorem schedule_isGreatest_path {o : Outcome τ} (hd : g.iterationPrecedences = .ok d)
    (ho : g.schedule = .ok o) (hlive : o.live = true) (hactors : 0 < g.actors.size) :
    (∀ path, d.IsPath path → path.Nodup) ∧
      IsGreatest {t | ∃ path, d.IsPath path ∧ d.pathDuration path = t} o.duration := by
  have hd := orders_of_iterationPrecedences hd
  obtain ⟨hg, s, hs, rfl⟩ := schedule_eq_ok.1 ho
  have hcompleted : s.phase = .completed := beq_iff_eq.1 hlive
  have hacyclic := hd.not_cyclic_of_completed hs hcompleted
  have hsound := Simulation.sound_run hg.consumption_pos hs
  have hall := (hsound.completed_iff (Simulation.run_isFinal hs)).1 hcompleted
  refine ⟨fun path hpath => hpath.nodup hacyclic, ?_, ?_⟩
  · rcases duration_isGreatest hg hs with ⟨hnone, _⟩ | ⟨⟨a, x, hx, hlast⟩, _⟩
    · -- the first actor has fired
      have hlength := length_spans hg hs (a := 0)
      rw [hnone 0, hall 0 hactors] at hlength
      exact absurd hlength (hg.repetitions_pos hactors).ne
    · obtain ⟨k, hk⟩ := mem_spans.1 hx
      have hends := firing?_endsAt hg hs hk
      obtain ⟨i, rfl⟩ := Nat.exists_eq_succ_of_ne_zero hends.1.pos.ne'
      obtain ⟨path, hpath, hsum⟩ := hends.exists_path hd (supplied_of_completed hg hs hall)
      exact ⟨_, hpath, hsum.trans hlast⟩
  · rintro t ⟨path, hpath, rfl⟩
    obtain ⟨before, x, rfl⟩ := (List.eq_nil_or_concat path).resolve_left hpath.ne_nil
    rw [List.concat_eq_append] at hpath ⊢
    obtain ⟨a, i, hi, rfl⟩ := hd.exists_instance (hpath.lt_size x (by simp))
    have hended : g.EndedBy a (i + 1) s.elapsed := by
      refine Simulation.endedBy_of_run hg hs (Nat.succ_pos i) ?_
      rwa [hall a (lt_size_of_lt_repetitions hi)]
    exact hended.pathDuration_le hd i (Nat.lt_succ_self i) before hpath

/-- The longest path through the precedences of the parallel pair takes as long as four of its five
firings. -/
theorem parallelPair_critical_path :
    ∃ (d : Graph ℚ) (o : Outcome ℚ), (parallelPair 4 4).iterationPrecedences = .ok d ∧
      (parallelPair 4 4).schedule = .ok o ∧ o.live = true ∧
      IsGreatest {t | ∃ path, d.IsPath path ∧ d.pathDuration path = t} 4 := by
  obtain ⟨d, hd, _⟩ := exists_of_any_ok (x := (parallelPair 4 4).iterationPrecedences)
    (p := fun _ => true) (by cbv)
  obtain ⟨o, ho, hlive⟩ := exists_of_any_ok (x := (parallelPair 4 4).schedule)
    (p := fun o => o.live && decide (o.duration = 4)) (by cbv)
  obtain ⟨hlive, hduration⟩ := Bool.and_eq_true_iff.1 hlive
  have hgreatest := (schedule_isGreatest_path hd ho hlive (by decide)).2
  rw [of_decide_eq_true hduration] at hgreatest
  exact ⟨d, o, hd, ho, hlive, hgreatest⟩

end Dataflow.Graph

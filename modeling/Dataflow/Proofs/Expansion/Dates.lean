import Dataflow.Evaluation
import Dataflow.Proofs.Expansion.Fifo
import Dataflow.Proofs.Expansion.Precedence
import Dataflow.Proofs.Simulation.Dates

/-!
# The dates of an expansion

Over an exact clock, a balanced graph and its expansions take the same time.  The instance of an
actor for its firing `i` can have ended by the dates by which firing `i + 1` of the actor can:
inside an iteration it waits for the instances whose tokens the firing takes, and for no others.
Edges of the expansion with a delay hold the tokens of earlier iterations, which are there from the
start.

* `Graph.Unfolds.endedBy_instance_iff` — the dates of an instance are those of its firing.
* `Graph.Unfolds.schedule_eq` — a graph that unfolds a balanced graph has the same outcome.
* **`Graph.schedule_expansions`** — the expansions of a graph have its outcome, and both methods of
  evaluation find it.
-/

namespace Dataflow

namespace Graph

/-! ## Instances and firings -/

section Instances

variable {τ : Type} {g h : Graph τ} {x a i : Nat}

variable [Clock τ] [AddCommMonoid τ] [LinearOrder τ]

/-- When a firing can have ended, so can its instance and those of earlier firings. -/
lemma Unfolds.endedBy_instance (hh : g.Unfolds h) (hg : g.WellFormed) {k : Nat} {t : τ}
    (ht : g.EndedBy a k t) :
    ∀ i < k, h.EndedBy (Expansion.firstInstance g a + i) 1 t := by
  induction ht with
  | @intro a k start t pos le nonneg fed ends ih =>
    intro i hi
    have hin : i < g.repetitions a := Nat.lt_of_lt_of_le hi le
    have hx := Expansion.isInstance_firstInstance hh.actors hin
    refine .intro Nat.one_pos hx.repetitions.ge nonneg (fun e' he' htarget hdemand => ?_)
      (hx.duration ▸ ends)
    obtain ⟨hdelay, hone⟩ := (hh.edges e' he').demand_one_pos hdemand
    obtain ⟨e, he, rfl, j, hj, hsource⟩ :=
      hh.exists_sender hg hin ⟨e', he', hdelay, rfl, htarget⟩
    have hneeded : j < e.demand k := Nat.lt_of_lt_of_le hj (Edge.demand_mono hi)
    rw [hone, hsource]
    exact ih e he rfl (Nat.zero_lt_of_lt hneeded) j hneeded

/-- When an instance can have ended, so can its firing. -/
lemma Unfolds.endedBy_firing (hh : g.Unfolds h) (hg : g.WellFormed) (hbalanced : g.Balanced)
    {k : Nat} {t : τ} (ht : h.EndedBy x k t) :
    ∀ a i, i < g.repetitions a → x = Expansion.firstInstance g a + i → g.EndedBy a (i + 1) t := by
  induction ht with
  | @intro x k start t pos le nonneg fed ends ih =>
    rintro a i hi rfl
    have hx := Expansion.isInstance_firstInstance hh.actors hi
    have hk : k = 1 := by
      rw [hx.repetitions] at le
      omega
    subst hk
    refine .intro (Nat.succ_pos i) hi nonneg (fun e he htarget hdemand => ?_) (hx.duration ▸ ends)
    subst htarget
    obtain ⟨j, hj⟩ := Nat.exists_eq_succ_of_ne_zero hdemand.ne'
    obtain ⟨hsender, e', he', hdelay, hsource, hends⟩ :=
      hh.precedes_last hg hbalanced.supplied he hi hj
    have hone := (hh.edges e' he').demand_one
    rw [if_pos hdelay] at hone
    rw [hj]
    exact ih e' he' hends (by omega) _ j hsender hsource

theorem Unfolds.endedBy_instance_iff (hh : g.Unfolds h) (hg : g.WellFormed)
    (hbalanced : g.Balanced) (hi : i < g.repetitions a) {t : τ} :
    h.EndedBy (Expansion.firstInstance g a + i) 1 t ↔ g.EndedBy a (i + 1) t :=
  ⟨fun ht => hh.endedBy_firing hg hbalanced ht a i hi rfl,
    fun ht => hh.endedBy_instance hg ht i (Nat.lt_succ_self i)⟩

lemma Unfolds.settles_iff (hh : g.Unfolds h) (hg : g.WellFormed) (hbalanced : g.Balanced) {t : τ} :
    h.Settles t ↔ g.Settles t := by
  refine and_congr_right fun _ => ⟨fun hs a k t' ht => ?_, fun hs x k t' ht => ?_⟩
  · obtain ⟨i, rfl⟩ : ∃ i, k = i + 1 := ⟨k - 1, by have := ht.pos; omega⟩
    have hiff := fun t => hh.endedBy_instance_iff hg hbalanced (t := t) ht.le_repetitions
    exact (hiff t).1 (hs _ 1 t' ((hiff t').2 ht))
  · obtain ⟨hpos, hle⟩ := And.intro ht.pos ht.le_repetitions
    have hsize : x < h.actors.size := lt_size_of_lt_repetitions (Nat.lt_of_lt_of_le hpos hle)
    obtain ⟨a, i, rfl, hx⟩ := Expansion.exists_isInstance hh.actors hsize
    obtain rfl : k = 1 := by
      rw [hx.repetitions] at hle
      omega
    have hiff := fun t => hh.endedBy_instance_iff hg hbalanced (t := t) hx.lt_repetitions
    exact (hiff t).2 (hs a (i + 1) t' ((hiff t').1 ht))

lemma Unfolds.finishes_iff (hh : g.Unfolds h) (hg : g.WellFormed) (hbalanced : g.Balanced) :
    h.Finishes ↔ g.Finishes := by
  refine exists_congr fun t => ⟨fun hall a ha => ?_, fun hall x hsize => ?_⟩
  · have hpos := hg.repetitions_pos ha
    have hlast : g.repetitions a - 1 < g.repetitions a := by omega
    have hx := Expansion.isInstance_firstInstance hh.actors hlast
    have hend := hall _ hx.lt_size
    rw [hx.repetitions, hh.endedBy_instance_iff hg hbalanced hlast] at hend
    rwa [Nat.sub_add_cancel hpos] at hend
  · obtain ⟨a, i, rfl, hx⟩ := Expansion.exists_isInstance hh.actors hsize
    rw [hx.repetitions, hh.endedBy_instance_iff hg hbalanced hx.lt_repetitions]
    exact (hall a hx.base_lt_size).mono (Nat.succ_pos i) hx.lt_repetitions le_rfl

end Instances

/-! ## Equal outcomes -/

section Outcomes

variable {τ : Type} [Clock τ] [AddCommMonoid τ] [LinearOrder τ] [IsOrderedAddMonoid τ]
  [Clock.Exact τ] {g h : Graph τ} {o o' : Outcome τ}

/-- A graph that unfolds a balanced graph has the same outcome. -/
theorem Unfolds.schedule_eq (hh : g.Unfolds h) (hbalanced : g.Balanced)
    (ho : g.schedule = .ok o) (ho' : h.schedule = .ok o') : o' = o := by
  have hg := (schedule_eq_ok.1 ho).1
  obtain ⟨hleast, hends, hcompleted⟩ := schedule_settles ho
  obtain ⟨hleast', hends', hcompleted'⟩ := schedule_settles ho'
  have hduration : o'.duration = o.duration := by
    refine IsLeast.unique ?_ hleast
    simpa only [hh.settles_iff hg hbalanced] using hleast'
  have hiff : o'.phase = .completed ↔ o.phase = .completed := by
    rw [hcompleted, hcompleted', hh.finishes_iff hg hbalanced]
  have hphase : o'.phase = o.phase := by
    rcases hends with hp | hp
    · rw [hp, hiff.2 hp]
    · rcases hends' with hp' | hp'
      · rw [hiff.1 hp'] at hp
        cases hp
      · rw [hp, hp']
  cases o
  cases o'
  exact congrArg₂ Outcome.mk hduration hphase

omit [AddCommMonoid τ] [LinearOrder τ] [IsOrderedAddMonoid τ] [Clock.Exact τ] in
/-- An evaluation has simulated what its method puts in place of the top graph. -/
lemma exists_simulated {d : Design τ} {settings : Settings τ} {ev : Evaluation τ}
    (htop : d.topGraph? = some g) (hev : d.evaluate settings = .ok ev) :
    ∃ h, settings.method.simulated g = .ok h ∧ h.schedule = .ok ev.outcome := by
  simp only [Design.evaluate, Design.evaluated, htop, bind_eq_ok, pure_eq_ok] at hev
  obtain ⟨_, ⟨_, _, rfl⟩, h, hsimulated, o, ho, rfl⟩ := hev
  exact ⟨h, hsimulated, ho⟩

/-- **Equal outcomes.**  The schedules of a balanced graph and of its three expansions have the same
outcome: the same phase at the end, also where the graph deadlocks half-way, and the same duration.
So both methods of evaluation report the same verdict, duration and throughput. -/
theorem schedule_expansions (hbalanced : g.Balanced) :
    (∀ {s h r : Graph τ} {o os oh or' : Outcome τ}, g.schedule = .ok o →
      g.expand .runs = .ok s → s.schedule = .ok os →
      g.expand .single = .ok h → h.schedule = .ok oh →
      g.reduced = .ok r → r.schedule = .ok or' → os = o ∧ oh = o ∧ or' = o) ∧
    ∀ {d : Design τ} {settings settings' : Settings τ} {ev ev' : Evaluation τ},
      d.topGraph? = some g → settings.method = .asSoonAsPossible → settings'.method = .singleRate →
      d.evaluate settings = .ok ev → d.evaluate settings' = .ok ev' →
        ev'.outcome.live = ev.outcome.live ∧ ev'.outcome.duration = ev.outcome.duration ∧
          ev'.outcome.throughput = ev.outcome.throughput := by
  constructor
  · intro s h r o os oh or' ho hs hos hh hoh hr hor
    have hruns := expanded_of_expand hs
    have hsingle := expanded_of_expand hh
    obtain rfl := Except.ok.inj ((reduced_eq_ok hs).symm.trans hr)
    exact ⟨hruns.unfolds.schedule_eq hbalanced ho hos, hsingle.unfolds.schedule_eq hbalanced ho hoh,
      (hruns.unfolds_homogeneousForm _).schedule_eq hbalanced ho hor⟩
  · intro d settings settings' ev ev' htop hmethod hmethod' hev hev'
    obtain ⟨g', hg', ho⟩ := exists_simulated htop hev
    obtain ⟨s, hs, hos⟩ := exists_simulated htop hev'
    rw [hmethod] at hg'
    rw [hmethod'] at hs
    obtain rfl := Except.ok.inj hg'
    have heq := (expanded_of_expand hs).unfolds.schedule_eq hbalanced ho hos
    exact ⟨congrArg Outcome.live heq, congrArg Outcome.duration heq,
      congrArg Outcome.throughput heq⟩

end Outcomes

/-- With one token on its way back the handshake deadlocks after one firing, its expansions deadlock
at the same date, and both methods of evaluation report so. -/
theorem handshake_outcomes :
    (handshake 1).Balanced ∧ ∃ o : Outcome ℚ, o.phase = .deadlocked ∧
      (handshake 1).schedule = .ok o ∧ ((handshake 1).expand .runs >>= schedule) = .ok o ∧
      ((handshake 1).expand .single >>= schedule) = .ok o ∧
      ((handshake 1).reduced >>= schedule) = .ok o ∧
      ∃ ev ev',
        (Design.ofGraph (handshake 1)).evaluate ⟨.asSoonAsPossible, 1, 1, 1, false⟩ = .ok ev ∧
        (Design.ofGraph (handshake 1)).evaluate ⟨.singleRate, 1, 1, 1, false⟩ = .ok ev' ∧
        ev'.outcome.throughput = ev.outcome.throughput := by
  obtain ⟨hequal, hmethods⟩ := schedule_expansions (balanced_handshake 1)
  obtain ⟨o, ho, hphase⟩ := exists_of_any_ok (x := (handshake 1).schedule)
    (p := fun o => o.phase == .deadlocked) (by cbv)
  obtain ⟨os, hos, _⟩ := exists_of_any_ok (x := (handshake 1).expand .runs >>= schedule)
    (p := fun _ => true) (by cbv)
  obtain ⟨oh, hoh, _⟩ := exists_of_any_ok (x := (handshake 1).expand .single >>= schedule)
    (p := fun _ => true) (by cbv)
  obtain ⟨or', hor, _⟩ := exists_of_any_ok (x := (handshake 1).reduced >>= schedule)
    (p := fun _ => true) (by cbv)
  obtain ⟨s, hs, hss⟩ := bind_eq_ok.1 hos
  obtain ⟨h, hh, hhs⟩ := bind_eq_ok.1 hoh
  obtain ⟨r, hr, hrs⟩ := bind_eq_ok.1 hor
  obtain ⟨rfl, rfl, rfl⟩ := hequal ho hs hss hh hhs hr hrs
  have hev : (Design.ofGraph (handshake 1)).evaluate ⟨.asSoonAsPossible, 1, 1, 1, false⟩ =
      .ok ⟨"handshake", .asSoonAsPossible, or'⟩ := by
    show ((handshake 1).schedule >>= _) = _
    rw [ho]
    rfl
  have hev' : (Design.ofGraph (handshake 1)).evaluate ⟨.singleRate, 1, 1, 1, false⟩ =
      .ok ⟨"handshake", .singleRate, or'⟩ := by
    show ((handshake 1).expand .runs >>= fun s => s.schedule >>= _) = _
    rw [hs]
    show (s.schedule >>= _) = _
    rw [hss]
    rfl
  exact ⟨balanced_handshake 1, or', by simpa using hphase, ho, hos, hoh, hor, _, _, hev, hev',
    (hmethods rfl rfl rfl hev hev').2.2⟩

end Graph

end Dataflow

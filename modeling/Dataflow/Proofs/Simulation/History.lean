import Dataflow.Proofs.Dates.Earliest
import Dataflow.Proofs.Simulation.Dates

/-!
# The history of a simulation

A simulation keeps only the last dates of every actor.  Its history tells the dates of all firings:
in a transition the count of an actor grows by the firings that it begins, and the ledger notes one
start and one end for all of them.

* `Simulation.transitions`, `Simulation.history` — the transitions that a run consists of.
* `Graph.spans`, `Graph.firing?` — the dates of the firings of an actor, in the order in which they
  begin; firings are counted from one.
* `Graph.batchDates` — the dates of the batches that end, one after another.
* **`Simulation.Leads.spans`** — the firings that a history lists occur at their earliest dates.
* **`Simulation.Leads.dates`** — and no batch ends before one that has ended.
-/

namespace Dataflow

/-- The dates of a firing. -/
structure Span (τ : Type) where
  start : τ
  finish : τ
  deriving DecidableEq, Repr

namespace Simulation

variable {τ : Type} {g : Graph τ} {s s' m : Simulation g}

section Definitions

variable [Clock τ]

/-- At most `steps` transitions, until the simulation ends or fails: the states before and after
each of them. -/
def transitions : Nat → Simulation g → List (Simulation g × Simulation g)
  | 0, _ => []
  | steps + 1, s =>
    if s.phase.isFinal then []
    else match s.step.outcome with
      | .ok s' => (s, s') :: transitions steps s'
      | .error _ => []

/-- The transitions of a run. -/
def history (s : Simulation g) : List (Simulation g × Simulation g) :=
  transitions (s.ledger.owed + s.agenda.length + 2) s

/-- The dates of the firings of an actor that begin between two states. -/
def begun (a : Nat) (s s' : Simulation g) : List (Span τ) :=
  List.replicate (s'.ledger.firings a - s.ledger.firings a)
    ⟨s'.ledger.startDate a, s'.ledger.finishDate a⟩

omit [Clock τ] in
/-- The date of the batch that the next transition ends. -/
def nextDate? (s : Simulation g) : Option τ :=
  if s.phase = .running then s.agenda.head?.map Batch.date else none

/-- The transitions in a list lead from one state to another. -/
inductive Leads : Simulation g → List (Simulation g × Simulation g) → Simulation g → Prop
  | nil (s : Simulation g) : Leads s [] s
  | cons {s m s' : Simulation g} {rest : List (Simulation g × Simulation g)}
      (step : s.step = .finished m) (leads : Leads m rest s') : Leads s ((s, m) :: rest) s'

lemma leads_transitions : ∀ {steps : Nat} {s : Simulation g}, runFor steps s = .finished s' →
    Leads s (transitions steps s) s'
  | 0, s, h => by
      obtain rfl := Attempt.finished_inj.1 h
      exact .nil s
  | steps + 1, s, h => by
      rw [runFor] at h
      rw [transitions]
      split at h
      · rename_i hfinal
        obtain rfl := Attempt.finished_inj.1 h
        rw [if_pos hfinal]
        exact .nil s
      · rename_i hfinal
        obtain ⟨m, hm, hrest⟩ := Attempt.andThen_eq_finished.1 h
        rw [if_neg hfinal, Attempt.outcome_eq_ok.2 hm]
        exact .cons hm (leads_transitions hrest)

lemma leads_history (h : s.run = .finished s') : Leads s s.history s' := leads_transitions h

lemma fires_elapsed {date : τ} {actors : List Nat} (hin : ∀ a ∈ actors, a < g.actors.size)
    (h : Attempt.each (fire date) actors s = .finished s') : s'.elapsed = s.elapsed := by
  refine Attempt.each_induction (P := fun m => m.elapsed = s.elapsed) h ?_ rfl
  intro a ha m m' hm hfire
  rcases fire_cases (hin a ha) hfire with ⟨_, rfl⟩ | ⟨_, hb⟩
  · exact hm
  · exact hb.elapsed.trans hm

end Definitions

variable [Clock τ] [AddCommMonoid τ] [LinearOrder τ]

/-- The dates are the earliest possible ones of firing number `k` of an actor. -/
structure Earliest (g : Graph τ) (a k : Nat) (x : Span τ) : Prop where
  le_repetitions : k ≤ g.repetitions a
  startsAt : g.StartsAt a k x.start
  finish_eq : x.finish = x.start + g.duration a

variable [IsOrderedAddMonoid τ] [Clock.Exact τ]

/-! ## One transition -/

section Step

variable {date : τ} {a : Nat}

omit [IsOrderedAddMonoid τ] [Clock.Exact τ] in
lemma Begins.earliest (h : Begins date a (s.ledger.enabled a) s s') (hg : g.WellFormed)
    (hs : s.DatedAt date) {k : Nat} (hlt : s.ledger.firings a < k)
    (hle : k ≤ s'.ledger.firings a) : Earliest g a k ⟨date, date + g.duration a⟩ := by
  rw [h.firings, if_pos rfl] at hle
  have howed := Ledger.enabled_le s.ledger a
  have hfirings := hs.firings_le a
  have hk : k ≤ g.repetitions a := by omega
  refine ⟨hk, ⟨⟨hs.elapsed_eq ▸ hs.elapsed_nonneg, hs.fed hg hle⟩, fun u hu => ?_⟩, rfl⟩
  by_contra hearlier
  have hbegun := hs.prompt a k u hu.1 (lt_of_not_ge hearlier) hk hu.2
  omega

/-- All firings that begin while the actors of a list fire at a date are noted with the dates that
are the earliest for them. -/
lemma fires_earliest {actors : List Nat} (hg : g.WellFormed)
    (hin : ∀ a ∈ actors, a < g.actors.size)
    (h : Attempt.each (fire date) actors s = .finished s') (hs : s.DatedAt date) (b : Nat) :
    s.ledger.firings b ≤ s'.ledger.firings b ∧
      ∀ k, s.ledger.firings b < k → k ≤ s'.ledger.firings b →
        Earliest g b k ⟨s'.ledger.startDate b, s'.ledger.finishDate b⟩ := by
  refine (Attempt.each_induction (P := fun m => m.DatedAt date ∧
    s.ledger.firings b ≤ m.ledger.firings b ∧
      ∀ k, s.ledger.firings b < k → k ≤ m.ledger.firings b →
        m.ledger.startDate b = date ∧ m.ledger.finishDate b = date + g.duration b ∧
          Earliest g b k ⟨date, date + g.duration b⟩) h ?_
    ⟨hs, Nat.le_refl _, fun k hlt hle => absurd hlt (Nat.not_lt.2 hle)⟩).2.imp id
    fun hall k hlt hle => ?_
  · intro a ha m m' ⟨hm, hmono, hall⟩ hfire
    rcases fire_cases (hin a ha) hfire with ⟨_, rfl⟩ | ⟨hpos, hb⟩
    · exact ⟨hm, hmono, hall⟩
    refine ⟨hb.datedAt hg hm hpos, ?_, fun k hlt hle => ?_⟩
    · rw [hb.firings]
      exact Nat.le_add_right_of_le hmono
    · rw [hb.starts, hb.finishes]
      by_cases hba : b = a
      · subst hba
        refine ⟨if_pos rfl, (if_pos rfl).trans (Clock.Exact.add_eq _ _), ?_⟩
        by_cases hbefore : k ≤ m.ledger.firings b
        · exact (hall k hlt hbefore).2.2
        · exact hb.earliest hg hm (Nat.lt_of_not_le hbefore) hle
      · rw [if_neg hba, if_neg hba]
        rw [hb.firings, if_neg hba] at hle
        exact hall k hlt hle
  · obtain ⟨hstart, hfinish, hearliest⟩ := hall k hlt hle
    rwa [hstart, hfinish]

/-- The firings that begin in a transition begin as early as they can. -/
theorem spans_step (hg : g.WellFormed) (hs : s.Timed) (h : s.step = .finished s') (b : Nat) :
    s.ledger.firings b ≤ s'.ledger.firings b ∧
      ∀ k, s.ledger.firings b < k → k ≤ s'.ledger.firings b →
        Earliest g b k ⟨s'.ledger.startDate b, s'.ledger.finishDate b⟩ := by
  cases step_cases h with
  | begins initial fires =>
    exact fires_earliest hg (fun a ha => List.mem_range.1 ha) fires (hs.datedAt initial) b
  | completes running agenda delivers fires =>
    have hm := delivers.datedAt agenda hg hs.sound hs.dated (by simp [running])
    have hfires := fires_earliest hg downstream_lt fires hm b
    rwa [delivers.firings] at hfires
  | finishes running agenda =>
    rw [firings_finish]
    exact ⟨Nat.le_refl _, fun k hlt hle => absurd hlt (Nat.not_lt.2 hle)⟩
  | rests final => exact ⟨Nat.le_refl _, fun k hlt hle => absurd hlt (Nat.not_lt.2 hle)⟩

lemma elapsed_step (hg : g.WellFormed) (hs : s.Timed) (h : s.step = .finished s') :
    s.elapsed ≤ s'.elapsed ∧ ∀ t, s.nextDate? = some t → s'.elapsed = t := by
  cases step_cases h with
  | begins initial fires =>
    refine ⟨(fires_elapsed (fun a ha => List.mem_range.1 ha) fires).ge, fun t ht => ?_⟩
    simp [nextDate?, initial] at ht
  | completes running agenda delivers fires =>
    have hm := delivers.datedAt agenda hg hs.sound hs.dated (by simp [running])
    have helapsed := (fires_elapsed downstream_lt fires).trans hm.elapsed_eq
    refine ⟨helapsed ▸ hs.dated.elapsed_le _ (agenda ▸ List.mem_cons_self), fun t ht => ?_⟩
    simp only [nextDate?, running, if_true, agenda, List.head?_cons, Option.map_some,
      Option.some.injEq] at ht
    rw [helapsed, ht]
  | finishes running agenda =>
    refine ⟨(elapsed_finish s).ge, fun t ht => ?_⟩
    simp [nextDate?, agenda] at ht
  | rests final =>
    refine ⟨le_rfl, fun t ht => ?_⟩
    simp [nextDate?, (ne_of_isFinal final).2] at ht

end Step

/-! ## All transitions -/

variable {l : List (Simulation g × Simulation g)}

/-- In a history the firings of an actor are listed in order, each with its earliest dates. -/
theorem Leads.spans (hl : Leads s l s') (hg : g.WellFormed) (b : Nat) : s.Timed →
    s.ledger.firings b + (l.flatMap fun p => begun b p.1 p.2).length = s'.ledger.firings b ∧
      ∀ i x, (l.flatMap fun p => begun b p.1 p.2)[i]? = some x →
        Earliest g b (s.ledger.firings b + i + 1) x := by
  induction hl with
  | nil s => simp
  | @cons s m s' rest hstep _ ih =>
    intro hs
    obtain ⟨hmono, hbegun⟩ := spans_step hg hs hstep b
    obtain ⟨hlength, hrest⟩ := ih (dated_step hg hs hstep)
    rw [List.flatMap_cons]
    refine ⟨?_, fun i x hx => ?_⟩
    · simp only [List.length_append, begun, List.length_replicate] at hlength ⊢
      omega
    · rw [List.getElem?_append] at hx
      simp only [begun, List.length_replicate] at hx
      split_ifs at hx with hi
      · rw [List.getElem?_replicate, if_pos hi, Option.some.injEq] at hx
        subst hx
        exact hbegun _ (by omega) (by omega)
      · have := hrest _ x hx
        rwa [show m.ledger.firings b + (i - (m.ledger.firings b - s.ledger.firings b)) =
          s.ledger.firings b + i by omega] at this

/-- In a history no batch ends before one that has ended. -/
theorem Leads.dates (hl : Leads s l s') (hg : g.WellFormed) : s.Timed →
    (l.filterMap fun p => p.1.nextDate?).Pairwise (· ≤ ·) ∧
      ∀ t ∈ l.filterMap fun p => p.1.nextDate?, s.elapsed ≤ t := by
  induction hl with
  | nil s => simp
  | @cons s m s' rest hstep _ ih =>
    intro hs
    obtain ⟨hmono, hnext⟩ := elapsed_step hg hs hstep
    obtain ⟨hsorted, hlater⟩ := ih (dated_step hg hs hstep)
    have hlater' : ∀ t ∈ rest.filterMap fun p => p.1.nextDate?, s.elapsed ≤ t :=
      fun t ht => hmono.trans (hlater t ht)
    cases hdate : s.nextDate? with
    | none =>
      simp only [List.filterMap_cons, hdate]
      exact ⟨hsorted, hlater'⟩
    | some t =>
      simp only [List.filterMap_cons, hdate]
      have ht := hnext t hdate
      refine ⟨List.pairwise_cons.2 ⟨fun t' ht' => ht ▸ hlater t' ht', hsorted⟩, ?_⟩
      exact List.forall_mem_cons.2 ⟨ht ▸ hmono, hlater'⟩

end Simulation

namespace Graph

variable {τ : Type} [Clock τ]

/-- The dates of the firings of an actor in the run of a graph. -/
def spans (g : Graph τ) (a : Nat) : List (Span τ) :=
  g.simulation.history.flatMap fun p => Simulation.begun a p.1 p.2

/-- The dates of firing number `k` of an actor, counted from one, if it occurs. -/
def firing? (g : Graph τ) (a k : Nat) : Option (Span τ) :=
  if k = 0 then none else (g.spans a)[k - 1]?

/-- The dates of the batches that end in the run of a graph, in their order. -/
def batchDates (g : Graph τ) : List τ := g.simulation.history.filterMap fun p => p.1.nextDate?

end Graph

end Dataflow

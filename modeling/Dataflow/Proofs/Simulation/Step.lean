import Dataflow.Proofs.Ledger.Effect
import Dataflow.Proofs.Simulation.Agenda
import Dataflow.Simulation

/-!
# The transitions of a simulation

Everything that a finished transition can do, said once.  A transition begins the first firings,
completes the earliest batch, ends the simulation or leaves a simulation that has ended
(`Simulation.Steps`); completing a batch delivers its tokens (`Simulation.Delivers`) and then
begins firings of the actors downstream (`Simulation.Begins`).

* `Simulation.fire_cases` — an actor begins all its enabled firings, if it has any.
* **`Simulation.step_cases`** — a finished transition is one of the four.
* `Simulation.runFor_induction` — what every transition keeps, a run keeps.
* **`Simulation.run_isFinal`** — a run that finishes has ended: the number of transitions that it
  is given suffices.
-/

namespace Dataflow

/-! ## Downstream actors -/

lemma mem_eraseReps {α : Type} [BEq α] [LawfulBEq α] {x : α} {l : List α} :
    x ∈ l.eraseReps ↔ x ∈ l := by
  have loop : ∀ (l : List α) (a : α) (found : List α),
      x ∈ List.eraseRepsBy.loop (· == ·) a l found ↔ x ∈ found ∨ x = a ∨ x ∈ l := by
    intro l
    induction l with
    | nil =>
      intro a found
      simp [List.eraseRepsBy.loop, or_comm]
    | cons b l ih =>
      intro a found
      rw [List.eraseRepsBy.loop]
      split
      · rename_i hab
        rw [ih, ← eq_of_beq hab, List.mem_cons]
        tauto
      · rw [ih, List.mem_cons, List.mem_cons]
        tauto
  cases l with
  | nil => rfl
  | cons a l =>
    rw [List.eraseReps, List.eraseRepsBy, loop]
    simp

lemma Ledger.mem_downstream {τ : Type} {g : Graph τ} {l : Ledger g} {sources : List Nat} {x : Nat} :
    x ∈ l.downstream sources ↔
      ∃ (i : Nat) (e : Edge), g.edges[i]? = some e ∧ e.source ∈ sources ∧ e.target = x := by
  simp only [downstream, Graph.targets, mem_eraseReps, List.mem_mergeSort, List.mem_filterMap,
    List.mem_flatMap, Ledger.outgoing_eq, Graph.mem_outgoing, Graph.target?, Option.map_eq_some_iff]
  constructor
  · rintro ⟨i, ⟨a, ha, e, he, rfl⟩, e', he', rfl⟩
    obtain rfl : e = e' := Option.some.inj (he.symm.trans he')
    exact ⟨i, e, he, ha, rfl⟩
  · rintro ⟨i, e, he, ha, rfl⟩
    exact ⟨i, ⟨_, ha, e, he, rfl⟩, e, he, rfl⟩

namespace Simulation

variable {τ : Type} {g : Graph τ} {s s' : Simulation g}

/-! ## The parts of a transition -/

lemma onLedger_eq_finished {f : Ledger g → Attempt τ (Ledger g)} :
    onLedger f s = .finished s' ↔ ∃ ledger, f s.ledger = .finished ledger ∧
      (⟨ledger, s.agenda, s.elapsed, s.phase⟩ : Simulation g) = s' := by
  rw [onLedger]
  exact Attempt.map_eq_finished

section Parts

variable [Clock τ]

/-- `n` firings of an actor begin at a date. -/
structure Begins (date : τ) (a n : Nat) (s s' : Simulation g) : Prop where
  tokens : ∀ i e, g.edges[i]? = some e →
    s'.ledger.tokens i + (if e.target = a then n * e.consumption else 0) = s.ledger.tokens i
  firings : ∀ b, s'.ledger.firings b = s.ledger.firings b + if b = a then n else 0
  starts : ∀ b, s'.ledger.startDate b = if b = a then date else s.ledger.startDate b
  finishes : ∀ b, s'.ledger.finishDate b =
    if b = a then Clock.add date (g.duration a) else s.ledger.finishDate b
  agenda : Agenda.enter (Clock.add date (g.duration a)) a n s.agenda = .ok s'.agenda
  elapsed : s'.elapsed = s.elapsed
  phase : s'.phase = s.phase

/-- An actor begins all firings that are enabled, if there are any. -/
theorem fire_cases {date : τ} {a : Nat} (ha : a < g.actors.size)
    (h : fire date a s = .finished s') :
    (s.ledger.enabled a = 0 ∧ s' = s) ∨
      (0 < s.ledger.enabled a ∧ Begins date a (s.ledger.enabled a) s s') := by
  rw [fire] at h
  split at h
  case h_1 hz =>
    rw [Attempt.finished_inj] at h
    exact Or.inl ⟨hz, h.symm⟩
  case h_2 n hn =>
    obtain ⟨m, hm, hl⟩ := Attempt.andThen_eq_finished.1 h
    obtain ⟨ledger, hc, rfl⟩ := onLedger_eq_finished.1 hm
    rw [launch] at hl
    split at hl
    case h_2 => simp at hl
    case h_1 agenda he =>
      rw [Attempt.finished_inj] at hl
      subst hl
      rw [hn]
      obtain ⟨hstarts, hfinishes⟩ := Ledger.dates_consume hc
      exact Or.inr ⟨Nat.succ_pos n,
        { tokens := fun i e hi => Ledger.tokens_consume hc hi
          firings := fun b => Ledger.firings_consume hc ha b
          starts := fun b => by
            rw [Ledger.startDate_setFinish, Ledger.startDate_setStart _ ha, Ledger.startDate,
              hstarts, Ledger.startDate]
          finishes := fun b => by
            rw [Ledger.finishDate_setFinish _ ha, Ledger.finishDate_setStart, Ledger.finishDate,
              hfinishes, Ledger.finishDate]
          agenda := he
          elapsed := rfl
          phase := rfl }⟩

end Parts

/-- The tokens of some firings that end are delivered. -/
structure Delivers (firings : List (Nat × Nat)) (s s' : Simulation g) : Prop where
  tokens : ∀ i e, g.edges[i]? = some e →
    s'.ledger.tokens i = s.ledger.tokens i + e.production * Batch.tally firings e.source
  firings : ∀ b, s'.ledger.firings b = s.ledger.firings b
  agenda : s'.agenda = s.agenda
  elapsed : s'.elapsed = s.elapsed
  phase : s'.phase = s.phase

lemma delivers_each : ∀ {firings : List (Nat × Nat)} {s : Simulation g},
    Attempt.each deliver firings s = .finished s' → Delivers firings s s'
  | [], s, h => by
      rw [Attempt.each, Attempt.finished_inj] at h
      subst h
      exact ⟨by simp, fun _ => rfl, rfl, rfl, rfl⟩
  | (a, n) :: rest, s, h => by
      obtain ⟨m, hm, hrest⟩ := Attempt.andThen_eq_finished.1 h
      obtain ⟨ledger, hp, rfl⟩ := onLedger_eq_finished.1 hm
      have ih := delivers_each hrest
      refine ⟨fun i e he => ?_, fun b => ?_, ih.agenda, ih.elapsed, ih.phase⟩
      · rw [ih.tokens i e he, Ledger.tokens_produce hp he, Batch.tally_cons, Nat.mul_add]
        by_cases ha : e.source = a
        · simp only [if_pos ha, Nat.mul_comm n, Nat.add_assoc]
        · simp [ha]
      · exact (ih.firings b).trans (Ledger.firings_produce hp b)

lemma finish_eq (s : Simulation g) : finish s =
    if s.ledger.isComplete then ⟨s.ledger, s.agenda, s.elapsed, .completed⟩
    else ⟨s.ledger.note (.deadlocked g.name s.elapsed
      (s.ledger.pending.map fun a => (g.actorName a, s.ledger.firings a, g.repetitions a))),
      s.agenda, s.elapsed, .deadlocked⟩ := rfl

@[simp] lemma tokens_finish (s : Simulation g) (i : Nat) :
    (finish s).ledger.tokens i = s.ledger.tokens i := by
  rw [finish_eq]
  split <;> rfl

@[simp] lemma firings_finish (s : Simulation g) (a : Nat) :
    (finish s).ledger.firings a = s.ledger.firings a := by
  rw [finish_eq]
  split <;> rfl

@[simp] lemma agenda_finish (s : Simulation g) : (finish s).agenda = s.agenda := by
  rw [finish_eq]
  split <;> rfl

@[simp] lemma elapsed_finish (s : Simulation g) : (finish s).elapsed = s.elapsed := by
  rw [finish_eq]
  split <;> rfl

lemma phase_finish (s : Simulation g) :
    (finish s).phase = if s.ledger.isComplete then .completed else .deadlocked := by
  rw [finish_eq]
  split <;> rfl

/-! ## Transitions -/

section Transitions

variable [Clock τ]

/-- The simulation whose earliest batch is about to end: the batch has left the agenda, but no token
is delivered. -/
def ending (s : Simulation g) (batch : Batch τ) (rest : Agenda τ) : Simulation g :=
  ⟨s.ledger.note (.completing batch.date
    (batch.firings.reverse.map fun (a, n) => (g.actorName a, n))),
    rest, Clock.latest s.elapsed batch.date, .running⟩

/-- While there are batches, a transition delivers the tokens of the earliest and then begins firings
of the actors downstream of it. -/
lemma step_of_agenda {batch : Batch τ} {rest : Agenda τ} (hp : s.phase = .running)
    (ha : s.agenda = batch :: rest) :
    s.step = (Attempt.each deliver batch.firings.reverse (s.ending batch rest)).andThen
      (Attempt.each (fire batch.date)
        (s.ledger.downstream (batch.firings.reverse.map Prod.fst))) := by
  obtain ⟨ledger, agenda, elapsed, phase⟩ := s
  subst hp ha
  rfl

lemma delivers_ending {batch : Batch τ} {rest : Agenda τ}
    (h : Attempt.each deliver batch.firings.reverse (s.ending batch rest) = .finished s') :
    Delivers batch.firings ⟨s.ledger, rest, Clock.latest s.elapsed batch.date, .running⟩ s' := by
  have hd := delivers_each h
  refine ⟨fun i e he => ?_, hd.firings, hd.agenda, hd.elapsed, hd.phase⟩
  rw [hd.tokens i e he, Batch.tally_reverse]
  rfl

/-- The ways in which a transition finishes. -/
inductive Steps (s : Simulation g) : Simulation g → Prop
  /-- The firings that are enabled at the start begin. -/
  | begins {m : Simulation g} (initial : s.phase = .initial)
      (fires : Attempt.each (fire Clock.zero) (List.range g.actors.size) s = .finished m) :
      Steps s (m.inPhase .running)
  /-- The earliest batch ends, and the actors downstream of it begin firings. -/
  | completes {m s' : Simulation g} {batch : Batch τ} {rest : Agenda τ}
      (running : s.phase = .running) (agenda : s.agenda = batch :: rest)
      (delivers : Delivers batch.firings
        ⟨s.ledger, rest, Clock.latest s.elapsed batch.date, .running⟩ m)
      (fires : Attempt.each (fire batch.date)
        (s.ledger.downstream (batch.firings.reverse.map Prod.fst)) m = .finished s') : Steps s s'
  /-- Nothing is in flight, and the simulation ends. -/
  | finishes (running : s.phase = .running) (agenda : s.agenda = []) :
      Steps s (finish s)
  /-- The simulation has ended before. -/
  | rests (final : s.phase.isFinal = true) : Steps s s

/-- A finished transition is one of the four. -/
theorem step_cases (h : s.step = .finished s') : Steps s s' := by
  obtain ⟨ledger, agenda, elapsed, phase⟩ := s
  cases phase with
  | initial =>
    unfold step begin at h
    obtain ⟨m, hm, h⟩ := Attempt.andThen_eq_finished.1 h
    rw [Attempt.finished_inj] at h
    subst h
    exact .begins rfl hm
  | running =>
    cases agenda with
    | nil =>
      obtain rfl := Attempt.finished_inj.1 h
      exact .finishes rfl rfl
    | cons batch rest =>
      rw [step_of_agenda rfl rfl] at h
      obtain ⟨m, hm, hfires⟩ := Attempt.andThen_eq_finished.1 h
      exact .completes rfl rfl (delivers_ending hm) hfires
  | completed =>
    obtain rfl := Attempt.finished_inj.1 h
    exact .rests rfl
  | deadlocked =>
    obtain rfl := Attempt.finished_inj.1 h
    exact .rests rfl

/-! ## Runs -/

/-- What every finished transition keeps, a finished run keeps. -/
theorem runFor_induction {P : Simulation g → Prop}
    (hstep : ∀ s s', P s → s.step = .finished s' → P s') :
    ∀ {steps : Nat} {s s' : Simulation g}, runFor steps s = .finished s' → P s → P s'
  | 0, s, s', h, hs => by
      obtain rfl := Attempt.finished_inj.1 h
      exact hs
  | steps + 1, s, s', h, hs => by
      rw [runFor] at h
      split at h
      · obtain rfl := Attempt.finished_inj.1 h
        exact hs
      · obtain ⟨m, hm, hrest⟩ := Attempt.andThen_eq_finished.1 h
        exact runFor_induction hstep hrest (hstep s m hs hm)

/-- The transitions that may be left: every firing that is owed may open a batch, every batch takes
one transition, and so do the first and the last one. -/
def remaining (s : Simulation g) : Nat :=
  s.ledger.owed + s.agenda.length +
    match s.phase with
    | .initial => 2
    | .running => 1
    | .completed | .deadlocked => 0

lemma sum_map_range_add {f f' : Nat → Nat} {a n : Nat} : ∀ {N : Nat}, a < N →
    f' a + n = f a → (∀ b, b ≠ a → f' b = f b) →
      ((List.range N).map f').sum + n = ((List.range N).map f).sum
  | 0, ha, _, _ => absurd ha (Nat.not_lt_zero a)
  | N + 1, ha, hn, hf => by
      simp only [List.range_succ, List.map_append, List.map_cons, List.map_nil,
        List.sum_append, List.sum_cons, List.sum_nil, Nat.add_zero]
      rcases Nat.lt_or_eq_of_le (Nat.le_of_lt_succ ha) with haN | rfl
      · rw [hf N (Nat.ne_of_gt haN), ← sum_map_range_add haN hn hf]
        omega
      · have : (List.range a).map f' = (List.range a).map f :=
          List.map_congr_left fun b hb => hf b (Nat.ne_of_lt (List.mem_range.1 hb))
        rw [this]
        omega

/-- Firings that begin are no longer owed. -/
lemma Begins.owed {date : τ} {a n : Nat} (h : Begins date a n s s') (ha : a < g.actors.size)
    (hn : n ≤ g.repetitions a - s.ledger.firings a) :
    s'.ledger.owed + n = s.ledger.owed := by
  rw [Ledger.owed_eq_sum, Ledger.owed_eq_sum]
  refine sum_map_range_add ha ?_ fun b hb => ?_
  · have := h.firings a
    rw [if_pos rfl] at this
    omega
  · have := h.firings b
    rw [if_neg hb] at this
    omega

/-- Beginning firings opens no more batches than it takes from what is owed. -/
lemma remaining_fires {date : τ} {actors : List Nat} (hin : ∀ a ∈ actors, a < g.actors.size)
    (h : Attempt.each (fire date) actors s = .finished s') :
    s'.ledger.owed + s'.agenda.length ≤ s.ledger.owed + s.agenda.length ∧ s'.phase = s.phase := by
  refine Attempt.each_induction (P := fun m => m.ledger.owed + m.agenda.length ≤
    s.ledger.owed + s.agenda.length ∧ m.phase = s.phase) h ?_ ⟨Nat.le_refl _, rfl⟩
  intro a ha m m' hm hfire
  rcases fire_cases (hin a ha) hfire with ⟨_, rfl⟩ | ⟨hpos, hb⟩
  · exact hm
  · have howed := hb.owed (hin a ha) (Ledger.enabled_le m.ledger a)
    have hlen := Agenda.length_enter_le hb.agenda
    exact ⟨by omega, hb.phase.trans hm.2⟩

omit [Clock τ] in
lemma downstream_lt {l : Ledger g} {sources : List Nat} :
    ∀ a ∈ l.downstream sources, a < g.actors.size := by
  intro a ha
  obtain ⟨i, e, he, _, rfl⟩ := Ledger.mem_downstream.1 ha
  exact (g.closed e (Array.mem_of_getElem? he)).2

/-- A transition of a simulation that has not ended uses up one of those that may be left. -/
theorem remaining_step (h : s.step = .finished s') (hs : s.phase.isFinal = false) :
    s'.remaining < s.remaining := by
  cases step_cases h with
  | begins initial fires =>
    have := remaining_fires (fun a ha => List.mem_range.1 ha) fires
    simp only [remaining, inPhase, initial]
    omega
  | completes running agenda delivers fires =>
    rename_i m batch rest
    obtain ⟨hle, hphase⟩ := remaining_fires downstream_lt fires
    have howed : m.ledger.owed = s.ledger.owed := by
      simp only [Ledger.owed, delivers.firings]
    have hrest : m.agenda = rest := delivers.agenda
    have hm : m.phase = .running := delivers.phase
    rw [howed, hrest] at hle
    simp only [remaining, running, agenda, hphase, hm, List.length_cons]
    omega
  | finishes running agenda =>
    have : (finish s).ledger.owed = s.ledger.owed := by simp [Ledger.owed]
    simp only [remaining, this, agenda_finish, phase_finish, running]
    cases s.ledger.isComplete <;> simp
  | rests final => simp [final] at hs

/-- A finished run has ended if it was given the transitions that may have been left. -/
theorem runFor_isFinal : ∀ {steps : Nat} {s : Simulation g}, runFor steps s = .finished s' →
    s.remaining ≤ steps → s'.phase.isFinal = true
  | 0, s, h, hr => by
      obtain rfl := Attempt.finished_inj.1 h
      cases hp : s.phase <;> simp_all [remaining, Phase.isFinal]
  | steps + 1, s, h, hr => by
      rw [runFor] at h
      split at h
      · obtain rfl := Attempt.finished_inj.1 h
        assumption
      · rename_i hs
        obtain ⟨m, hm, hrest⟩ := Attempt.andThen_eq_finished.1 h
        have := remaining_step hm (by simpa using hs)
        exact runFor_isFinal hrest (by omega)

/-- A run that finishes has ended. -/
theorem run_isFinal (h : s.run = .finished s') : s'.phase.isFinal = true := by
  refine runFor_isFinal h ?_
  rw [remaining]
  cases s.phase <;> simp

end Transitions

end Simulation

/-- The outcome of a graph is that of its run. -/
lemma Graph.schedule_eq_ok {τ : Type} [Clock τ] {g : Graph τ} {o : Outcome τ} :
    g.schedule = .ok o ↔
      g.WellFormed ∧ ∃ s, g.simulation.run = .finished s ∧ s.outcome = o := by
  rw [schedule, check_bind_eq_ok, validate_eq_ok_iff]
  simp only [bind_eq_ok, pure_eq_ok, Attempt.outcome_eq_ok]

end Dataflow

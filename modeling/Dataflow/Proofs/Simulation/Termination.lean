import Dataflow.Proofs.Ledger.History
import Dataflow.Proofs.Ledger.Withdrawal
import Dataflow.Proofs.Simulation.Visited

/-!
# Every run ends

Time need not advance: durations may be zero, negative or no numbers at all, and graphs may contain
circuits.  What a transition uses up is a firing that is owed or a batch of the agenda.

* `Simulation.Loop` — transitions are taken, and counted, until the simulation has ended or one is
  refused.
* `Simulation.Overflows` — the only way to be refused: a batch ends, and an edge that leaves one of
  its actors cannot take the tokens.
* `Simulation.step_stopped` — in a state that is visited, neither the first firings nor the tokens
  that firings take nor the count of firings in flight can be at fault.
* **`Simulation.run_ends`** — the number of transitions of a run, how it ends, and when it cannot be
  refused.
-/

namespace Dataflow

namespace Ledger

variable {τ : Type} {g : Graph τ}

/-- A production leaves counters, also one that is refused. -/
lemma InRange.state_produce {l : Ledger g} (hl : l.InRange) (a n : Nat) :
    (produce a n l).state.InRange where
  tokens_lt i := by
    rw [tokens_state_produce]
    split
    case isTrue hwritten => exact (accepts_iff.1 (List.mem_takeWhile_imp hwritten)).2
    case isFalse => exact hl.tokens_lt i
  firings_lt b := by
    rw [firings_state_produce]
    exact hl.firings_lt b

variable [Clock τ]

/-- Before the first firing every actor owes all firings of the iteration. -/
lemma owed_ledger (g : Graph τ) :
    g.ledger.owed = (g.actors.toList.map Actor.repetitions).sum := by
  rw [owed_eq_sum]
  congr 1
  refine List.ext_getElem (by simp) fun a _ ha => ?_
  have ha : a < g.actors.size := by simpa using ha
  simp [firings_ledger, Graph.repetitions, ha]

end Ledger

namespace Simulation

variable {τ : Type} {g : Graph τ} {s s' : Simulation g}

/-! ## The numbers of a visited state -/

lemma delivers_inRange {firings : List (Nat × Nat)}
    (h : Attempt.each deliver firings s = .finished s') (hs : s.ledger.InRange) :
    s'.ledger.InRange := by
  refine Attempt.each_induction (P := fun m => m.ledger.InRange) h ?_ hs
  rintro ⟨a, n⟩ _ m m' hm hdeliver
  obtain ⟨ledger, hproduce, rfl⟩ := onLedger_eq_finished.1 hdeliver
  obtain rfl : (Ledger.produce a n m.ledger).state = ledger := congrArg Attempt.state hproduce
  exact hm.state_produce a n

variable [Clock τ]

lemma Begins.inRange {date : τ} {a n : Nat} (hg : g.InRange) (h : Begins date a n s s')
    (hn : n ≤ g.repetitions a - s.ledger.firings a) (hs : s.ledger.InRange) :
    s'.ledger.InRange where
  tokens_lt i := by
    have hi := hs.tokens_lt i
    cases he : g.edges[i]? with
    | none =>
      have hsize := Array.getElem?_eq_none_iff.1 he
      rwa [Ledger.tokens_of_size_le hsize] at hi ⊢
    | some e => exact Nat.lt_of_le_of_lt (Nat.le_of_add_right_le (h.tokens i e he).le) hi
  firings_lt b := by
    have hb := hs.firings_lt b
    rw [h.firings b]
    split
    case isTrue hba =>
      subst hba
      have := hg.repetitions_lt_bound b
      omega
    case isFalse => exact hb

lemma fire_inRange {date : τ} {a : Nat} (hg : g.InRange) (ha : a < g.actors.size)
    (h : fire date a s = .finished s') (hs : s.ledger.InRange) : s'.ledger.InRange := by
  rcases fire_cases ha h with ⟨_, rfl⟩ | ⟨_, hb⟩
  · exact hs
  · exact hb.inRange hg (Ledger.enabled_le s.ledger a) hs

lemma fires_inRange {date : τ} {actors : List Nat} (hg : g.InRange)
    (hin : ∀ a ∈ actors, a < g.actors.size)
    (h : Attempt.each (fire date) actors s = .finished s') (hs : s.ledger.InRange) :
    s'.ledger.InRange :=
  Attempt.each_induction (P := fun m => m.ledger.InRange) h
    (fun a ha _ _ hm hfire => fire_inRange hg (hin a ha) hfire hm) hs

/-- A transition leaves counters. -/
lemma step_inRange (hg : g.InRange) (h : s.step = .finished s') (hs : s.ledger.InRange) :
    s'.ledger.InRange := by
  cases step_cases h with
  | begins initial fires =>
    have hm := fires_inRange hg (fun a ha => List.mem_range.1 ha) fires hs
    exact hm
  | completes running agenda =>
    rw [step_of_agenda running agenda] at h
    obtain ⟨m, hdelivers, hfires⟩ := Attempt.andThen_eq_finished.1 h
    exact fires_inRange hg downstream_lt hfires (delivers_inRange hdelivers (hs.note _))
  | finishes => exact ⟨by simpa using hs.tokens_lt, by simpa using hs.firings_lt⟩
  | rests => exact hs

theorem Visited.inRange (hg : g.InRange) (h : Visited s) : s.ledger.InRange := by
  induction h with
  | start => exact Ledger.inRange_ledger hg
  | step _ hstep ih => exact step_inRange hg (Attempt.outcome_eq_ok.1 hstep) ih

/-! ## What cannot be refused -/

/-- Enabled firings can begin: their tokens are there, and they are no more than the actor owes, so
that they can be counted with those in flight. -/
lemma exists_fire (hg : g.InRange) (hc : ∀ e ∈ g.edges, 0 < e.consumption) (hs : s.Consistent)
    (hl : s.ledger.InRange) (date : τ) (a : Nat) :
    ∃ s', fire date a s = .finished s' := by
  rw [fire]
  split
  case h_1 => exact ⟨s, rfl⟩
  case h_2 n hn =>
    obtain ⟨ledger, hledger⟩ :=
      Ledger.exists_consume_of_le_enabled hg hl hc (Nat.le_of_eq hn.symm)
    have hflight : Agenda.inFlight s.agenda a + (n + 1) < Counter.bound := by
      have := hs.inFlight_le a
      have := Ledger.enabled_le s.ledger a
      have := hg.repetitions_lt_bound a
      omega
    obtain ⟨agenda, hagenda⟩ :
        ∃ agenda, Agenda.enter (Clock.add date (g.duration a)) a (n + 1) s.agenda = .ok agenda :=
      Agenda.exists_enter hflight
    have hbegins : onLedger (Ledger.consume a (n + 1)) s =
        .finished ⟨ledger, s.agenda, s.elapsed, s.phase⟩ :=
      onLedger_eq_finished.2 ⟨ledger, hledger, rfl⟩
    rw [hbegins]
    simp only [Attempt.andThen, Attempt.finished, launch, hagenda]
    exact ⟨_, rfl⟩

lemma exists_fires (hg : g.InRange) (hc : ∀ e ∈ g.edges, 0 < e.consumption) {actors : List Nat}
    (hin : ∀ a ∈ actors, a < g.actors.size) (hs : s.Consistent) (hl : s.ledger.InRange) (date : τ) :
    ∃ s', Attempt.each (fire date) actors s = .finished s' := by
  refine Attempt.exists_each (P := fun m => m.Consistent ∧ m.ledger.InRange) ?_ ⟨hs, hl⟩
  rintro a ha m ⟨hm, hml⟩
  obtain ⟨m', hm'⟩ := exists_fire hg hc hm hml date a
  exact ⟨m', hm', (fire_consistent (hin a ha) hm' hm).1, fire_inRange hg (hin a ha) hm' hml⟩

omit [Clock τ] in
/-- A batch can end if every edge has room for all of its tokens. -/
lemma exists_delivers : ∀ {firings : List (Nat × Nat)} {s : Simulation g},
    (∀ i e, g.edges[i]? = some e →
      s.ledger.tokens i + e.production * Batch.tally firings e.source < Counter.bound) →
      ∃ s', Attempt.each deliver firings s = .finished s'
  | [], s, _ => ⟨s, rfl⟩
  | (a, n) :: rest, s, h => by
      -- the tokens of the first entry are among those that there is room for
      have hroom : ∀ i e, g.edges[i]? = some e → s.ledger.tokens i +
          (if e.source = a then n * e.production else 0) +
            e.production * Batch.tally rest e.source < Counter.bound := by
        intro i e he
        have := h i e he
        rw [Batch.tally_cons, Nat.mul_add, ← Nat.add_assoc] at this
        by_cases ha : e.source = a
        · rw [if_pos ha] at this ⊢
          rwa [Nat.mul_comm n]
        · rwa [if_neg ha] at this ⊢
      have haccepts : ∀ i ∈ g.outgoing a, s.ledger.accepts n i = true := by
        intro i hi
        obtain ⟨e, he, hsource⟩ := Graph.mem_outgoing.1 hi
        have hfits := hroom i e he
        rw [if_pos hsource] at hfits
        rw [Ledger.accepts_iff, show g.production i = e.production by simp [Graph.production, he]]
        omega
      obtain ⟨ledger, hproduce⟩ := Ledger.exists_produce_of_accepts haccepts
      obtain ⟨s', hrest⟩ : ∃ s', Attempt.each deliver rest
          (⟨ledger, s.agenda, s.elapsed, s.phase⟩ : Simulation g) = .finished s' :=
        exists_delivers fun i e he => by
          rw [Ledger.tokens_produce hproduce he]
          exact hroom i e he
      exact ⟨s', Attempt.andThen_eq_finished.2
        ⟨_, onLedger_eq_finished.2 ⟨ledger, hproduce, rfl⟩, hrest⟩⟩

/-! ## What can be refused -/

/-- The transition of a running simulation is refused while the tokens of the earliest batch are
delivered: an edge that leaves one of the actors of the batch cannot take its tokens. -/
inductive Overflows (s s' : Simulation g) (failure : Failure τ) : Prop
  | delivering {batch : Batch τ} {rest : Agenda τ} {entry : Nat × Nat} {e : Nat}
      {error : RangeError} (running : s.phase = .running) (agenda : s.agenda = batch :: rest)
      (delivers : Attempt.each deliver batch.firings.reverse (s.ending batch rest) =
        .stopped s' failure)
      (entry_mem : entry ∈ batch.firings) (outgoing : e ∈ g.outgoing entry.1)
      (refused : s'.ledger.deposit entry.2 e = .error error)
      (range : failure = .range error)

lemma overflows_of_delivers {failure : Failure τ} {batch : Batch τ} {rest : Agenda τ}
    (hp : s.phase = .running) (ha : s.agenda = batch :: rest)
    (h : Attempt.each deliver batch.firings.reverse (s.ending batch rest) = .stopped s' failure) :
    Overflows s s' failure := by
  obtain ⟨⟨a, n⟩, hentry, m, hm⟩ := Attempt.each_eq_stopped h
  obtain ⟨ledger, hproduce, rfl⟩ : ∃ ledger, Ledger.produce a n m.ledger = .stopped ledger failure ∧
      (⟨ledger, m.agenda, m.elapsed, m.phase⟩ : Simulation g) = s' := by
    rw [deliver, onLedger, Attempt.map, Attempt.stopped, Attempt.mk.injEq] at hm
    exact ⟨_, congrArg (Attempt.mk _) hm.2, hm.1⟩
  obtain ⟨e, he, error, hrefused, hrange⟩ := Ledger.exists_error_of_produce_stopped hproduce
  exact .delivering hp ha h (List.mem_reverse.1 hentry) he hrefused hrange

/-- The only thing that refuses a transition of a visited state is an edge that cannot take tokens
that are delivered. -/
theorem step_stopped (hg : g.InRange) (hc : ∀ e ∈ g.edges, 0 < e.consumption) (hs : Visited s)
    {failure : Failure τ} (h : s.step = .stopped s' failure) : Overflows s s' failure := by
  have hconsistent := (hs.sound hc).consistent
  have hrange := hs.inRange hg
  obtain ⟨ledger, agenda, elapsed, phase⟩ := s
  cases phase with
  | initial =>
    obtain ⟨m, hm⟩ :=
      exists_fires hg hc (fun a ha => List.mem_range.1 ha) hconsistent hrange Clock.zero
    rw [step, begin, hm] at h
    cases h
  | running =>
    cases agenda with
    | nil => cases h
    | cons batch rest =>
      rw [step_of_agenda rfl rfl] at h
      rcases Attempt.andThen_eq_stopped.1 h with hdelivers | ⟨m, hm, hfires⟩
      · exact overflows_of_delivers rfl rfl hdelivers
      · -- once the tokens are delivered, the firings downstream begin
        have hdelivered := ((delivers_ending hm).consistent rfl hconsistent).1
        obtain ⟨m', hm'⟩ := exists_fires hg hc downstream_lt hdelivered
          (delivers_inRange hm (hrange.note _)) batch.date
        rw [hm'] at hfires
        cases hfires
  | completed => cases h
  | deadlocked => cases h

/-- No transition of a visited state is refused if every edge has room for its delay and all tokens
of an iteration. -/
theorem exists_step (hg : g.InRange) (hc : ∀ e ∈ g.edges, 0 < e.consumption)
    (hroom : ∀ e ∈ g.edges, e.delay + e.production * g.repetitions e.source < Counter.bound)
    (hs : Visited s) : ∃ s', s.step = .finished s' := by
  rcases Attempt.finished_or_stopped s.step with hstep | ⟨s', failure, hstep⟩
  · exact hstep
  · cases step_stopped hg hc hs hstep with
    | @delivering batch rest _ _ _ running agenda delivers =>
      have hconsistent := (hs.sound hc).consistent
      have hfits : ∀ i e, g.edges[i]? = some e → (s.ending batch rest).ledger.tokens i +
          e.production * Batch.tally batch.firings.reverse e.source < Counter.bound := by
        intro i e he
        have htokens := hconsistent.tokens_eq i e he
        have hfirings := hconsistent.firings_eq e.source
        rw [agenda, Agenda.inFlight_cons] at hfirings
        have hended : s.ended e.source + Batch.tally batch.firings e.source ≤
            g.repetitions e.source := by
          have := hconsistent.firings_le e.source
          omega
        have hall := hroom e (Array.mem_of_getElem? he)
        have hpart := Nat.mul_le_mul_left e.production hended
        rw [Nat.mul_add] at hpart
        rw [Batch.tally_reverse, show (s.ending batch rest).ledger.tokens i = s.ledger.tokens i
          from rfl]
        omega
      obtain ⟨m, hm⟩ := exists_delivers hfits
      rw [hm] at delivers
      cases delivers

/-! ## Runs -/

/-- Transitions are taken until the simulation has ended or one of them is refused: how many they
are, and what they leave. -/
inductive Loop : Nat → Simulation g → Attempt τ (Simulation g) → Prop
  | done {s : Simulation g} (final : s.phase.isFinal = true) : Loop 0 s (.finished s)
  | refused {s s' : Simulation g} {failure : Failure τ} (going : s.phase.isFinal = false)
      (step : s.step = .stopped s' failure) : Loop 1 s (.stopped s' failure)
  | next {k : Nat} {s s' : Simulation g} {x : Attempt τ (Simulation g)}
      (going : s.phase.isFinal = false) (step : s.step = .finished s') (rest : Loop k s' x) :
      Loop (k + 1) s x

/-- A run that is given the transitions that may be left is the loop, and takes no more of them. -/
theorem exists_loop : ∀ {steps : Nat} {s : Simulation g}, s.remaining ≤ steps →
    ∃ k ≤ s.remaining, Loop k s (runFor steps s)
  | 0, s, hr => by
      have hfinal : s.phase.isFinal = true := by
        cases hp : s.phase <;> simp_all [remaining, Phase.isFinal]
      exact ⟨0, Nat.zero_le _, .done hfinal⟩
  | steps + 1, s, hr => by
      rw [runFor]
      split
      case isTrue hfinal => exact ⟨0, Nat.zero_le _, .done hfinal⟩
      case isFalse hgoing =>
        have hgoing : s.phase.isFinal = false := by simpa using hgoing
        rcases Attempt.finished_or_stopped s.step with ⟨m, hm⟩ | ⟨s', failure, hstep⟩
        · have hless := remaining_step hm hgoing
          obtain ⟨k, hk, hloop⟩ : ∃ k ≤ m.remaining, Loop k m (runFor steps m) :=
            exists_loop (by omega)
          rw [hm]
          exact ⟨k + 1, by omega, .next hgoing hm hloop⟩
        · have hpos : 1 ≤ s.remaining := by
            rw [remaining]
            cases hp : s.phase <;> simp_all [Phase.isFinal]
          rw [hstep]
          exact ⟨1, hpos, .refused hgoing hstep⟩

/-- The loop goes through visited states: it ends in one that is final, or one refuses its
transition. -/
lemma Loop.visited {k : Nat} {x : Attempt τ (Simulation g)} (h : Loop k s x) (hs : Visited s) :
    (∃ s', x = .finished s' ∧ Visited s' ∧ s'.phase.isFinal = true) ∨
      ∃ m s' failure, x = .stopped s' failure ∧ Visited m ∧ m.step = .stopped s' failure := by
  induction h with
  | done final => exact Or.inl ⟨_, rfl, hs, final⟩
  | refused _ step => exact Or.inr ⟨_, _, _, rfl, hs, step⟩
  | next _ step _ ih => exact ih (.step hs (Attempt.outcome_eq_ok.2 step))

/-- **Every run ends.**  Whatever the durations, and also if the graph is not well-formed, a run
takes at most two transitions more than all actors owe firings together.  It ends completed or
deadlocked, or a transition is refused; and a transition of a visited state is refused only because
an edge cannot take tokens that are delivered.  So a run is not refused if every edge has room for
its delay and all tokens of an iteration. -/
theorem run_ends (hg : g.InRange) (hc : ∀ e ∈ g.edges, 0 < e.consumption) :
    (∃ k ≤ (g.actors.toList.map Actor.repetitions).sum + 2,
      Loop k g.simulation g.simulation.run) ∧
    ((∃ s, g.simulation.run = .finished s ∧ Visited s ∧
        (s.phase = .completed ∨ s.phase = .deadlocked)) ∨
      ∃ m s failure, g.simulation.run = .stopped s failure ∧ Visited m ∧
        m.step = .stopped s failure) ∧
    (∀ (m s : Simulation g) (failure : Failure τ), Visited m → m.step = .stopped s failure →
      Overflows m s failure ∧ failure.kind = .arithmeticRange) ∧
    ((∀ e ∈ g.edges, e.delay + e.production * g.repetitions e.source < Counter.bound) →
      ∃ s, g.simulation.run = .finished s) := by
  have hremaining : g.simulation.remaining =
      (g.actors.toList.map Actor.repetitions).sum + 2 := by
    rw [← Ledger.owed_ledger g]
    rfl
  obtain ⟨k, hk, hloop⟩ : ∃ k ≤ g.simulation.remaining, Loop k g.simulation g.simulation.run :=
    exists_loop (Nat.le_refl _)
  refine ⟨⟨k, hremaining ▸ hk, hloop⟩, ?_, fun m s failure hm hstep => ?_, fun hroom => ?_⟩
  · rcases hloop.visited .start with ⟨s, hrun, hs, hfinal⟩ | hrefused
    · exact Or.inl ⟨s, hrun, hs, completed_or_deadlocked hfinal⟩
    · exact Or.inr hrefused
  · have hover := step_stopped hg hc hm hstep
    refine ⟨hover, ?_⟩
    obtain ⟨_, _, _, _, _, _, rfl⟩ := hover
    rfl
  · rcases hloop.visited .start with ⟨s, hrun, _⟩ | ⟨m, s, failure, _, hm, hstep⟩
    · exact ⟨s, hrun⟩
    · obtain ⟨s', hs'⟩ := exists_step hg hc hroom hm
      rw [hstep] at hs'
      cases hs'

/-- The pair with firings that end a unit of time before they begin. -/
def hastyPair : Graph ℚ := (parallelPair 4 6).updateActors fun _ a => { a with duration := -1 }

/-- The hasty pair completes its iteration of five firings in at most seven transitions.  A run of
the overfull graph is refused while its first firing ends. -/
theorem hastyPair_ends :
    hastyPair.InRange ∧ (∀ e ∈ hastyPair.edges, 0 < e.consumption) ∧
      (∀ e ∈ hastyPair.edges,
        e.delay + e.production * hastyPair.repetitions e.source < Counter.bound) ∧
      (∃ k ≤ 7, Loop k hastyPair.simulation hastyPair.simulation.run) ∧
      (∃ s, hastyPair.simulation.run = .finished s ∧ s.phase = .completed) ∧
      Ledger.overfull.InRange ∧ (∀ e ∈ Ledger.overfull.edges, 0 < e.consumption) ∧
      ∃ m s failure, Ledger.overfull.simulation.run = .stopped s failure ∧ Visited m ∧
        Overflows m s failure := by
  have hg : hastyPair.InRange := ⟨by decide, by decide⟩
  have hc : ∀ e ∈ hastyPair.edges, 0 < e.consumption := by decide
  have hroom : ∀ e ∈ hastyPair.edges,
      e.delay + e.production * hastyPair.repetitions e.source < Counter.bound := by decide
  have hg' : Ledger.overfull.InRange := ⟨by decide, by decide⟩
  have hc' : ∀ e ∈ Ledger.overfull.edges, 0 < e.consumption := by decide
  obtain ⟨hloop, _, _, hfinishes⟩ := run_ends hg hc
  obtain ⟨s, hs⟩ := hfinishes hroom
  obtain ⟨s', hs', hphase⟩ := exists_of_any_ok (x := hastyPair.simulation.run.outcome)
    (p := fun s => s.phase == .completed) (by cbv)
  obtain rfl : s' = s := by
    rw [hs] at hs'
    exact (Except.ok.inj hs').symm
  have hrefused : Ledger.overfull.simulation.run.failure.isSome = true := by cbv
  obtain ⟨_, hends, honly, _⟩ := run_ends hg' hc'
  rcases hends with ⟨m, hm, _⟩ | ⟨m, s, failure, hrun, hm, hstep⟩
  · rw [hm] at hrefused
    cases hrefused
  · exact ⟨hg, hc, hroom, hloop, ⟨s', hs, by simpa using hphase⟩, hg', hc', m, s, failure, hrun, hm,
      (honly m s failure hm hstep).1⟩

end Simulation

end Dataflow

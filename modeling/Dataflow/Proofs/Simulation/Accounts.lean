import Dataflow.Proofs.Simulation.Step

/-!
# The books of a simulation

What holds in every state that a simulation reaches.  Tokens, firings and the agenda account for
each other (`Simulation.Consistent`): the tokens in an edge are its delay and what ended firings of
its source have put in, less what the firings of its target have taken out when they began.  After
the first transition no actor is left that could fire (`Simulation.Sound.quiet`), although a
transition looks only at the actors downstream of the batch that ends: the others have gained no
token.

* `Simulation.Sound` — the books, and what the phase says about the rest of the state.
* **`Simulation.sound_step`**, **`Simulation.sound_run`** — it holds at the start, every finished
  transition keeps it, and so every finished run ends in it.
-/

namespace Dataflow

namespace Simulation

variable {τ : Type} {g : Graph τ} {s s' m : Simulation g}

/-- The firings of an actor that have ended. -/
def ended (s : Simulation g) (a : Nat) : Nat :=
  s.ledger.firings a - Agenda.inFlight s.agenda a

/-- Tokens, firings and the agenda account for each other. -/
structure Consistent (s : Simulation g) : Prop where
  inFlight_le : ∀ a, Agenda.inFlight s.agenda a ≤ s.ledger.firings a
  firings_le : ∀ a, s.ledger.firings a ≤ g.repetitions a
  tokens_eq : ∀ i e, g.edges[i]? = some e →
    s.ledger.tokens i + e.consumption * s.ledger.firings e.target =
      e.delay + e.production * s.ended e.source

lemma Consistent.firings_eq (hs : s.Consistent) (a : Nat) :
    s.ledger.firings a = s.ended a + Agenda.inFlight s.agenda a := by
  have := hs.inFlight_le a
  rw [ended]
  omega

/-! ## Firings that begin -/

section Begins

variable [Clock τ] {date : τ} {a n : Nat}

/-- Firings that begin are counted and in flight, so that no more firings have ended. -/
lemma Begins.ended (h : Begins date a n s s') (hs : s.Consistent) (b : Nat) :
    s'.ended b = s.ended b := by
  have hle := hs.inFlight_le b
  rw [Simulation.ended, Simulation.ended]
  rw [h.firings b, Agenda.inFlight_enter h.agenda b]
  split <;> omega

lemma Begins.consistent (h : Begins date a n s s') (hs : s.Consistent)
    (hn : n ≤ g.repetitions a - s.ledger.firings a) : s'.Consistent where
  inFlight_le b := by
    have := hs.inFlight_le b
    rw [h.firings b, Agenda.inFlight_enter h.agenda b]
    omega
  firings_le b := by
    have := hs.firings_le b
    rw [h.firings b]
    split
    · rename_i hb
      subst hb
      omega
    · omega
  tokens_eq i e he := by
    have ht := h.tokens i e he
    have hq := hs.tokens_eq i e he
    rw [h.ended hs, h.firings, ← hq, Nat.mul_add]
    by_cases hb : e.target = a
    · simp only [if_pos hb] at ht ⊢
      rw [Nat.mul_comm e.consumption n]
      omega
    · simp only [if_neg hb] at ht ⊢
      omega

/-- Beginning the enabled firings of an actor keeps the books and ends no firing. -/
lemma fire_consistent (ha : a < g.actors.size) (h : fire date a s = .finished s')
    (hs : s.Consistent) : s'.Consistent ∧ s'.ended = s.ended := by
  rcases fire_cases ha h with ⟨_, rfl⟩ | ⟨_, hb⟩
  · exact ⟨hs, rfl⟩
  · exact ⟨hb.consistent hs (Ledger.enabled_le s.ledger a), funext (hb.ended hs)⟩

lemma fires_consistent {actors : List Nat} (hin : ∀ a ∈ actors, a < g.actors.size)
    (h : Attempt.each (fire date) actors s = .finished s') (hs : s.Consistent) :
    s'.Consistent ∧ s'.ended = s.ended := by
  refine Attempt.each_induction (P := fun m => m.Consistent ∧ m.ended = s.ended) h ?_ ⟨hs, rfl⟩
  intro a ha m m' hm hfire
  obtain ⟨hc, he⟩ := fire_consistent (hin a ha) hfire hm.1
  exact ⟨hc, he.trans hm.2⟩

/-! ## No actor is left that could fire -/

/-- Firings that begin enable no actor, and leave their own actor without enabled firings. -/
lemma enabled_fire (hc : ∀ e ∈ g.edges, 0 < e.consumption) (ha : a < g.actors.size)
    (h : fire date a s = .finished s') :
    (∀ b, s'.ledger.enabled b ≤ s.ledger.enabled b) ∧ s'.ledger.enabled a = 0 := by
  rcases fire_cases ha h with ⟨hz, rfl⟩ | ⟨_, hb⟩
  · exact ⟨fun b => Nat.le_refl _, hz⟩
  · have hmono : ∀ b, s'.ledger.enabled b ≤ s.ledger.enabled b := by
      intro b
      obtain ⟨howed, henough⟩ := (Ledger.le_enabled_iff hc).1 (Nat.le_refl (s'.ledger.enabled b))
      refine (Ledger.le_enabled_iff hc).2 ⟨?_, fun i e he ht => ?_⟩
      · have := hb.firings b
        omega
      · have := henough i e he ht
        have := hb.tokens i e he
        omega
    refine ⟨hmono, Nat.eq_zero_of_not_pos fun hpos => ?_⟩
    -- one more firing would have been enabled before
    obtain ⟨howed, henough⟩ := (Ledger.le_enabled_iff hc).1 hpos
    have hmore : s.ledger.enabled a + 1 ≤ s.ledger.enabled a := by
      refine (Ledger.le_enabled_iff hc).2 ⟨?_, fun i e he ht => ?_⟩
      · have := hb.firings a
        rw [if_pos rfl] at this
        omega
      · have h₁ := henough i e he ht
        have h₂ := hb.tokens i e he
        rw [if_pos ht] at h₂
        rw [Nat.add_mul]
        omega
    omega

/-- After the actors of a list have begun their firings, none of them is enabled, nor is any actor
that was not enabled before. -/
lemma enabled_fires (hc : ∀ e ∈ g.edges, 0 < e.consumption) :
    ∀ {actors : List Nat} {s : Simulation g}, (∀ a ∈ actors, a < g.actors.size) →
      Attempt.each (fire date) actors s = .finished s' →
        ∀ b, b ∈ actors ∨ s.ledger.enabled b = 0 → s'.ledger.enabled b = 0
  | [], s, _, h, b, hb => by
      obtain rfl := Attempt.finished_inj.1 h
      simpa using hb
  | a :: rest, s, hin, h, b, hb => by
      rw [List.forall_mem_cons] at hin
      obtain ⟨m, hm, hrest⟩ := Attempt.andThen_eq_finished.1 h
      obtain ⟨hmono, hzero⟩ := enabled_fire hc hin.1 hm
      refine enabled_fires hc hin.2 hrest b ?_
      rcases hb with hb | hb
      · rcases List.mem_cons.1 hb with rfl | hb
        · exact Or.inr hzero
        · exact Or.inl hb
      · exact Or.inr (Nat.eq_zero_of_le_zero (hb ▸ hmono b))

lemma fires_phase {actors : List Nat} (hin : ∀ a ∈ actors, a < g.actors.size)
    (h : Attempt.each (fire date) actors s = .finished s') : s'.phase = s.phase :=
  (remaining_fires hin h).2

end Begins

/-! ## Firings that end -/

/-- A batch leaves the agenda and its tokens are delivered: its firings have ended. -/
lemma Delivers.consistent {batch : Batch τ} {rest : Agenda τ} {elapsed : τ} {phase : Phase}
    (h : Delivers batch.firings ⟨s.ledger, rest, elapsed, phase⟩ m)
    (hagenda : s.agenda = batch :: rest) (hs : s.Consistent) :
    m.Consistent ∧ ∀ a, m.ended a = s.ended a + Batch.tally batch.firings a := by
  have hflight : ∀ a, Agenda.inFlight s.agenda a =
      Batch.tally batch.firings a + Agenda.inFlight m.agenda a := by
    intro a
    rw [hagenda, h.agenda, Agenda.inFlight_cons]
  have hfirings : ∀ a, m.ledger.firings a = s.ledger.firings a := h.firings
  have hended : ∀ a, m.ended a = s.ended a + Batch.tally batch.firings a := by
    intro a
    have := hs.inFlight_le a
    have := hflight a
    rw [ended, ended, hfirings a]
    omega
  refine ⟨⟨fun a => ?_, fun a => ?_, fun i e he => ?_⟩, hended⟩
  · have := hs.inFlight_le a
    have := hflight a
    rw [hfirings a]
    omega
  · rw [hfirings a]
    exact hs.firings_le a
  · have ht : m.ledger.tokens i =
        s.ledger.tokens i + e.production * Batch.tally batch.firings e.source := h.tokens i e he
    have hq := hs.tokens_eq i e he
    rw [ht, hended, hfirings, Nat.mul_add]
    omega

/-- Delivered tokens enable only actors downstream of the batch. -/
lemma Delivers.enabled {firings : List (Nat × Nat)} (h : Delivers firings s m) {l : Ledger g}
    (hc : ∀ e ∈ g.edges, 0 < e.consumption) {a : Nat}
    (ha : a ∉ l.downstream (firings.reverse.map Prod.fst)) (hz : s.ledger.enabled a = 0) :
    m.ledger.enabled a = 0 := by
  refine Nat.eq_zero_of_le_zero (hz ▸ (Ledger.le_enabled_iff hc).2 ?_)
  obtain ⟨howed, henough⟩ := (Ledger.le_enabled_iff hc).1 (Nat.le_refl (m.ledger.enabled a))
  refine ⟨by rwa [h.firings a] at howed, fun i e he ht => ?_⟩
  have hsource : e.source ∉ firings.map Prod.fst := by
    intro hmem
    exact ha (Ledger.mem_downstream.2 ⟨i, e, he, by simpa using hmem, ht⟩)
  have := henough i e he ht
  rwa [h.tokens i e he, Batch.tally_eq_zero hsource, Nat.mul_zero, Nat.add_zero] at this

/-! ## The end of a simulation -/

lemma Consistent.inPhase (hs : s.Consistent) (phase : Phase) : (s.inPhase phase).Consistent :=
  ⟨hs.inFlight_le, hs.firings_le, hs.tokens_eq⟩

@[simp] lemma ended_finish (s : Simulation g) : (finish s).ended = s.ended := by
  funext a
  simp [ended]

lemma Consistent.finish (hs : s.Consistent) : (finish s).Consistent where
  inFlight_le a := by simpa using hs.inFlight_le a
  firings_le a := by simpa using hs.firings_le a
  tokens_eq i e he := by simpa using hs.tokens_eq i e he

lemma isComplete_finish (s : Simulation g) :
    (finish s).ledger.isComplete = s.ledger.isComplete := by
  simp [Ledger.isComplete]

lemma completed_or_deadlocked (h : s.phase.isFinal = true) :
    s.phase = .completed ∨ s.phase = .deadlocked := by
  cases hp : s.phase <;> simp_all [Phase.isFinal]

lemma ne_of_isFinal (h : s.phase.isFinal = true) : s.phase ≠ .initial ∧ s.phase ≠ .running := by
  rcases completed_or_deadlocked h with hp | hp <;> simp [hp]

/-! ## Reachable states -/

/-- What holds in every state that a simulation reaches. -/
structure Sound (s : Simulation g) : Prop where
  consistent : s.Consistent
  /-- Nothing is in flight before the first transition and after the last one. -/
  idle : s.phase ≠ .running → s.agenda = []
  /-- After the first transition no actor could fire. -/
  quiet : s.phase ≠ .initial → ∀ a, s.ledger.enabled a = 0
  completed : s.phase = .completed → s.ledger.isComplete = true
  deadlocked : s.phase = .deadlocked → s.ledger.isComplete = false

lemma isComplete_iff {l : Ledger g} :
    l.isComplete = true ↔ ∀ a < g.actors.size, l.firings a = g.repetitions a := by
  simp [Ledger.isComplete]

lemma enabled_of_size_le {l : Ledger g} {a : Nat} (ha : g.actors.size ≤ a) : l.enabled a = 0 := by
  have := Ledger.enabled_le l a
  have hr : g.repetitions a = 0 := by simp [Graph.repetitions, ha]
  omega

/-- A simulation has ended only when all firings that have begun have ended. -/
lemma Sound.ended_eq (hs : s.Sound) (hp : s.phase ≠ .running) (a : Nat) :
    s.ended a = s.ledger.firings a := by
  simp [ended, hs.idle hp]

/-- Of the two ways to end, completion is the one in which no firing is owed. -/
lemma Sound.completed_iff (hs : s.Sound) (h : s.phase.isFinal = true) :
    s.phase = .completed ↔ ∀ a < g.actors.size, s.ledger.firings a = g.repetitions a := by
  rw [← isComplete_iff]
  refine ⟨hs.completed, fun hcomplete => ?_⟩
  rcases completed_or_deadlocked h with hp | hp
  · exact hp
  · rw [hs.deadlocked hp] at hcomplete
    cases hcomplete

variable [Clock τ]

lemma sound_simulation (g : Graph τ) : g.simulation.Sound where
  consistent :=
    { inFlight_le := fun a => Nat.zero_le _
      firings_le := fun a => by simp [Graph.simulation, Ledger.firings_ledger]
      tokens_eq := fun i e he => by
        simp [Graph.simulation, Ledger.firings_ledger, Ledger.tokens_ledger he, ended] }
  idle _ := rfl
  quiet h := absurd rfl h
  completed h := by simp [Graph.simulation] at h
  deadlocked h := by simp [Graph.simulation] at h

/-- A finished transition keeps the books, and leaves no actor that could fire. -/
theorem sound_step (hc : ∀ e ∈ g.edges, 0 < e.consumption) (hs : s.Sound)
    (h : s.step = .finished s') : s'.Sound := by
  cases step_cases h with
  | begins initial fires =>
    rename_i m
    have hin : ∀ a ∈ List.range g.actors.size, a < g.actors.size := fun a ha => List.mem_range.1 ha
    have hm := (fires_consistent hin fires hs.consistent).1
    refine ⟨hm.inPhase .running, fun hp => absurd rfl hp, fun _ a => ?_, fun hp => ?_,
      fun hp => ?_⟩
    · by_cases ha : a < g.actors.size
      · exact enabled_fires hc hin fires a (Or.inl (List.mem_range.2 ha))
      · exact enabled_of_size_le (Nat.le_of_not_lt ha)
    · simp [inPhase] at hp
    · simp [inPhase] at hp
  | completes running agenda delivers fires =>
    rename_i m batch rest
    have hm := (delivers.consistent agenda hs.consistent).1
    have hphase : s'.phase = .running := (fires_phase downstream_lt fires).trans delivers.phase
    refine ⟨(fires_consistent downstream_lt fires hm).1, fun hp => absurd hphase hp, fun _ a => ?_,
      fun hp => ?_, fun hp => ?_⟩
    · refine enabled_fires hc downstream_lt fires a ?_
      by_cases ha : a ∈ s.ledger.downstream (batch.firings.reverse.map Prod.fst)
      · exact Or.inl ha
      · exact Or.inr (delivers.enabled hc ha (hs.quiet (by simp [running]) a))
    · rw [hphase] at hp
      cases hp
    · rw [hphase] at hp
      cases hp
  | finishes running agenda =>
    refine ⟨hs.consistent.finish, fun _ => by simpa using agenda, fun _ a => ?_, fun hp => ?_,
      fun hp => ?_⟩
    · have := hs.quiet (by simp [running]) a
      simpa [Ledger.enabled, Ledger.incoming_eq] using this
    · rw [phase_finish] at hp
      rw [isComplete_finish]
      by_contra hn
      simp [hn] at hp
    · rw [phase_finish] at hp
      rw [isComplete_finish]
      by_contra hn
      simp [hn] at hp
  | rests final => exact hs

/-- A finished run of a graph ends with balanced books. -/
theorem sound_run (hc : ∀ e ∈ g.edges, 0 < e.consumption)
    (h : g.simulation.run = .finished s) : s.Sound :=
  runFor_induction (P := Sound) (fun _ _ hs hstep => sound_step hc hs hstep) h (sound_simulation g)

end Simulation

end Dataflow

import Dataflow.Proofs.Dates
import Dataflow.Proofs.Simulation.Accounts

/-!
# The dates of a simulation

A simulation over an exact clock ends firings neither too early nor too late: the firings of an
actor that end by a date are those that can have ended by then.  The invariant has two halves.
Firings that have ended or are in flight can have ended by their date (`Simulation.Dated.sound`);
and firings that have begun are in flight until the first date by which they can have ended
(`Simulation.Dated.complete`), because an actor that could have fired earlier would have.

* `Simulation.endedBy` — the firings that end by a date, as far as the agenda tells.
* `Simulation.Dated` — the invariant; `Simulation.DatedAt` adds what holds while firings begin.
* `Simulation.Dated.ended_of_endedBy` — before the next date of the agenda, what can have ended has.
* **`Simulation.dated_step`** — every finished transition keeps the invariant.
* **`Graph.schedule_settles`** — the outcome of a graph in terms of the dates of its firings.
-/

namespace Dataflow

/-! ## The order of the agenda -/

namespace Agenda

variable {τ : Type} [Clock τ] {date elapsed : τ} {a n : Nat} {agenda agenda' : Agenda τ}

lemma date_of_mem_enter : ∀ {agenda agenda' : Agenda τ}, enter date a n agenda = .ok agenda' →
    ∀ batch' ∈ agenda', batch'.date = date ∨ ∃ batch ∈ agenda, batch'.date = batch.date
  | [], agenda', h, batch', hmem => by
      rw [enter, Except.ok.injEq] at h
      subst h
      exact Or.inl (congrArg Batch.date (List.mem_singleton.1 hmem))
  | batch :: rest, agenda', h, batch', hmem => by
      rcases enter_cons_eq_ok h with ⟨_, rfl⟩ | ⟨_, firings, _, rfl⟩ | ⟨_, rest', hr, rfl⟩
      · rcases List.mem_cons.1 hmem with rfl | hmem
        · exact Or.inl rfl
        · exact Or.inr ⟨batch', hmem, rfl⟩
      · rcases List.mem_cons.1 hmem with rfl | hmem
        · exact Or.inr ⟨batch, List.mem_cons_self, rfl⟩
        · exact Or.inr ⟨batch', List.mem_cons_of_mem _ hmem, rfl⟩
      · rcases List.mem_cons.1 hmem with rfl | hmem
        · exact Or.inr ⟨batch', List.mem_cons_self, rfl⟩
        · refine (date_of_mem_enter hr batch' hmem).imp id ?_
          rintro ⟨batch'', hmem', hdate⟩
          exact ⟨batch'', List.mem_cons_of_mem _ hmem', hdate⟩

/-- Every batch holds firings, also after an entry. -/
lemma busy_enter (hn : 0 < n) : ∀ {agenda agenda' : Agenda τ}, enter date a n agenda = .ok agenda' →
    (∀ batch ∈ agenda, ∃ b, 0 < Batch.tally batch.firings b) →
      ∀ batch ∈ agenda', ∃ b, 0 < Batch.tally batch.firings b
  | [], agenda', h, _ => by
      rw [enter, Except.ok.injEq] at h
      subst h
      rw [List.forall_mem_singleton]
      exact ⟨a, by simp [Batch.tally_cons, hn]⟩
  | batch :: rest, agenda', h, hbusy => by
      rcases enter_cons_eq_ok h with ⟨_, rfl⟩ | ⟨_, firings, hs, rfl⟩ | ⟨_, rest', hr, rfl⟩
      · exact List.forall_mem_cons.2 ⟨⟨a, by simp [Batch.tally_cons, hn]⟩, hbusy⟩
      · refine List.forall_mem_cons.2 ⟨⟨a, ?_⟩, (List.forall_mem_cons.1 hbusy).2⟩
        rw [Batch.tally_enter hs, if_pos rfl]
        omega
      · obtain ⟨hfirst, hrest⟩ := List.forall_mem_cons.1 hbusy
        exact List.forall_mem_cons.2 ⟨hfirst, busy_enter hn hr hrest⟩

variable [AddCommMonoid τ] [LinearOrder τ] [IsOrderedAddMonoid τ] [Clock.Exact τ]

lemma sorted_enter : ∀ {agenda agenda' : Agenda τ}, enter date a n agenda = .ok agenda' →
    agenda.Pairwise (·.date < ·.date) → agenda'.Pairwise (·.date < ·.date)
  | [], agenda', h, _ => by
      rw [enter, Except.ok.injEq] at h
      subst h
      exact List.pairwise_singleton _ _
  | batch :: rest, agenda', h, hsorted => by
      obtain ⟨hfirst, hrest⟩ := List.pairwise_cons.1 hsorted
      rcases enter_cons_eq_ok h with ⟨ho, rfl⟩ | ⟨_, firings, _, rfl⟩ | ⟨ho, rest', hr, rfl⟩
      · rw [Clock.Exact.order_eq, compare_lt_iff_lt] at ho
        refine List.pairwise_cons.2 ⟨List.forall_mem_cons.2 ⟨ho, fun batch' hmem => ?_⟩, hsorted⟩
        exact ho.trans (hfirst batch' hmem)
      · exact List.pairwise_cons.2 ⟨hfirst, hrest⟩
      · rw [Clock.Exact.order_eq, compare_gt_iff_gt] at ho
        refine List.pairwise_cons.2 ⟨fun batch' hmem => ?_, sorted_enter hr hrest⟩
        rcases date_of_mem_enter hr batch' hmem with hdate | ⟨batch'', hmem', hdate⟩
        · rw [hdate]
          exact ho
        · rw [hdate]
          exact hfirst batch'' hmem'

end Agenda

namespace Simulation

variable {τ : Type} {g : Graph τ} {s s' m : Simulation g}

/-! ## The invariant -/

section Counting

variable [LinearOrder τ] {t : τ}

/-- The firings of an actor that have ended, or are in flight and end by a date. -/
def endedBy (s : Simulation g) (t : τ) (a : Nat) : Nat :=
  s.ended a + Agenda.inFlight (s.agenda.filter fun batch => decide (batch.date ≤ t)) a

lemma ended_le_endedBy (s : Simulation g) (t : τ) (a : Nat) : s.ended a ≤ s.endedBy t a :=
  Nat.le_add_right _ _

lemma endedBy_eq_ended (hlate : ∀ batch ∈ s.agenda, t < batch.date) (a : Nat) :
    s.endedBy t a = s.ended a := by
  have hfilter : (s.agenda.filter fun batch => decide (batch.date ≤ t)) = [] := by
    rw [List.filter_eq_nil_iff]
    intro batch hmem
    simpa using hlate batch hmem
  rw [endedBy, hfilter, Agenda.inFlight_nil, Nat.add_zero]

lemma Consistent.endedBy_le (hs : s.Consistent) (t : τ) (a : Nat) :
    s.endedBy t a ≤ s.ledger.firings a := by
  have := Agenda.inFlight_filter_le (fun date => decide (date ≤ t)) a s.agenda
  rw [hs.firings_eq, endedBy]
  omega

end Counting

variable [Clock τ]

/-- In a quiet state an actor whose tokens are all there has begun its firing. -/
lemma Sound.begun_of_fed {a k : Nat} (hs : s.Sound) (hphase : s.phase ≠ .initial)
    (hg : g.WellFormed) (hk : k ≤ g.repetitions a)
    (hfed : ∀ e ∈ g.edges, e.target = a → e.demand k ≤ s.ended e.source) :
    k ≤ s.ledger.firings a := by
  by_contra hlt
  have hone : 1 ≤ s.ledger.enabled a := by
    refine (Ledger.le_enabled_iff hg.consumption_pos).2 ⟨by omega, fun i e he htarget => ?_⟩
    have hmem := Array.mem_of_getElem? he
    have hneed := (Edge.demand_le_iff (hg.production_pos e hmem)).1 (hfed e hmem htarget)
    have hq := hs.consistent.tokens_eq i e he
    have hmore : (s.ledger.firings a + 1) * e.consumption ≤ k * e.consumption :=
      Nat.mul_le_mul_right _ (by omega)
    rw [htarget, Nat.mul_comm e.consumption] at hq
    rw [Nat.add_mul] at hmore
    omega
  rw [hs.quiet hphase a] at hone
  exact Nat.not_succ_le_zero 0 hone

variable [AddCommMonoid τ] [LinearOrder τ]

/-- The dates of a simulation are those of the firings. -/
structure Dated (s : Simulation g) : Prop where
  elapsed_nonneg : 0 ≤ s.elapsed
  elapsed_le : ∀ batch ∈ s.agenda, s.elapsed ≤ batch.date
  sorted : s.agenda.Pairwise (·.date < ·.date)
  busy : ∀ batch ∈ s.agenda, ∃ a, 0 < Batch.tally batch.firings a
  sound : ∀ a k t, 0 < k → k ≤ s.endedBy t a → s.elapsed ≤ t → g.EndedBy a k t
  complete : ∀ a k t, g.EndedBy a k t → k ≤ s.ledger.firings a → k ≤ s.endedBy t a
  /-- Some firing cannot have ended before the latest date so far. -/
  attained : s.elapsed = 0 ∨
    ∃ a k, 0 < k ∧ k ≤ s.ended a ∧ ∀ t, g.EndedBy a k t → s.elapsed ≤ t

/-- All tokens that firing number `k` of an actor needs are there at a date. -/
def Fed (g : Graph τ) (a k : Nat) (start : τ) : Prop :=
  ∀ e ∈ g.edges, e.target = a → 0 < e.demand k → g.EndedBy e.source (e.demand k) start

/-- While firings begin at a date, all firings that could start before have begun. -/
structure DatedAt (date : τ) (s : Simulation g) : Prop extends s.Dated, s.Consistent where
  elapsed_eq : s.elapsed = date
  prompt : ∀ a k start, 0 ≤ start → start < date → k ≤ g.repetitions a → Fed g a k start →
    k ≤ s.ledger.firings a

variable [IsOrderedAddMonoid τ] [Clock.Exact τ]

/-- Before the next date of the agenda, every firing that can have ended has ended. -/
lemma Dated.ended_of_endedBy {a k : Nat} {t : τ} (hd : s.Dated) (hs : s.Sound)
    (hphase : s.phase ≠ .initial) (hg : g.WellFormed) (h : g.EndedBy a k t) :
    (∀ batch ∈ s.agenda, t < batch.date) → k ≤ s.ended a := by
  induction h with
  | @intro a k start t pos le nonneg fed ends ih =>
    intro hlate
    have hstart : start ≤ t := (le_add_of_nonneg_right (hg.duration_nonneg a)).trans ends
    have hbegun : k ≤ s.ledger.firings a := by
      refine hs.begun_of_fed hphase hg le fun e he htarget => ?_
      rcases Nat.eq_zero_or_pos (e.demand k) with hzero | hpos
      · omega
      · exact ih e he htarget hpos fun batch hmem => hstart.trans_lt (hlate batch hmem)
    rw [← endedBy_eq_ended hlate]
    exact hd.complete a k t (.intro pos le nonneg fed ends) hbegun

/-! ## Firings that begin -/

section Begins

variable {date : τ} {a n : Nat}

lemma Begins.endedBy (h : Begins date a n s s') (hs : s.Consistent) (t : τ) (b : Nat) :
    s'.endedBy t b = s.endedBy t b + if b = a ∧ date + g.duration a ≤ t then n else 0 := by
  have hsame : ∀ d d' : τ, Clock.order d d' = .eq → decide (d ≤ t) = decide (d' ≤ t) := by
    intro d d' ho
    rw [Clock.Exact.order_eq, compare_eq_iff_eq] at ho
    rw [ho]
  have hflight := Agenda.inFlight_filter_enter hsame h.agenda b
  simp only [Clock.Exact.add_eq, decide_eq_true_eq] at hflight
  rw [Simulation.endedBy, Simulation.endedBy, h.ended hs, hflight, Nat.add_assoc]

omit [IsOrderedAddMonoid τ] [Clock.Exact τ] in
/-- The tokens of enabled firings are there. -/
lemma DatedAt.fed (hs : s.DatedAt date) (hg : g.WellFormed) {k : Nat}
    (hk : k ≤ s.ledger.firings a + s.ledger.enabled a) : Fed g a k date := by
  intro e he htarget hdemand
  refine hs.sound e.source (e.demand k) date hdemand ?_ hs.elapsed_eq.le
  refine Nat.le_trans ?_ (ended_le_endedBy s date e.source)
  rw [Edge.demand_le_iff (hg.production_pos e he)]
  obtain ⟨i, hi⟩ := Array.getElem?_of_mem he
  have henough := ((Ledger.le_enabled_iff hg.consumption_pos).1
    (Nat.le_refl (s.ledger.enabled a))).2 i e hi htarget
  have hq := hs.tokens_eq i e hi
  have hmul := Nat.mul_le_mul_right e.consumption hk
  rw [htarget, Nat.mul_comm e.consumption] at hq
  rw [Nat.add_mul] at hmul
  omega

/-- Firings that begin at a date can have ended a duration later. -/
lemma Begins.sound (h : Begins date a (s.ledger.enabled a) s s') (hg : g.WellFormed)
    (hs : s.DatedAt date) {b k : Nat} {t : τ} (hk : 0 < k) (hle : k ≤ s'.endedBy t b)
    (ht : date ≤ t) : g.EndedBy b k t := by
  have hcount := h.endedBy hs.toConsistent t b
  split_ifs at hcount with hends
  · obtain ⟨rfl, hends⟩ := hends
    have hbegun := hs.endedBy_le t b
    have howed := Ledger.enabled_le s.ledger b
    have hfirings := hs.firings_le b
    exact .intro hk (by omega) (hs.elapsed_eq ▸ hs.elapsed_nonneg) (hs.fed hg (by omega)) hends
  · exact hs.sound b k t hk (by omega) (hs.elapsed_eq ▸ ht)

/-- Firings that begin at a date could not have begun before. -/
lemma Begins.complete (h : Begins date a n s s') (hs : s.DatedAt date) {b k : Nat} {t : τ}
    (hk : g.EndedBy b k t) (hle : k ≤ s'.ledger.firings b) : k ≤ s'.endedBy t b := by
  rw [h.endedBy hs.toConsistent]
  rw [h.firings] at hle
  by_cases hbegun : k ≤ s.ledger.firings b
  · exact Nat.le_add_right_of_le (hs.complete b k t hk hbegun)
  · by_cases hb : b = a
    · subst hb
      rw [if_pos rfl] at hle
      have hearlier : s.ledger.firings b ≤ s.endedBy t b := by
        rcases Nat.eq_zero_or_pos (s.ledger.firings b) with hzero | hpos
        · omega
        · exact hs.complete b _ t (hk.mono hpos (by omega) le_rfl) le_rfl
      cases hk with
      | @intro _ _ start _ pos le nonneg fed ends =>
        have hstart : date ≤ start := by
          by_contra hlt
          exact hbegun (hs.prompt b k start nonneg (lt_of_not_ge hlt) le fed)
        have hends : date + g.duration b ≤ t := (add_le_add_left hstart _).trans ends
        rw [if_pos ⟨rfl, hends⟩]
        omega
    · rw [if_neg hb] at hle
      omega

lemma Begins.datedAt (h : Begins date a (s.ledger.enabled a) s s') (hg : g.WellFormed)
    (hs : s.DatedAt date) (hpos : 0 < s.ledger.enabled a) : s'.DatedAt date := by
  have hconsistent := h.consistent hs.toConsistent (Ledger.enabled_le s.ledger a)
  refine { hconsistent with
    elapsed_nonneg := h.elapsed ▸ hs.elapsed_nonneg
    elapsed_le := fun batch hmem => ?_
    sorted := Agenda.sorted_enter h.agenda hs.sorted
    busy := Agenda.busy_enter hpos h.agenda hs.busy
    sound := fun b k t hk hle ht => h.sound hg hs hk hle ?_
    complete := fun b k t hk hle => h.complete hs hk hle
    attained := ?_
    elapsed_eq := h.elapsed.trans hs.elapsed_eq
    prompt := fun b k start hstart hlt hk hfed => ?_ }
  · rw [h.elapsed]
    rcases Agenda.date_of_mem_enter h.agenda batch hmem with hdate | ⟨batch', hmem', hdate⟩
    · rw [hdate, Clock.Exact.add_eq, hs.elapsed_eq]
      exact le_add_of_nonneg_right (hg.duration_nonneg a)
    · rw [hdate]
      exact hs.elapsed_le batch' hmem'
  · rwa [h.elapsed, hs.elapsed_eq] at ht
  · rw [h.elapsed]
    refine hs.attained.imp id ?_
    rintro ⟨b, k, hk, hle, hfirst⟩
    exact ⟨b, k, hk, by rwa [h.ended hs.toConsistent], hfirst⟩
  · rw [h.firings]
    exact Nat.le_add_right_of_le (hs.prompt b k start hstart hlt hk hfed)

lemma fire_datedAt (hg : g.WellFormed) (ha : a < g.actors.size)
    (h : fire date a s = .finished s') (hs : s.DatedAt date) : s'.DatedAt date := by
  rcases fire_cases ha h with ⟨_, rfl⟩ | ⟨hpos, hb⟩
  · exact hs
  · exact hb.datedAt hg hs hpos

lemma fires_datedAt {actors : List Nat} (hg : g.WellFormed) (hin : ∀ a ∈ actors, a < g.actors.size)
    (h : Attempt.each (fire date) actors s = .finished s') (hs : s.DatedAt date) :
    s'.DatedAt date :=
  Attempt.each_induction h (fun a ha _ _ hm hfire => fire_datedAt hg (hin a ha) hfire hm) hs

end Begins

/-! ## Firings that end -/

section Delivers

variable {batch : Batch τ} {rest : Agenda τ} {elapsed : τ}

omit [AddCommMonoid τ] [IsOrderedAddMonoid τ] [Clock τ] [Clock.Exact τ] in
/-- The batch that ends counts for all dates; it counted before for those from its own date on. -/
lemma Delivers.endedBy
    (h : Delivers batch.firings ⟨s.ledger, rest, elapsed, .running⟩ m)
    (hagenda : s.agenda = batch :: rest) (hs : s.Consistent) (t : τ) (a : Nat) :
    m.endedBy t a = s.endedBy t a + if t < batch.date then Batch.tally batch.firings a else 0 := by
  have hrest : m.agenda = rest := h.agenda
  rw [Simulation.endedBy, Simulation.endedBy, (h.consistent hagenda hs).2, hagenda, hrest,
    List.filter_cons]
  by_cases ht : batch.date ≤ t
  · rw [if_pos (by simpa using ht), if_neg (not_lt.2 ht), Agenda.inFlight_cons]
    omega
  · rw [if_neg (by simpa using ht), if_pos (not_le.1 ht)]
    omega

lemma Delivers.datedAt
    (h : Delivers batch.firings ⟨s.ledger, rest, Clock.latest s.elapsed batch.date, .running⟩ m)
    (hagenda : s.agenda = batch :: rest) (hg : g.WellFormed) (hs : s.Sound) (hd : s.Dated)
    (hphase : s.phase ≠ .initial) : m.DatedAt batch.date := by
  obtain ⟨hconsistent, hended⟩ := h.consistent hagenda hs.consistent
  have hle : s.elapsed ≤ batch.date := hd.elapsed_le batch (hagenda ▸ List.mem_cons_self)
  have helapsed : m.elapsed = batch.date := by
    rw [h.elapsed, Clock.Exact.latest_eq]
    exact max_eq_right hle
  have hrest : m.agenda = rest := h.agenda
  have hsorted := hagenda ▸ hd.sorted
  obtain ⟨hbehind, hsorted⟩ := List.pairwise_cons.1 hsorted
  have hlate : ∀ t < batch.date, ∀ batch' ∈ s.agenda, t < batch'.date := by
    intro t ht
    rw [hagenda]
    exact List.forall_mem_cons.2 ⟨ht, fun batch' hmem => ht.trans (hbehind batch' hmem)⟩
  have hbusy := hagenda ▸ hd.busy
  refine { hconsistent with
    elapsed_nonneg := helapsed ▸ hd.elapsed_nonneg.trans hle
    elapsed_le := fun batch' hmem => helapsed ▸ (hbehind batch' (hrest ▸ hmem)).le
    sorted := hrest ▸ hsorted
    busy := hrest ▸ (List.forall_mem_cons.1 hbusy).2
    sound := fun a k t hk hcount ht => ?_
    complete := fun a k t hk hbegun => ?_
    attained := Or.inr ?_
    elapsed_eq := helapsed
    prompt := fun a k start hstart hlt hk hfed => ?_ }
  · rw [helapsed] at ht
    rw [h.endedBy hagenda hs.consistent, if_neg (not_lt.2 ht)] at hcount
    exact hd.sound a k t hk hcount (hle.trans ht)
  · rw [h.firings] at hbegun
    rw [h.endedBy hagenda hs.consistent]
    exact Nat.le_add_right_of_le (hd.complete a k t hk hbegun)
  · -- the next firing of an actor in the batch ends at the date of the batch, and not before
    obtain ⟨a, ha⟩ := (List.forall_mem_cons.1 hbusy).1
    refine ⟨a, s.ended a + 1, Nat.succ_pos _, by rw [hended]; omega, fun t ht => ?_⟩
    rw [helapsed]
    by_contra hlt
    exact Nat.not_succ_le_self _ (hd.ended_of_endedBy hs hphase hg ht (hlate t (not_le.1 hlt)))
  · rw [h.firings]
    refine hs.begun_of_fed hphase hg hk fun e he htarget => ?_
    rcases Nat.eq_zero_or_pos (e.demand k) with hzero | hpos
    · omega
    · exact hd.ended_of_endedBy hs hphase hg (hfed e he htarget hpos) (hlate start hlt)

end Delivers

/-! ## Reachable states -/

/-- What holds in every state that a simulation over an exact clock reaches. -/
structure Timed (s : Simulation g) : Prop where
  sound : s.Sound
  dated : s.Dated
  elapsed_initial : s.phase = .initial → s.elapsed = 0

lemma timed_simulation (g : Graph τ) : g.simulation.Timed where
  sound := sound_simulation g
  dated :=
    { elapsed_nonneg := Clock.Exact.zero_eq.ge
      elapsed_le := by simp [Graph.simulation]
      sorted := .nil
      busy := by simp [Graph.simulation]
      sound := fun a k t hk hcount _ => by
        have hnone : g.simulation.endedBy t a = 0 := by
          simp [Graph.simulation, endedBy, ended, Ledger.firings_ledger]
        omega
      complete := fun a k t _ hbegun => by
        rw [Graph.simulation, Ledger.firings_ledger] at hbegun
        exact Nat.le_trans hbegun (Nat.zero_le _)
      attained := Or.inl Clock.Exact.zero_eq }
  elapsed_initial _ := Clock.Exact.zero_eq

omit [IsOrderedAddMonoid τ] [Clock.Exact τ] in
lemma Dated.finish (hd : s.Dated) : (finish s).Dated := by
  have hcount : ∀ t a, (Simulation.finish s).endedBy t a = s.endedBy t a := by
    intro t a
    simp [endedBy]
  refine ⟨?_, ?_, ?_, ?_, ?_, ?_, ?_⟩
  · simpa using hd.elapsed_nonneg
  · simpa using hd.elapsed_le
  · simpa using hd.sorted
  · simpa using hd.busy
  · simpa [hcount] using hd.sound
  · simpa [hcount] using hd.complete
  · simpa using hd.attained

/-- Before the first transition nothing is late: no firing could have started before zero. -/
lemma Timed.datedAt (hs : s.Timed) (initial : s.phase = .initial) : s.DatedAt Clock.zero :=
  { hs.dated, hs.sound.consistent with
    elapsed_eq := (hs.elapsed_initial initial).trans Clock.Exact.zero_eq.symm
    prompt := fun a k start hnonneg hlt _ _ => by
      rw [Clock.Exact.zero_eq] at hlt
      exact absurd hnonneg (not_le.2 hlt) }

/-- A finished transition keeps the dates. -/
theorem dated_step (hg : g.WellFormed) (hs : s.Timed) (h : s.step = .finished s') : s'.Timed := by
  have hsound := sound_step hg.consumption_pos hs.sound h
  cases step_cases h with
  | begins initial fires =>
    rename_i m
    have hm := fires_datedAt hg (fun a ha => List.mem_range.1 ha) fires (hs.datedAt initial)
    exact ⟨hsound, ⟨hm.elapsed_nonneg, hm.elapsed_le, hm.sorted, hm.busy, hm.toDated.sound,
      hm.toDated.complete, hm.attained⟩, fun hp => by cases hp⟩
  | completes running agenda delivers fires =>
    have hphase : s.phase ≠ .initial := by simp [running]
    have hm := delivers.datedAt agenda hg hs.sound hs.dated hphase
    refine ⟨hsound, (fires_datedAt hg downstream_lt fires hm).toDated, fun hp => ?_⟩
    rw [fires_phase downstream_lt fires, delivers.phase] at hp
    cases hp
  | finishes running agenda =>
    refine ⟨hsound, hs.dated.finish, fun hp => ?_⟩
    rw [phase_finish] at hp
    split at hp <;> cases hp
  | rests final => exact hs

lemma timed_run (hg : g.WellFormed) (h : g.simulation.run = .finished s) : s.Timed :=
  runFor_induction (P := Timed) (fun _ _ hs hstep => dated_step hg hs hstep) h (timed_simulation g)

/-- A firing that ever can end has ended at the end of a run. -/
lemma le_firings_of_run (hg : g.WellFormed) (h : g.simulation.run = .finished s) {a k : Nat} {t : τ}
    (ht : g.EndedBy a k t) : k ≤ s.ledger.firings a := by
  have hs := timed_run hg h
  obtain ⟨hinitial, hrunning⟩ := ne_of_isFinal (run_isFinal h)
  rw [← hs.sound.ended_eq hrunning]
  refine hs.dated.ended_of_endedBy hs.sound hinitial hg ht ?_
  simp [hs.sound.idle hrunning]

/-- The firings of a run have ended by the latest date. -/
lemma endedBy_of_run (hg : g.WellFormed) (h : g.simulation.run = .finished s) {a k : Nat}
    (hpos : 0 < k) (hle : k ≤ s.ledger.firings a) : g.EndedBy a k s.elapsed := by
  have hs := timed_run hg h
  rw [← hs.sound.ended_eq (ne_of_isFinal (run_isFinal h)).2] at hle
  exact hs.dated.sound a k _ hpos (hle.trans (ended_le_endedBy s _ a)) le_rfl

end Simulation

/-! ## The outcome of a graph -/

namespace Graph

variable {τ : Type} [Clock τ] [AddCommMonoid τ] [LinearOrder τ] [IsOrderedAddMonoid τ]
  [Clock.Exact τ] {g : Graph τ}

/-- **The outcome of a graph.**  The duration of an iteration is the first date by which every
firing has ended that ever ends, and the iteration is completed exactly when all of its firings
end. -/
theorem schedule_settles {o : Outcome τ} (h : g.schedule = .ok o) :
    IsLeast {t | g.Settles t} o.duration ∧ (o.phase = .completed ∨ o.phase = .deadlocked) ∧
      (o.phase = .completed ↔ g.Finishes) := by
  obtain ⟨hg, s, hs, rfl⟩ := schedule_eq_ok.1 h
  have htimed := Simulation.timed_run hg hs
  have hfinal := Simulation.run_isFinal hs
  have hsettles : g.Settles s.elapsed := ⟨htimed.dated.elapsed_nonneg, fun a k t ht =>
    Simulation.endedBy_of_run hg hs ht.pos (Simulation.le_firings_of_run hg hs ht)⟩
  refine ⟨⟨hsettles, fun t ht => ?_⟩, Simulation.completed_or_deadlocked hfinal, ?_⟩
  · rcases htimed.dated.attained with hzero | ⟨a, k, hk, hle, hfirst⟩
    · exact hzero.le.trans ht.1
    · exact hfirst t (ht.2 a k _ (Simulation.endedBy_of_run hg hs hk (hle.trans (Nat.sub_le _ _))))
  · refine (htimed.sound.completed_iff hfinal).trans ⟨fun hall => ⟨s.elapsed, fun a ha => ?_⟩, ?_⟩
    · exact Simulation.endedBy_of_run hg hs (hg.repetitions_pos ha) (hall a ha).ge
    · rintro ⟨t, hall⟩ a ha
      exact Nat.le_antisymm (htimed.sound.consistent.firings_le a)
        (Simulation.le_firings_of_run hg hs (hall a ha))

end Graph

end Dataflow

import Dataflow.Proofs.Expansion.Scan
import Dataflow.Proofs.Expansion.Size

/-!
# When an expansion leaves the range

A well-formed graph has an expansion unless a number on the way is too large.  If every token gets
an edge of its own, all tokens are looked at, and whether one of them has no counter is seen from
the last one of each edge.

* `Expansion.exists_size_single_iff` — when the size is found.
* `Expansion.check_single_eq_ok_iff` — when all numbers of the tokens are counters.
* `Expansion.exists_build` — nothing else refuses an expansion: every link joins two instances.
* **`Graph.expand_range`** — when a graph is expanded, why it is not, and how the loop over the
  tokens of a firing ends.
-/

namespace Dataflow

/-! ## The numbers of the tokens -/

namespace Segment

variable {grouping : Grouping} {e : Edge} {receivers sender offset : Nat}

/-- Every token has a segment of its own. -/
lemma startingAt_mem_fromToken_single {place : Nat} (hoffset : offset ≤ place)
    (hplace : place < e.production) : startingAt .single e receivers sender place ∈
      fromToken .single e receivers sender offset := by
  fun_induction fromToken .single e receivers sender offset with
  | case1 offset h s ih =>
    rcases Nat.lt_or_eq_of_le hoffset with hlater | rfl
    · exact List.mem_cons_of_mem _ (ih hlater)
    · exact List.mem_cons_self
  | case2 offset h => omega

lemma checkFiring_eq (h : firstToken e sender < Counter.bound) :
    checkFiring grouping e receivers sender =
      checkFrom grouping e receivers sender (firstToken e sender) 0 := by
  have hbefore : Counter.mul "token index" sender e.production = .ok (sender * e.production) :=
    Counter.mul_eq_ok_iff.2 ⟨Nat.lt_of_le_of_lt (Nat.le_add_left _ _) h, rfl⟩
  have hfirst : Counter.add "token index" e.delay (sender * e.production) =
      .ok (firstToken e sender) := Counter.add_eq_ok_iff.2 ⟨h, rfl⟩
  rw [checkFiring, hbefore]
  change (Counter.add "token index" e.delay (sender * e.production) >>=
    fun first => checkFrom grouping e receivers sender first 0) = _
  rw [hfirst]
  rfl

lemma firstToken_lt_of_checkFiring (h : checkFiring grouping e receivers sender = .ok ()) :
    firstToken e sender < Counter.bound := by
  simp only [checkFiring, bind_eq_ok, Counter.mul_eq_ok_iff, Counter.add_eq_ok_iff] at h
  obtain ⟨_, ⟨_, rfl⟩, _, ⟨hlt, rfl⟩, _⟩ := h
  exact hlt

/-- All tokens of a firing have counters exactly if its last one has. -/
lemma checkFiring_single_eq_ok_iff (hp : 0 < e.production) (hc : 0 < e.consumption)
    (hr : 0 < receivers) : checkFiring .single e receivers sender = .ok () ↔
      e.delay + (sender + 1) * e.production ≤ Counter.bound := by
  have hlast : firstToken e sender + (e.production - 1) + 1 =
      e.delay + (sender + 1) * e.production := by
    rw [firstToken, Nat.add_mul]
    omega
  rw [← hlast, Nat.succ_le_iff]
  constructor
  · intro h
    rw [checkFiring_eq (firstToken_lt_of_checkFiring h), checkFrom_eq, forM_eq_ok] at h
    have hplace : e.production - 1 < e.production := Nat.sub_one_lt (Nat.ne_of_gt hp)
    have hcheck := h _ (startingAt_mem_fromToken_single (Nat.zero_le _) hplace)
    rw [check_startingAt hc hr hplace] at hcheck
    by_contra hlarge
    rw [if_neg hlarge] at hcheck
    cases hcheck
  · intro h
    rw [checkFiring_eq (Nat.lt_of_le_of_lt (Nat.le_add_right _ _) h), checkFrom_eq, forM_eq_ok]
    intro s hs
    obtain ⟨place, hplace, rfl⟩ := exists_startingAt_of_mem hs
    rw [check_startingAt hc hr hplace, if_pos (by omega)]

lemma checkEdge_single_eq_ok_iff {senders : Nat} (hp : 0 < e.production) (hc : 0 < e.consumption)
    (hs : 0 < senders) (hr : 0 < receivers) : checkEdge .single e senders receivers = .ok () ↔
      e.consumption * receivers < Counter.bound ∧
        e.delay + e.production * senders ≤ Counter.bound := by
  simp only [checkEdge, bind_eq_ok, Counter.mul_eq_ok_iff, forM_eq_ok, List.mem_range,
    checkFiring_single_eq_ok_iff hp hc hr]
  constructor
  · rintro ⟨_, ⟨htotal, _⟩, h⟩
    have hlast := h (senders - 1) (Nat.sub_one_lt (Nat.ne_of_gt hs))
    rw [Nat.sub_add_cancel hs, Nat.mul_comm] at hlast
    exact ⟨htotal, hlast⟩
  · rintro ⟨htotal, h⟩
    refine ⟨_, ⟨htotal, rfl⟩, fun sender hsender => ?_⟩
    have := Nat.mul_le_mul_right e.production hsender
    rw [Nat.mul_comm senders] at this
    exact Nat.le_trans (Nat.add_le_add_left this _) h

end Segment

namespace Expansion

variable {τ : Type} {g : Graph τ} {grouping : Grouping}

/-! ## The size -/

/-- The size of the expansion to single tokens is found exactly if there are no more firings and
tokens in an iteration than a graph can number. -/
lemma exists_size_single_iff : (∃ size, Expansion.size g .single = .ok size) ↔
    (g.actors.toList.map Actor.repetitions).sum ≤ capacity ∧
      (g.edges.toList.map fun e => e.production * g.repetitions e.source).sum ≤ capacity := by
  constructor
  · rintro ⟨⟨n, m⟩, h⟩
    obtain ⟨hactors, hedges, hn, hm⟩ := size_eq_ok_iff.1 h
    obtain ⟨_, rfl⟩ := actorCount_eq_ok_iff.1 hactors
    obtain ⟨_, rfl⟩ := edgeCount_single_eq_ok_iff.1 hedges
    exact ⟨hn, hm⟩
  · rintro ⟨hn, hm⟩
    have hcapacity : capacity < Counter.bound := by decide
    have hactors := actorCount_eq_ok_iff.2 ⟨Nat.lt_of_le_of_lt hn hcapacity, rfl⟩
    have hedges := edgeCount_single_eq_ok_iff.2 ⟨Nat.lt_of_le_of_lt hm hcapacity, rfl⟩
    exact ⟨_, size_eq_ok_iff.2 ⟨hactors, hedges, hn, hm⟩⟩

lemma kind_of_size_eq_error {failure : Failure τ} (h : size g grouping = .error failure) :
    failure.kind = .arithmeticRange := by
  simp only [size, bind_eq_error, mapError_eq_error] at h
  rcases h with ⟨_, _, rfl⟩ | ⟨_, _, ⟨_, _, rfl⟩ | ⟨_, _, h⟩⟩
  · rfl
  · rfl
  · split_ifs at h
    · cases h
      rfl
    · cases h
      rfl
    · simp at h

/-! ## The rest of an expansion -/

lemma check_of_build {h : Graph τ} (hbuild : build g grouping = .ok h) :
    check g grouping = .ok () :=
  mapError_eq_ok.1 (check_bind_eq_ok.1 hbuild).1

variable [Clock τ]

/-- Every link joins two instances. -/
lemma link_lt_size (hg : g.WellFormed) : ∀ l ∈ (links g grouping).toList,
    l.source < (instances g).size ∧ l.target < (instances g).size := by
  intro l hl
  rw [toList_links, List.mem_flatMap] at hl
  obtain ⟨⟨e, base⟩, he, hl⟩ := hl
  obtain ⟨s, hs, rfl⟩ := List.mem_map.1 hl
  rw [segments, Segment.toList_ofEdge, List.mem_flatMap] at hs
  obtain ⟨sender, hsender, hs⟩ := hs
  obtain ⟨place, _, rfl⟩ := Segment.exists_startingAt_of_mem hs
  obtain ⟨hsource, htarget⟩ := g.closed e (Array.mem_of_getElem? (mem_zipIdx_edges.1 he))
  have hreceiver : (Segment.startingAt grouping e (g.repetitions e.target) sender place).receiver <
      g.repetitions e.target := Segment.receiver_startingAt_lt (hg.repetitions_pos htarget)
  have hactors : (skeleton g grouping).actors = instances g := rfl
  simp only [link, firstInstances_getElem? hsource, firstInstances_getElem? htarget]
  exact ⟨(isInstance_firstInstance hactors (List.mem_range.1 hsender)).lt_size,
    (isInstance_firstInstance hactors hreceiver).lt_size⟩

/-- An expansion whose numbers are counters is built. -/
lemma exists_build (hg : g.WellFormed) (hcheck : check g grouping = .ok ()) :
    ∃ h, build g grouping = .ok h := by
  obtain ⟨w, hw⟩ : ∃ w, (links g grouping).toList.foldlM Wiring.add
      (.start (skeleton g grouping)) = .ok w := Wiring.exists_foldlM_add (link_lt_size hg)
  rw [Array.foldlM_toList] at hw
  refine ⟨w.graph, check_bind_eq_ok.2 ⟨mapError_eq_ok.2 hcheck, ?_⟩⟩
  exact bind_eq_ok.2 ⟨w, mapError_eq_ok.2 hw, rfl⟩

lemma kind_of_build_eq_error (hg : g.WellFormed) {failure : Failure τ}
    (h : build g grouping = .error failure) : failure.kind = .arithmeticRange := by
  cases hcheck : check g grouping with
  | error error =>
    rw [build, hcheck] at h
    cases h
    rfl
  | ok =>
    obtain ⟨_, hbuild⟩ := exists_build hg hcheck
    rw [hbuild] at h
    cases h

/-- The numbers of all tokens are counters exactly if those of one iteration of every target are and
the tokens of every edge, with its delay, have numbers below the bound. -/
lemma check_single_eq_ok_iff (hg : g.WellFormed) : check g .single = .ok () ↔
    ∀ e ∈ g.edges, e.consumption * g.repetitions e.target < Counter.bound ∧
      e.delay + e.production * g.repetitions e.source ≤ Counter.bound := by
  rw [check, forM_eq_ok]
  simp only [Array.mem_toList_iff]
  refine forall₂_congr fun e he => ?_
  obtain ⟨hsource, htarget⟩ := g.closed e he
  exact Segment.checkEdge_single_eq_ok_iff (hg.production_pos e he) (hg.consumption_pos e he)
    (hg.repetitions_pos hsource) (hg.repetitions_pos htarget)

end Expansion

namespace Graph

variable {τ : Type} [Clock τ] {g : Graph τ} {grouping : Grouping}

lemma exists_expand_iff (hg : g.WellFormed) : (∃ h, g.expand grouping = .ok h) ↔
    (∃ size, Expansion.size g grouping = .ok size) ∧ Expansion.check g grouping = .ok () := by
  simp only [expand, bind_eq_ok]
  constructor
  · rintro ⟨h, _, _, size, hsize, hbuild⟩
    exact ⟨⟨size, hsize⟩, Expansion.check_of_build hbuild⟩
  · rintro ⟨⟨size, hsize⟩, hcheck⟩
    obtain ⟨h, hbuild⟩ := Expansion.exists_build hg hcheck
    exact ⟨h, (), validate_eq_ok_iff.2 hg, size, hsize, hbuild⟩

lemma kind_of_expand_eq_error (hg : g.WellFormed) {failure : Failure τ}
    (h : g.expand grouping = .error failure) : failure.kind = .arithmeticRange := by
  rcases bind_eq_error.1 h with hvalid | ⟨_, _, h⟩
  · rw [validate_eq_ok_iff.2 hg] at hvalid
    cases hvalid
  · rcases bind_eq_error.1 h with hsize | ⟨_, _, hbuild⟩
    · exact Expansion.kind_of_size_eq_error hsize
    · exact Expansion.kind_of_build_eq_error hg hbuild

/-- **The range of an expansion.**  A graph that is accepted expands to single tokens exactly if a
graph can number the firings and the tokens of an iteration, and in every edge the tokens that an
iteration takes have a counter and the last token that it sends has one.  An expansion, also one to
runs, is refused for the range of its numbers only.  The loop over the tokens of a firing, with every
step of its arithmetic checked, ends where the check of the firing says: behind the last token, with
all segments of the firing, or at a token whose number is no counter.  Every segment that it finds
is read by a firing of the target and holds a token. -/
theorem expand_range (hg : g.validate = .ok ()) :
    ((∃ h, g.expand .single = .ok h) ↔
      (g.actors.toList.map Actor.repetitions).sum ≤ Expansion.capacity ∧
      (g.edges.toList.map fun e => e.production * g.repetitions e.source).sum ≤
        Expansion.capacity ∧
      ∀ e ∈ g.edges, e.consumption * g.repetitions e.target < Counter.bound ∧
        e.delay + e.production * g.repetitions e.source ≤ Counter.bound) ∧
    (∀ grouping failure, g.expand grouping = .error failure → failure.kind = .arithmeticRange) ∧
    ∀ grouping, ∀ e ∈ g.edges, e.production < Counter.bound - 1 →
      e.consumption * g.repetitions e.target < Counter.bound →
      ∀ sender < g.repetitions e.source, Segment.firstToken e sender < Counter.bound →
        ∃ found outcome,
          Segment.Scan grouping e (g.repetitions e.target) sender 1 found outcome ∧
          Segment.checkFiring grouping e (g.repetitions e.target) sender =
            outcome.map (fun _ => ()) ∧
          (∀ s ∈ found, s.receiver < g.repetitions e.target ∧ 1 ≤ s.length) ∧
          ((found = Segment.fromToken grouping e (g.repetitions e.target) sender 0 ∧
              outcome = .ok (e.production + 1)) ∨
            ∃ s rest, Segment.fromToken grouping e (g.repetitions e.target) sender 0 =
                found ++ s :: rest ∧
              outcome = .error (.sum "token index" (Segment.firstToken e sender) s.offset)) := by
  rw [validate_eq_ok_iff] at hg
  refine ⟨?_, fun _ _ => kind_of_expand_eq_error hg, ?_⟩
  · rw [exists_expand_iff hg, Expansion.exists_size_single_iff,
      Expansion.check_single_eq_ok_iff hg, and_assoc]
  · intro grouping e he hproduction htotal sender _ hfirst
    have hr := hg.repetitions_pos (g.closed e he).2
    obtain ⟨found, outcome, hscan, hcheck, hends⟩ := Segment.exists_scan
      (hg.consumption_pos e he) hr hproduction htotal sender (Nat.zero_le _)
    rw [← Segment.checkFiring_eq hfirst] at hcheck
    have hfound : ∀ s ∈ found, s ∈ Segment.fromToken grouping e (g.repetitions e.target) sender 0 := by
      rcases hends with ⟨rfl, _⟩ | ⟨s, rest, hall, _⟩
      · exact fun _ hs => hs
      · exact fun _ hs => hall ▸ List.mem_append_left _ hs
    refine ⟨found, outcome, hscan, hcheck, fun s hs => ?_, hends⟩
    obtain ⟨place, _, rfl⟩ := Segment.exists_startingAt_of_mem (hfound s hs)
    exact ⟨Segment.receiver_startingAt_lt hr, Segment.length_startingAt_pos _ _ _ _ _⟩

/-- Two tokens that join a delay in the edge back: the greatest delay for which both have counters
is two below the bound.  With one token more the loop is refused at the second token. -/
theorem handshake_range :
    (handshake (Counter.bound - 2)).validate = .ok () ∧
      (∃ h, (handshake (Counter.bound - 2)).expand .single = .ok h) ∧
    (handshake (Counter.bound - 1)).validate = .ok () ∧
      (∃ failure, (handshake (Counter.bound - 1)).expand .single = .error failure ∧
        failure.kind = .arithmeticRange) ∧
      ∃ found, Segment.Scan .runs (handshake (Counter.bound - 1)).edges[1] 2 0 1 found
        (.error (.sum "token index" (Counter.bound - 1) 1)) := by
  have hfits : (handshake (Counter.bound - 2)).validate = .ok () := by cbv
  have hlarge : (handshake (Counter.bound - 1)).validate = .ok () := by cbv
  obtain ⟨hexpands, _⟩ := expand_range hfits
  obtain ⟨hrefused, hkind, hloop⟩ := expand_range hlarge
  refine ⟨hfits, hexpands.2 ⟨by decide, by decide, by decide⟩, hlarge, ?_, ?_⟩
  · cases h : (handshake (Counter.bound - 1)).expand .single with
    | ok h' => exact absurd (hrefused.1 ⟨h', h⟩).2.2 (by decide)
    | error failure => exact ⟨failure, rfl, hkind _ _ h⟩
  · obtain ⟨found, outcome, hscan, hcheck, _, hends⟩ := hloop .runs
      (handshake (Counter.bound - 1)).edges[1] (Array.getElem_mem _) (by decide) (by decide) 0
      (by decide) (by decide)
    have hfails : Segment.checkFiring .runs (handshake (Counter.bound - 1)).edges[1] 2 0 =
        .error (.sum "token index" (Counter.bound - 1) 1) := by cbv
    rcases hends with ⟨_, rfl⟩ | ⟨s, _, _, rfl⟩
    · exact absurd (hfails.symm.trans hcheck) (by simp [Except.map])
    · rw [Except.error.inj (hfails.symm.trans hcheck)]
      exact ⟨found, hscan⟩

end Graph

end Dataflow

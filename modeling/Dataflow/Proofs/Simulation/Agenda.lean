import Dataflow.Proofs.Attempt
import Dataflow.Simulation.Agenda
import Mathlib.Algebra.GroupWithZero.Nat
import Mathlib.Tactic.SplitIfs

/-!
# Counting the firings in flight

The firings of an actor that have not ended are in flight: `Agenda.inFlight` is their number.  An
entry into the agenda adds its firings to those in flight and to nothing else.  The count is
taken over the batches whose date passes a test (`Agenda.inFlight_filter_enter`): the test that
accepts every date gives all firings in flight, and a bound on the date gives those that end in
time.  An entry that counts firings leaves no batch without them (`Agenda.filled_enter`), and only
a number that cannot be counted is refused (`Agenda.exists_enter`).
-/

namespace Dataflow

/-- The firings of an actor among the entries of a batch. -/
def Batch.tally (firings : List (Nat × Nat)) (a : Nat) : Nat :=
  ((firings.filter (·.1 == a)).map Prod.snd).sum

namespace Batch

@[simp] lemma tally_nil (a : Nat) : tally [] a = 0 := rfl

lemma tally_cons (b m : Nat) (rest : List (Nat × Nat)) (a : Nat) :
    tally ((b, m) :: rest) a = (if a = b then m else 0) + tally rest a := by
  by_cases h : a = b
  · simp [tally, h]
  · simp [tally, h, Ne.symm h]

lemma tally_reverse (firings : List (Nat × Nat)) (a : Nat) :
    tally firings.reverse a = tally firings a := by
  rw [tally, List.filter_reverse, List.map_reverse, List.sum_reverse, tally]

/-- Actors without an entry have no firings in a batch. -/
lemma tally_eq_zero {firings : List (Nat × Nat)} {a : Nat} (h : a ∉ firings.map Prod.fst) :
    tally firings a = 0 := by
  have : firings.filter (·.1 == a) = [] := by
    rw [List.filter_eq_nil_iff]
    intro entry hentry hea
    exact h (List.mem_map.2 ⟨entry, hentry, by simpa using hea⟩)
  simp [tally, this]

lemma tally_enter {a n : Nat} : ∀ {firings firings' : List (Nat × Nat)},
    enter a n firings = .ok firings' →
      ∀ b, tally firings' b = tally firings b + if b = a then n else 0
  | [], firings', h, b => by
      rw [enter, Except.ok.injEq] at h
      subst h
      rw [tally_cons, tally_nil, Nat.add_comm]
  | (c, m) :: rest, firings', h, b => by
      rw [enter] at h
      split_ifs at h with hca hac
      · rw [Except.ok.injEq] at h
        subst h
        rw [tally_cons a, Nat.add_comm]
      · obtain ⟨total, hs, rfl⟩ := map_eq_ok.1 h
        obtain ⟨_, rfl⟩ := Counter.add_eq_ok_iff.1 hs
        subst hac
        rw [tally_cons, tally_cons]
        split <;> omega
      · obtain ⟨rest', hr, rfl⟩ := map_eq_ok.1 h
        rw [tally_cons, tally_cons, tally_enter hr b, Nat.add_assoc]

/-- An entry is accepted if the firings of its actor can still be counted. -/
lemma exists_enter {a n : Nat} : ∀ {firings : List (Nat × Nat)},
    tally firings a + n < Counter.bound → ∃ firings', enter a n firings = .ok firings'
  | [], _ => ⟨_, rfl⟩
  | (b, m) :: rest, h => by
      rw [tally_cons] at h
      rw [enter]
      split_ifs with hba hab
      · exact ⟨_, rfl⟩
      · rw [if_pos hab] at h
        exact ⟨_, map_eq_ok.2 ⟨m + n, Counter.add_eq_ok_iff.2 ⟨by omega, rfl⟩, rfl⟩⟩
      · have hrest : tally rest a + n < Counter.bound := by omega
        obtain ⟨firings', hf⟩ := exists_enter hrest
        exact ⟨_, map_eq_ok.2 ⟨firings', hf, rfl⟩⟩

/-- Entries that all count firings still do so after one more, and there is at least that one. -/
lemma enter_count_pos {a n : Nat} (hn : 0 < n) : ∀ {firings firings' : List (Nat × Nat)},
    enter a n firings = .ok firings' → (∀ entry ∈ firings, 1 ≤ entry.2) →
      firings' ≠ [] ∧ ∀ entry ∈ firings', 1 ≤ entry.2
  | [], firings', h, _ => by
      rw [enter, Except.ok.injEq] at h
      subst h
      exact ⟨List.cons_ne_nil _ _, List.forall_mem_singleton.2 hn⟩
  | (c, m) :: rest, firings', h, hpos => by
      obtain ⟨hfirst, hrest⟩ := List.forall_mem_cons.1 hpos
      rw [enter] at h
      split_ifs at h
      · rw [Except.ok.injEq] at h
        subst h
        exact ⟨List.cons_ne_nil _ _, List.forall_mem_cons.2 ⟨hn, hpos⟩⟩
      · obtain ⟨total, hs, rfl⟩ := map_eq_ok.1 h
        obtain ⟨_, rfl⟩ := Counter.add_eq_ok_iff.1 hs
        exact ⟨List.cons_ne_nil _ _,
          List.forall_mem_cons.2 ⟨Nat.le_add_right_of_le hfirst, hrest⟩⟩
      · obtain ⟨rest', hr, rfl⟩ := map_eq_ok.1 h
        exact ⟨List.cons_ne_nil _ _,
          List.forall_mem_cons.2 ⟨hfirst, (enter_count_pos hn hr hrest).2⟩⟩

/-- A batch holds entries, and every entry counts firings. -/
structure Filled {τ : Type} (batch : Batch τ) : Prop where
  firings_ne_nil : batch.firings ≠ []
  count_pos : ∀ entry ∈ batch.firings, 1 ≤ entry.2

end Batch

namespace Agenda

variable {τ : Type}

/-- The firings of an actor that have not ended. -/
def inFlight (agenda : Agenda τ) (a : Nat) : Nat :=
  (agenda.map fun batch => ((batch.firings.filter (·.1 == a)).map Prod.snd).sum).sum

@[simp] lemma inFlight_nil (a : Nat) : inFlight ([] : Agenda τ) a = 0 := rfl

lemma inFlight_cons (batch : Batch τ) (rest : Agenda τ) (a : Nat) :
    inFlight (batch :: rest) a = Batch.tally batch.firings a + inFlight rest a := rfl

/-- No part of the agenda holds more firings than the whole. -/
lemma inFlight_filter_le (P : τ → Bool) (a : Nat) : ∀ agenda : Agenda τ,
    inFlight (agenda.filter fun batch => P batch.date) a ≤ inFlight agenda a
  | [] => Nat.le_refl _
  | batch :: rest => by
      have ih := inFlight_filter_le P a rest
      rw [List.filter_cons, inFlight_cons]
      split
      · rw [inFlight_cons]
        omega
      · omega

variable [Clock τ] {date : τ} {a n : Nat}

/-- An entry goes before the first batch, joins it, or goes behind it. -/
lemma enter_cons_eq_ok {batch : Batch τ} {rest agenda' : Agenda τ}
    (h : enter date a n (batch :: rest) = .ok agenda') :
    (Clock.order date batch.date = .lt ∧ agenda' = ⟨date, [(a, n)]⟩ :: batch :: rest) ∨
      (Clock.order date batch.date = .eq ∧ ∃ firings, Batch.enter a n batch.firings = .ok firings ∧
        agenda' = ⟨batch.date, firings⟩ :: rest) ∨
      (Clock.order date batch.date = .gt ∧ ∃ rest', enter date a n rest = .ok rest' ∧
        agenda' = batch :: rest') := by
  rw [enter] at h
  split at h
  case h_1 ho =>
    rw [Except.ok.injEq] at h
    exact Or.inl ⟨ho, h.symm⟩
  case h_2 ho =>
    obtain ⟨firings, hs, rfl⟩ := map_eq_ok.1 h
    exact Or.inr (Or.inl ⟨ho, firings, hs, rfl⟩)
  case h_3 ho =>
    obtain ⟨rest', hr, rfl⟩ := map_eq_ok.1 h
    exact Or.inr (Or.inr ⟨ho, rest', hr, rfl⟩)

/-- An entry adds its firings to those in flight whose date passes a test, if its own date
passes. -/
theorem inFlight_filter_enter {P : τ → Bool}
    (hP : ∀ d d', Clock.order d d' = .eq → P d = P d') :
    ∀ {agenda agenda' : Agenda τ}, enter date a n agenda = .ok agenda' → ∀ b,
      inFlight (agenda'.filter fun batch => P batch.date) b =
        inFlight (agenda.filter fun batch => P batch.date) b +
          if b = a ∧ P date = true then n else 0
  | [], agenda', h, b => by
      rw [enter, Except.ok.injEq] at h
      subst h
      by_cases hd : P date = true
      · simp [hd, inFlight_cons, Batch.tally_cons]
      · simp [hd]
  | batch :: rest, agenda', h, b => by
      rcases enter_cons_eq_ok h with ⟨_, rfl⟩ | ⟨ho, firings, hs, rfl⟩ | ⟨_, rest', hr, rfl⟩
      · rw [List.filter_cons]
        by_cases hd : P date = true
        · simp only [hd, if_true, inFlight_cons, Batch.tally_cons, Batch.tally_nil, and_true]
          omega
        · simp [hd]
      · have hd := hP _ _ ho
        rw [List.filter_cons, List.filter_cons]
        by_cases hb : P batch.date = true
        · simp only [hb, if_true, inFlight_cons, Batch.tally_enter hs b, hd, and_true]
          omega
        · simp [hb, hd]
      · have ih := inFlight_filter_enter hP hr b
        rw [List.filter_cons, List.filter_cons]
        split
        · rw [inFlight_cons, inFlight_cons, ih, Nat.add_assoc]
        · exact ih

/-- An entry adds its firings to those in flight. -/
theorem inFlight_enter {agenda agenda' : Agenda τ}
    (h : enter date a n agenda = .ok agenda') (b : Nat) :
    inFlight agenda' b = inFlight agenda b + if b = a then n else 0 := by
  have := inFlight_filter_enter (P := fun _ => true) (fun _ _ _ => rfl) h b
  simpa using this

/-- Firings can be entered, at whatever date, if all firings of their actor in flight can still be
counted. -/
lemma exists_enter : ∀ {agenda : Agenda τ}, inFlight agenda a + n < Counter.bound →
    ∃ agenda', enter date a n agenda = .ok agenda'
  | [], _ => ⟨_, rfl⟩
  | batch :: rest, h => by
      rw [inFlight_cons] at h
      rw [enter]
      split
      · exact ⟨_, rfl⟩
      · have hbatch : Batch.tally batch.firings a + n < Counter.bound := by omega
        obtain ⟨firings, hf⟩ := Batch.exists_enter hbatch
        exact ⟨_, map_eq_ok.2 ⟨firings, hf, rfl⟩⟩
      · have hrest : inFlight rest a + n < Counter.bound := by omega
        obtain ⟨rest', hr⟩ := exists_enter hrest
        exact ⟨_, map_eq_ok.2 ⟨rest', hr, rfl⟩⟩

/-- An entry opens at most one batch. -/
lemma length_enter_le : ∀ {agenda agenda' : Agenda τ},
    enter date a n agenda = .ok agenda' → agenda'.length ≤ agenda.length + 1
  | [], agenda', h => by
      rw [enter, Except.ok.injEq] at h
      subst h
      simp
  | batch :: rest, agenda', h => by
      rcases enter_cons_eq_ok h with ⟨_, rfl⟩ | ⟨_, firings, _, rfl⟩ | ⟨_, rest', hr, rfl⟩
      · simp
      · simp
      · have := length_enter_le hr
        simpa using this

/-- An entry that counts firings leaves no batch without them. -/
lemma filled_enter (hn : 0 < n) : ∀ {agenda agenda' : Agenda τ},
    enter date a n agenda = .ok agenda' → (∀ batch ∈ agenda, batch.Filled) →
      ∀ batch ∈ agenda', batch.Filled
  | [], agenda', h, _ => by
      rw [enter, Except.ok.injEq] at h
      subst h
      rw [List.forall_mem_singleton]
      exact ⟨List.cons_ne_nil _ _, List.forall_mem_singleton.2 hn⟩
  | batch :: rest, agenda', h, hfilled => by
      obtain ⟨hfirst, hrest⟩ := List.forall_mem_cons.1 hfilled
      rcases enter_cons_eq_ok h with ⟨_, rfl⟩ | ⟨_, firings, hs, rfl⟩ | ⟨_, rest', hr, rfl⟩
      · exact List.forall_mem_cons.2
          ⟨⟨List.cons_ne_nil _ _, List.forall_mem_singleton.2 hn⟩, hfilled⟩
      · obtain ⟨hne, hpos⟩ := Batch.enter_count_pos hn hs hfirst.count_pos
        exact List.forall_mem_cons.2 ⟨⟨hne, hpos⟩, hrest⟩
      · exact List.forall_mem_cons.2 ⟨hfirst, filled_enter hn hr hrest⟩

end Agenda

end Dataflow

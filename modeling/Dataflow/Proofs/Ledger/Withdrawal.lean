import Dataflow.Proofs.Clock.Exact
import Dataflow.Proofs.Ledger.Effect

/-!
# When firings can take their tokens

How often an actor can fire is computed once by division and a minimum over the edges that enter
it, and once by trying: the tokens of so many firings are multiplied out and taken from every edge.
The two agree in every state of a ledger whose numbers are counters, also where a product is none
or the actor has fired more often than it has to.

* `Graph.InRange`, `Ledger.InRange` — the numbers of a graph and of a ledger are counters.
* `Ledger.Takes` — all that changes when firings take their tokens.
* `Ledger.exists_consume_iff` — when they can.
* **`Ledger.enabled_isGreatest`** — the enabled firings are the most that are owed and can take
  their tokens, and a refused call changes nothing.
-/

namespace Dataflow

variable {τ : Type} {g : Graph τ}

/-- The repetition counts and the delays of a graph are counters. -/
structure Graph.InRange (g : Graph τ) : Prop where
  repetitions_lt : ∀ a ∈ g.actors, a.repetitions < Counter.bound
  delay_lt : ∀ e ∈ g.edges, e.delay < Counter.bound

lemma Graph.InRange.repetitions_lt_bound (hg : g.InRange) (a : Nat) :
    g.repetitions a < Counter.bound := by
  by_cases ha : a < g.actors.size
  · simpa [Graph.repetitions, ha] using hg.repetitions_lt g.actors[a] (Array.getElem_mem ha)
  · simp [Graph.repetitions, ha, Counter.bound]

namespace Ledger

variable {l l' : Ledger g} {a n : Nat}

/-- The tokens and firings of a ledger are counters. -/
structure InRange (l : Ledger g) : Prop where
  tokens_lt : ∀ i, l.tokens i < Counter.bound
  firings_lt : ∀ a, l.firings a < Counter.bound

lemma InRange.setTokens (hl : l.InRange) (e : Nat) {tokens : Nat} (h : tokens < Counter.bound) :
    (l.setTokens e tokens).InRange where
  tokens_lt i := by
    rw [tokens_setTokens]
    split
    · exact h
    · exact hl.tokens_lt i
  firings_lt := hl.firings_lt

lemma InRange.setFirings (hl : l.InRange) (a : Nat) {firings : Nat}
    (h : firings < Counter.bound) : (l.setFirings a firings).InRange where
  tokens_lt := hl.tokens_lt
  firings_lt b := by
    rw [firings_setFirings]
    split
    · exact h
    · exact hl.firings_lt b

lemma InRange.note (hl : l.InRange) (event : Event τ) : (l.note event).InRange :=
  ⟨hl.tokens_lt, hl.firings_lt⟩

lemma inRange_ledger [Clock τ] (hg : g.InRange) : g.ledger.InRange where
  tokens_lt i := by
    cases he : g.edges[i]? with
    | none => simp [tokens_of_size_le (Array.getElem?_eq_none_iff.1 he), Counter.bound]
    | some e =>
      rw [tokens_ledger he]
      exact hg.delay_lt e (Array.mem_of_getElem? he)
  firings_lt a := by
    rw [firings_ledger]
    decide

/-! ## Taking tokens -/

/-- `n` firings of an actor take their tokens: from every edge that enters it, and no other number
changes but the firings of the actor. -/
structure Takes (a n : Nat) (l l' : Ledger g) : Prop where
  tokens : ∀ i e, g.edges[i]? = some e →
    l'.tokens i + (if e.target = a then n * e.consumption else 0) = l.tokens i
  firings : ∀ b, l'.firings b = l.firings b + if b = a then n else 0
  starts : l'.starts = l.starts
  finishes : l'.finishes = l.finishes
  journal : l'.journal = l.journal.note (.fired (g.actorName a) n (l.firings a + n))

lemma journal_foldl_setTokens {left : List (Nat × Nat)} : ∀ {l : Ledger g},
    (left.foldl (fun l (e, tokens) => l.setTokens e tokens) l).journal = l.journal := by
  induction left with
  | nil => exact rfl
  | cons x rest ih => exact ih

lemma journal_consume (h : consume a n l = .finished l') :
    l'.journal = l.journal.note (.fired (g.actorName a) n (l.firings a + n)) := by
  rw [consume] at h
  split at h
  case h_2 => simp at h
  case h_1 left total hw =>
    rw [Attempt.finished_inj] at h
    subst h
    obtain ⟨_, _, rfl⟩ := withdrawals_eq_ok hw
    exact congrArg (Journal.note _) journal_foldl_setTokens

lemma takes_of_consume (ha : a < g.actors.size) (h : consume a n l = .finished l') :
    Takes a n l l' where
  tokens _ _ he := tokens_consume h he
  firings b := firings_consume h ha b
  starts := (dates_consume h).1
  finishes := (dates_consume h).2
  journal := journal_consume h

/-- A refused call leaves the ledger as it is. -/
lemma eq_of_consume_stopped {failure : Failure τ} (h : consume a n l = .stopped l' failure) :
    l' = l := by
  rw [consume] at h
  split at h
  · simp [Attempt.finished, Attempt.stopped] at h
  · exact (congrArg Attempt.state h).symm

/-- The edges that enter an actor hold enough, said of their numbers and of the edges. -/
lemma enough_iff : (∀ i ∈ g.incoming a, n * g.consumption i ≤ l.tokens i) ↔
    ∀ i e, g.edges[i]? = some e → e.target = a → n * e.consumption ≤ l.tokens i := by
  constructor
  · intro h i e he ht
    simpa [Graph.consumption, he] using h i (Graph.mem_incoming.2 ⟨e, he, ht⟩)
  · intro h i hi
    obtain ⟨e, he, ht⟩ := Graph.mem_incoming.1 hi
    simpa [Graph.consumption, he] using h i e he ht

/-- Firings can take their tokens exactly if every edge that enters the actor holds enough and the
firings can be counted.  The products on the way need no condition of their own, because they are
no greater than what the edges hold. -/
theorem exists_consume_iff (hl : l.InRange) :
    (∃ l', consume a n l = .finished l') ↔
      (∀ i e, g.edges[i]? = some e → e.target = a → n * e.consumption ≤ l.tokens i) ∧
        l.firings a + n < Counter.bound := by
  rw [← enough_iff]
  constructor
  · rintro ⟨l', h⟩
    rw [consume] at h
    split at h
    case h_1 left total hw =>
      obtain ⟨⟨_, henough, htotal⟩, _⟩ := withdrawals_eq_ok_iff.1 hw
      exact ⟨henough, htotal⟩
    case h_2 => simp at h
  · rintro ⟨henough, htotal⟩
    have hproduct : ∀ i ∈ g.incoming a, n * g.consumption i < Counter.bound := fun i hi =>
      Nat.lt_of_le_of_lt (henough i hi) (hl.tokens_lt i)
    have hw := withdrawals_eq_ok_iff.2 ⟨⟨hproduct, henough, htotal⟩, rfl, rfl⟩
    rw [consume, hw]
    exact ⟨_, rfl⟩

/-- Firings that are owed and for which every edge has tokens can be counted. -/
lemma exists_consume_of_le_enabled (hg : g.InRange) (hl : l.InRange)
    (hc : ∀ e ∈ g.edges, 0 < e.consumption) (h : n ≤ l.enabled a) :
    ∃ l', consume a n l = .finished l' := by
  obtain ⟨howed, henough⟩ := (le_enabled_iff hc).1 h
  refine (exists_consume_iff hl).2 ⟨henough, ?_⟩
  have := hg.repetitions_lt_bound a
  have := hl.firings_lt a
  omega

/-- **The enabled firings of an actor.**  In every state of a ledger they are the most that the
actor owes and that can take their tokens.  Any number of firings can take their tokens exactly if
every edge that enters the actor holds enough and the firings can be counted; it then changes what
`Takes` says, and a refused call leaves the ledger as it is. -/
theorem enabled_isGreatest (hg : g.InRange) (hc : ∀ e ∈ g.edges, 0 < e.consumption)
    (hl : l.InRange) (ha : a < g.actors.size) :
    IsGreatest {n | n ≤ g.repetitions a - l.firings a ∧ ∃ l', consume a n l = .finished l'}
        (l.enabled a) ∧
      ∀ n,
        ((∃ l', consume a n l = .finished l') ↔
          (∀ i e, g.edges[i]? = some e → e.target = a → n * e.consumption ≤ l.tokens i) ∧
            l.firings a + n < Counter.bound) ∧
        (∀ l', consume a n l = .finished l' → Takes a n l l') ∧
        ∀ l' failure, consume a n l = .stopped l' failure → l' = l := by
  refine ⟨⟨⟨enabled_le l a, exists_consume_of_le_enabled hg hl hc (Nat.le_refl _)⟩, ?_⟩, ?_⟩
  · rintro n ⟨howed, hn⟩
    exact (le_enabled_iff hc).2 ⟨howed, ((exists_consume_iff hl).1 hn).1⟩
  · intro n
    exact ⟨exists_consume_iff hl, fun _ => takes_of_consume ha,
      fun _ _ => eq_of_consume_stopped⟩

/-- A state of the pair in which its second actor has fired `fired` times and the edges that enter
it hold seven and `2 ^ 63` tokens. -/
def crowded (fired : Nat) : Ledger (parallelPair 4 6) :=
  (((parallelPair 4 6).ledger.setTokens 0 7).setTokens 1 (1 <<< 63)).setFirings 1 fired

/-- After one firing of three the other two are enabled.  After five none is, although three more
could take their tokens; `2 ^ 62` of them would need more tokens than can be counted. -/
theorem crowded_enabled :
    (parallelPair 4 6).InRange ∧ (∀ e ∈ (parallelPair 4 6).edges, 0 < e.consumption) ∧
      (crowded 1).InRange ∧ (crowded 5).InRange ∧
      IsGreatest {n | n ≤ 2 ∧ ∃ l', consume 1 n (crowded 1) = .finished l'} 2 ∧
      IsGreatest {n | n ≤ 0 ∧ ∃ l', consume 1 n (crowded 5) = .finished l'} 0 ∧
      (∃ l', consume 1 3 (crowded 5) = .finished l' ∧ l'.tokens 0 = 1 ∧ l'.firings 1 = 8) ∧
      ¬ ∃ l', consume 1 (1 <<< 62) (crowded 5) = .finished l' := by
  have hg : (parallelPair 4 6).InRange := ⟨by decide, by decide⟩
  have hc : ∀ e ∈ (parallelPair 4 6).edges, 0 < e.consumption := by decide
  have hl : ∀ fired < Counter.bound, (crowded fired).InRange := fun fired h =>
    (((inRange_ledger hg).setTokens 0 (by decide)).setTokens 1 (by decide)).setFirings 1 h
  have h₁ := hl 1 (by decide)
  have h₅ := hl 5 (by decide)
  obtain ⟨hsome, _⟩ := enabled_isGreatest hg hc h₁ (a := 1) (by decide)
  obtain ⟨hnone, hcalls⟩ := enabled_isGreatest hg hc h₅ (a := 1) (by decide)
  rw [show (crowded 1).enabled 1 = 2 by cbv,
    show (parallelPair 4 6).repetitions 1 - (crowded 1).firings 1 = 2 by cbv] at hsome
  rw [show (crowded 5).enabled 1 = 0 by cbv,
    show (parallelPair 4 6).repetitions 1 - (crowded 5).firings 1 = 0 by cbv] at hnone
  refine ⟨hg, hc, h₁, h₅, hsome, hnone, ?_, ?_⟩
  · obtain ⟨hiff, htakes, _⟩ := hcalls 3
    obtain ⟨l', hl'⟩ := hiff.2 ⟨enough_iff.1 (by decide +kernel), by decide +kernel⟩
    have ht := (htakes l' hl').tokens 0 _ rfl
    have hf := (htakes l' hl').firings 1
    rw [show (crowded 5).tokens 0 = 1 + 6 by cbv] at ht
    exact ⟨l', hl', Nat.add_right_cancel ht, hf⟩
  · intro h
    have henough := ((hcalls (1 <<< 62)).1.1 h).1
    exact absurd (enough_iff.2 henough) (by decide +kernel)

end Ledger

end Dataflow

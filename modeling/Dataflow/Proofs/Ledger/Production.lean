import Dataflow.Proofs.Ledger.Effect
import Mathlib.Data.List.TakeWhile

/-!
# Productions that stop half-way

Tokens are put into one edge after another, and the first edge that would hold too many stops a
production.  The edges before it keep what they have got, so a refused production may change the
ledger.

* `Ledger.written` — the edges that a production puts tokens into, known before it begins.
* **`Ledger.produce_cases`** — a production writes these edges; then it has finished, or an edge
  that cannot take its tokens stops it.
* `Ledger.tokens_state_produce`, `Ledger.firings_state_produce` — what a production leaves, whether
  it finishes or not.
-/

namespace Dataflow

namespace Attempt

variable {τ σ α : Type}

/-- What is done for a list is done for its first part and then for the rest. -/
lemma each_append {f : α → σ → Attempt τ σ} {ys : List α} : ∀ {xs : List α} {s : σ},
    each f (xs ++ ys) s = (each f xs s).andThen (each f ys)
  | [], s => rfl
  | x :: xs, s => by
      rw [List.cons_append, each, each]
      cases h : (f x s).failure with
      | none => simp only [andThen, h, each_append]
      | some failure => simp only [andThen, h, stopped]

end Attempt

namespace Ledger

variable {τ : Type} {g : Graph τ} {l l' : Ledger g} {a n e : Nat}

/-- Can an edge take the tokens of `n` firings of its source? -/
def accepts (l : Ledger g) (n e : Nat) : Bool := (l.deposit n e).isOk

/-- The edges that a production puts tokens into: those before the first that cannot take them. -/
def written (l : Ledger g) (a n : Nat) : List Nat := (g.outgoing a).takeWhile (l.accepts n)

lemma accepts_eq_true : l.accepts n e = true ↔ ∃ r, l.deposit n e = .ok r := by
  rw [accepts]
  cases l.deposit n e <;> simp [Except.isOk, Except.toBool]

lemma accepts_eq_false : l.accepts n e = false ↔ ∃ error, l.deposit n e = .error error := by
  rw [accepts]
  cases l.deposit n e <;> simp [Except.isOk, Except.toBool]

/-- An edge can take tokens exactly if their number and what it then holds are counters. -/
lemma accepts_iff : l.accepts n e = true ↔ n * g.production e < Counter.bound ∧
    l.tokens e + n * g.production e < Counter.bound := by
  simp only [accepts_eq_true, deposit_eq_ok_iff, exists_and_left, exists_eq, and_true]

lemma deposit_congr (h : l'.tokens e = l.tokens e) : l'.deposit n e = l.deposit n e := by
  rw [deposit, deposit, h]

/-- Edges that can all take their tokens get them. -/
lemma exists_each_produceInto : ∀ {edges : List Nat} {l : Ledger g}, edges.Nodup →
    (∀ e ∈ edges, l.accepts n e = true) →
      ∃ l', Attempt.each (produceInto a n) edges l = .finished l'
  | [], l, _, _ => ⟨l, rfl⟩
  | e :: rest, l, hn, h => by
      obtain ⟨he, hrest⟩ := List.forall_mem_cons.1 h
      obtain ⟨hfresh, hn⟩ := List.nodup_cons.1 hn
      obtain ⟨r, hr⟩ := accepts_eq_true.1 he
      obtain ⟨m, hm⟩ : ∃ m, produceInto a n e l = .finished m := by
        rw [produceInto, hr]
        exact ⟨_, rfl⟩
      -- the other edges hold what they held before
      have hothers : ∀ x ∈ rest, m.accepts n x = true := by
        intro x hx
        have hne : x ≠ e := fun h => hfresh (h ▸ hx)
        have ht : m.tokens x = l.tokens x := by simpa [hne] using (produceInto_eq_finished hm).1 x
        rw [accepts, deposit_congr ht]
        exact hrest x hx
      obtain ⟨l', hl'⟩ := exists_each_produceInto hn hothers
      exact ⟨l', Attempt.andThen_eq_finished.2 ⟨m, hm, hl'⟩⟩

/-- A production puts tokens into the written edges.  If these are not all that leave the actor, the
next one cannot take its tokens and stops it. -/
theorem produce_cases (a n : Nat) (l : Ledger g) :
    ∃ m, Attempt.each (produceInto a n) (l.written a n) l = .finished m ∧
      ((l.written a n = g.outgoing a ∧ produce a n l = .finished m) ∨
        ∃ e ∈ g.outgoing a, l.accepts n e = false ∧ ∃ error, m.deposit n e = .error error ∧
          produce a n l = .stopped m (.range error)) := by
  have hsplit : l.written a n ++ (g.outgoing a).dropWhile (l.accepts n) = g.outgoing a :=
    List.takeWhile_append_dropWhile
  have hnodup := nodup_outgoing (g := g) a
  rw [← hsplit, List.nodup_append] at hnodup
  obtain ⟨hwritten, _, hapart⟩ := hnodup
  obtain ⟨m, hm⟩ := exists_each_produceInto (a := a) hwritten fun _ => List.mem_takeWhile_imp
  refine ⟨m, hm, ?_⟩
  rw [produce, outgoing_eq, ← hsplit, Attempt.each_append, hm]
  cases hrest : (g.outgoing a).dropWhile (l.accepts n) with
  | nil => exact Or.inl ⟨(List.append_nil _).symm, rfl⟩
  | cons e rest =>
    have hrefused : l.accepts n e = false := by
      have := List.head?_dropWhile_not (l.accepts n) (g.outgoing a)
      simpa [hrest] using this
    obtain ⟨error, herror⟩ := accepts_eq_false.1 hrefused
    -- the written edges do not change what the refused edge holds
    have hfresh : e ∉ l.written a n := fun he =>
      hapart e he e (hrest ▸ List.mem_cons_self) rfl
    have ht : m.tokens e = l.tokens e := by simpa [hfresh] using (each_produceInto hwritten hm).1 e
    refine Or.inr ⟨e, List.mem_append_right _ List.mem_cons_self, hrefused, error, ?_, ?_⟩
    · rw [deposit_congr ht, herror]
    · simp only [Attempt.andThen, Attempt.finished, Attempt.each]
      rw [produceInto, deposit_congr ht, herror]
      rfl

lemma state_produce (a n : Nat) (l : Ledger g) :
    Attempt.each (produceInto a n) (l.written a n) l = .finished (produce a n l).state := by
  obtain ⟨m, hm, ⟨_, h⟩ | ⟨_, _, _, _, _, h⟩⟩ := produce_cases a n l
  · rw [hm, h]
    rfl
  · rw [hm, h]
    rfl

lemma nodup_written (a n : Nat) (l : Ledger g) : (l.written a n).Nodup :=
  (nodup_outgoing a).sublist (List.takeWhile_sublist _)

/-- A production, also one that is refused, adds its tokens to the written edges. -/
theorem tokens_state_produce (a n : Nat) (l : Ledger g) (i : Nat) :
    (produce a n l).state.tokens i =
      l.tokens i + if i ∈ l.written a n then n * g.production i else 0 :=
  (each_produceInto (nodup_written a n l) (state_produce a n l)).1 i

/-- It counts no firing. -/
theorem firings_state_produce (a n : Nat) (l : Ledger g) (b : Nat) :
    (produce a n l).state.firings b = l.firings b :=
  (each_produceInto (nodup_written a n l) (state_produce a n l)).2 b

/-- A production finishes if every edge that leaves the actor can take its tokens. -/
lemma exists_produce_of_accepts (h : ∀ e ∈ g.outgoing a, l.accepts n e = true) :
    ∃ l', produce a n l = .finished l' := by
  obtain ⟨m, _, ⟨_, hm⟩ | ⟨e, he, hrefused, _⟩⟩ := produce_cases a n l
  · exact ⟨m, hm⟩
  · simp [h e he] at hrefused

/-- A production is stopped by an edge that cannot take its tokens. -/
lemma exists_error_of_produce_stopped {failure : Failure τ}
    (h : produce a n l = .stopped l' failure) :
    ∃ e ∈ g.outgoing a, ∃ error, l'.deposit n e = .error error ∧ failure = .range error := by
  obtain ⟨m, _, ⟨_, hm⟩ | ⟨e, he, _, error, herror, hm⟩⟩ := produce_cases a n l
  · simp [hm, Attempt.finished, Attempt.stopped] at h
  · simp only [hm, Attempt.stopped, Attempt.mk.injEq, Option.some.injEq] at h
    obtain ⟨rfl, rfl⟩ := h
    exact ⟨e, he, error, herror, rfl⟩

end Ledger

end Dataflow

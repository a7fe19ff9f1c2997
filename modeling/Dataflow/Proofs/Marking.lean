import Dataflow.Graph.Basic
import Mathlib.Logic.Function.Basic
import Mathlib.Tactic.SplitIfs

/-!
# Orders of firings

The token game of a graph without dates and without bounds on the numbers: one firing after
another, in any order that the tokens allow, until every actor has fired as often as it has to in
an iteration.

* `Marking`, `Graph.Reaches` — tokens and firing counts, and those that some order of firings
  leads to.
* `Graph.Reaches.tokens_eq` — tokens are determined by the counts.
* **`Graph.Reaches.counts_le`** — persistence: if counts leave no actor that could go on, no order
  of firings goes beyond them.
* `Graph.Reaches.repeat` — firings of one actor whose tokens are all there can follow one another.
-/

namespace Dataflow

/-- The tokens in every edge and the firings of every actor. -/
structure Marking where
  tokens : Nat → Nat
  counts : Nat → Nat

namespace Graph

variable {τ : Type} {g : Graph τ} {m : Marking}

/-- The marking before the first firing: every edge holds its delay. -/
def initialMarking (g : Graph τ) : Marking where
  tokens i := (g.edges[i]?.map Edge.delay).getD 0
  counts _ := 0

/-- Do the edges that enter an actor hold the tokens of one firing? -/
def Enables (g : Graph τ) (m : Marking) (a : Nat) : Prop :=
  ∀ i e, g.edges[i]? = some e → e.target = a → e.consumption ≤ m.tokens i

/-- The tokens that are in an edge after a firing of actor `a`. -/
def tokensAfter (a : Nat) (e : Edge) (tokens : Nat) : Nat :=
  tokens - (if e.target = a then e.consumption else 0) +
    (if e.source = a then e.production else 0)

/-- The marking after one firing of an actor, which takes its tokens and puts its tokens. -/
def fireOnce (g : Graph τ) (a : Nat) (m : Marking) : Marking where
  tokens i := (g.edges[i]?.map fun e => tokensAfter a e (m.tokens i)).getD 0
  counts := Function.update m.counts a (m.counts a + 1)

/-- The markings that orders of firings lead to in which no actor fires more often than it has to
in an iteration. -/
inductive Reaches (g : Graph τ) : Marking → Prop
  | start : Reaches g g.initialMarking
  | fire {m : Marking} {a : Nat} (reached : Reaches g m) (owed : m.counts a < g.repetitions a)
      (enabled : g.Enables m a) : Reaches g (g.fireOnce a m)

/-! ## What the counts determine -/

/-- The state equation: firings of the source put tokens in, firings of the target take them
out. -/
theorem Reaches.tokens_eq (h : g.Reaches m) {i : Nat} {e : Edge} (he : g.edges[i]? = some e) :
    m.tokens i + e.consumption * m.counts e.target =
      e.delay + e.production * m.counts e.source := by
  induction h with
  | start => simp [initialMarking, he]
  | @fire m a _ _ enabled ih =>
    have hready : e.target = a → e.consumption ≤ m.tokens i := enabled i e he
    simp only [fireOnce, he, Option.map_some, Option.getD_some, tokensAfter,
      Function.update_apply]
    split_ifs with ht hs hs
    · have := hready ht
      subst ht
      rw [hs] at ih
      rw [Nat.mul_add, Nat.mul_add]
      omega
    · have := hready ht
      subst ht
      rw [Nat.mul_add]
      omega
    · subst hs
      rw [Nat.mul_add]
      omega
    · omega

/-! ## Persistence -/

/-- **Persistence.**  Suppose that with the counts `n` every actor that still owes firings lacks
tokens in some edge.  Then no order of firings brings any actor beyond `n`: the first firing beyond
would find in that edge no more tokens than there are with `n`, because its source is not
beyond. -/
theorem Reaches.counts_le (h : g.Reaches m) {n : Nat → Nat}
    (stuck : ∀ a, n a < g.repetitions a → ∃ (i : Nat) (e : Edge), g.edges[i]? = some e ∧
      e.target = a ∧ e.delay + e.production * n e.source < e.consumption * (n a + 1)) :
    ∀ a, m.counts a ≤ n a := by
  induction h with
  | start => exact fun a => Nat.zero_le _
  | @fire m a reached owed enabled ih =>
    intro b
    by_cases hb : b = a
    · subst hb
      simp only [fireOnce, Function.update_self]
      refine Nat.lt_of_le_of_ne (ih b) fun heq => ?_
      obtain ⟨i, e, he, rfl, hlack⟩ := stuck b (heq ▸ owed)
      have hready := enabled i e he rfl
      have hq := reached.tokens_eq he
      have hsource := Nat.mul_le_mul_left e.production (ih e.source)
      rw [← heq, Nat.mul_add] at hlack
      omega
    · simpa [fireOnce, hb] using ih b

/-- Firings of one actor can follow one another if all their tokens are there. -/
theorem Reaches.repeat {a : Nat} : ∀ {n : Nat} {m : Marking}, g.Reaches m →
    m.counts a + n ≤ g.repetitions a →
    (∀ (i : Nat) (e : Edge), g.edges[i]? = some e → e.target = a →
      e.consumption * (m.counts a + n) ≤ e.delay + e.production * m.counts e.source) →
    ∃ m', g.Reaches m' ∧ m'.counts = Function.update m.counts a (m.counts a + n)
  | 0, m, h, _, _ => ⟨m, h, by simp⟩
  | n + 1, m, h, howed, henough => by
      have hfire : g.Reaches (g.fireOnce a m) := by
        refine h.fire (by omega) fun i e he ht => ?_
        have hq := h.tokens_eq he
        have hall := henough i e he ht
        have hone : e.consumption * (m.counts a + 1) ≤ e.consumption * (m.counts a + (n + 1)) :=
          Nat.mul_le_mul_left _ (by omega)
        rw [ht] at hq
        rw [Nat.mul_add] at hone
        omega
      have hcounts : (g.fireOnce a m).counts a = m.counts a + 1 := by simp [fireOnce]
      obtain ⟨m', hm', hc⟩ := hfire.repeat (a := a) (n := n) (by omega) fun i e he ht => by
        have hall := henough i e he ht
        have hmono : m.counts e.source ≤ (g.fireOnce a m).counts e.source := by
          by_cases hs : e.source = a <;> simp [fireOnce, hs]
        have := Nat.mul_le_mul_left e.production hmono
        rw [hcounts, Nat.add_assoc, Nat.add_comm 1 n]
        omega
      refine ⟨m', hm', ?_⟩
      rw [hc, hcounts]
      simp [fireOnce, Nat.add_assoc, Nat.add_comm]

end Graph

end Dataflow

import Dataflow.Graph.WellFormed
import Dataflow.Proofs.Clock.Exact
import Mathlib.Order.Bounds.Basic

/-!
# The dates of firings

When a firing can have ended does not depend on a simulation.  Firing number `k` of an actor,
counted from one, needs the tokens of so many firings of every actor upstream (`Edge.demand`); once
these have ended it can start, and a duration later it has ended.  A firing that depends on itself
never ends.

* `Graph.EndedBy` — a firing can have ended by a date.
* `Graph.EndedBy.mono` — so have the earlier firings of the actor, by that date and any later one.
* `Graph.Settles`, `Graph.Finishes` — the dates by which everything has ended that ever ends, and
  the graphs in which all firings of an iteration end.
-/

namespace Dataflow

/-- The number of firings of the source whose tokens the first `k` firings of the target need. -/
def Edge.demand (e : Edge) (k : Nat) : Nat :=
  (k * e.consumption - e.delay + e.production - 1) / e.production

lemma Edge.demand_le_iff {e : Edge} (hp : 0 < e.production) {k n : Nat} :
    e.demand k ≤ n ↔ k * e.consumption ≤ e.delay + e.production * n := by
  rw [demand, Nat.div_le_iff_le_mul_add_pred hp]
  omega

lemma Edge.demand_pos_iff {e : Edge} (hp : 0 < e.production) {k : Nat} :
    0 < e.demand k ↔ e.delay < k * e.consumption := by
  have := Edge.demand_le_iff hp (k := k) (n := 0)
  omega

lemma Edge.demand_mono {e : Edge} {k k' : Nat} (h : k' ≤ k) : e.demand k' ≤ e.demand k := by
  have := Nat.mul_le_mul_right e.consumption h
  exact Nat.div_le_div_right (by omega)

namespace Graph

variable {τ : Type} [Clock τ] [AddCommMonoid τ] [LinearOrder τ] {g : Graph τ} {a k : Nat} {t : τ}

/-- Firing number `k` of actor `a`, counted from one, can have ended by a date. -/
inductive EndedBy (g : Graph τ) : Nat → Nat → τ → Prop
  | intro {a k : Nat} {start t : τ} (pos : 0 < k) (le : k ≤ g.repetitions a) (nonneg : 0 ≤ start)
      (fed : ∀ e ∈ g.edges, e.target = a → 0 < e.demand k → EndedBy g e.source (e.demand k) start)
      (ends : start + g.duration a ≤ t) : EndedBy g a k t

lemma EndedBy.pos (h : g.EndedBy a k t) : 0 < k := by
  cases h
  assumption

lemma EndedBy.le_repetitions (h : g.EndedBy a k t) : k ≤ g.repetitions a := by
  cases h
  assumption

/-- Earlier firings of the actor have ended, too. -/
theorem EndedBy.mono (h : g.EndedBy a k t) :
    ∀ {k' : Nat} {t' : τ}, 0 < k' → k' ≤ k → t ≤ t' → g.EndedBy a k' t' := by
  induction h with
  | intro pos le nonneg fed ends ih =>
    intro k' t' hpos hle ht
    refine .intro hpos (hle.trans le) nonneg (fun e he htarget hdemand => ?_) (ends.trans ht)
    have hmono := Edge.demand_mono (e := e) hle
    exact ih e he htarget (Nat.lt_of_lt_of_le hdemand hmono) hdemand hmono le_rfl

/-- By the date `t`, every firing has ended that ever ends. -/
def Settles (g : Graph τ) (t : τ) : Prop :=
  0 ≤ t ∧ ∀ a k t', g.EndedBy a k t' → g.EndedBy a k t

/-- All firings of an iteration end. -/
def Finishes (g : Graph τ) : Prop :=
  ∃ t, ∀ a < g.actors.size, g.EndedBy a (g.repetitions a) t

variable [IsOrderedAddMonoid τ] [Clock.Exact τ]

lemma WellFormed.duration_nonneg (hg : g.WellFormed) (a : Nat) : 0 ≤ g.duration a := by
  rw [Graph.duration]
  cases ha : g.actors[a]? with
  | none => simp [Clock.Exact.zero_eq]
  | some actor =>
    have hactor := hg.actors_wellFormed actor (Array.mem_of_getElem? ha)
    exact Clock.Exact.nonneg_of_isDuration hactor.isDuration

end Graph

end Dataflow

import Dataflow.Graph.Basic

/-!
# Incidence

Looking for the edges at one actor takes a walk over all edges of the graph.  An `Incidence` holds
the edges at all actors, found in a single walk.

* `Incidence` — for every actor the edges that leave it and those that enter it.
* `Graph.incidence` — the incidence of a graph.
* **`Graph.outgoing_incidence`**, **`Graph.incoming_incidence`** — it holds the same lists, in the
  same order.
* `Graph.targets`, `Graph.successors` — the actors that some edges, or the edges from an actor,
  lead to.
-/

namespace Dataflow

/-- The numbers of the edges at every actor, the youngest first. -/
structure Incidence where
  leaving : Array (List Nat)
  entering : Array (List Nat)

namespace Incidence

/-- The edges that leave an actor. -/
def outgoing (t : Incidence) (a : Nat) : List Nat := t.leaving[a]?.getD []

/-- The edges that enter an actor. -/
def incoming (t : Incidence) (a : Nat) : List Nat := t.entering[a]?.getD []

end Incidence

namespace Graph

variable {τ : Type}

/-- The edges with an end at each actor, after the first `n` edges. -/
def rowsBelow (g : Graph τ) (side : Edge → Nat) (n : Nat) : Array (List Nat) :=
  n.fold (fun i _ rows =>
    match g.edges[i]? with
    | some e => rows.modify (side e) (i :: ·)
    | none => rows) (Array.replicate g.actors.size [])

/-- The edges at every actor of the graph. -/
def incidence (g : Graph τ) : Incidence where
  leaving := g.rowsBelow Edge.source g.edges.size
  entering := g.rowsBelow Edge.target g.edges.size

theorem size_rowsBelow {g : Graph τ} {side : Edge → Nat} {n : Nat} :
    (g.rowsBelow side n).size = g.actors.size := by
  induction n with
  | zero => simp [rowsBelow]
  | succ n ih =>
    rw [rowsBelow, Nat.fold_succ, ← rowsBelow]
    split <;> simp [ih]

theorem rowsBelow_getElem? {g : Graph τ} {side : Edge → Nat} {a n : Nat} (ha : a < g.actors.size) :
    (g.rowsBelow side n)[a]? =
      some ((List.range n).filter fun i => g.edges[i]?.map side == some a).reverse := by
  induction n with
  | zero => simp [rowsBelow, ha]
  | succ n ih =>
    rw [rowsBelow, Nat.fold_succ, ← rowsBelow, List.range_succ, List.filter_append,
      List.reverse_append]
    cases he : g.edges[n]? with
    | none => simp [he, ih]
    | some e =>
      by_cases h : side e = a
      · simp [he, Array.getElem?_modify, h, ih]
      · simp [he, Array.getElem?_modify, h, ih]

theorem rowsBelow_size {g : Graph τ} {side : Edge → Nat} {a : Nat}
    (hs : ∀ e ∈ g.edges, side e < g.actors.size) :
    (g.rowsBelow side g.edges.size)[a]?.getD [] = g.edgesAt side a := by
  by_cases ha : a < g.actors.size
  · rw [rowsBelow_getElem? ha]
    rfl
  · rw [Array.getElem?_eq_none (by rw [size_rowsBelow]; omega)]
    refine (List.eq_nil_iff_forall_not_mem.2 fun i hi => ?_).symm
    obtain ⟨e, he, rfl⟩ := mem_edgesAt.1 hi
    exact ha (hs e (Array.mem_of_getElem? he))

/-- The edges that leave an actor are found in the incidence. -/
theorem outgoing_incidence {g : Graph τ} {a : Nat} : g.incidence.outgoing a = g.outgoing a :=
  rowsBelow_size fun e he => (g.closed e he).1

/-- The edges that enter an actor are found in the incidence. -/
theorem incoming_incidence {g : Graph τ} {a : Nat} : g.incidence.incoming a = g.incoming a :=
  rowsBelow_size fun e he => (g.closed e he).2

/-! ## Neighbours -/

/-- The actor at which an edge ends. -/
def target? (g : Graph τ) (e : Nat) : Option Nat := g.edges[e]?.map Edge.target

/-- The actors that some of the edges lead to, each once and in order. -/
def targets (g : Graph τ) (edges : List Nat) : List Nat :=
  ((edges.filterMap g.target?).mergeSort).eraseReps

/-- The actors that some edge from an actor leads to, each once and in order. -/
def successors (g : Graph τ) (a : Nat) : List Nat := g.targets (g.outgoing a)

end Graph

end Dataflow

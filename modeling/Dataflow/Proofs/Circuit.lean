import Dataflow.Graph.Circuit
import Mathlib.Data.List.Chain
import Mathlib.Order.WellFoundedSet

/-!
# Graphs without circuits

Where a graph has no circuit, its edges can be followed backwards only finitely often, and facts
about its actors are proved by induction along the edges.  Its paths visit no actor twice.

* `Graph.Joins` — an edge leads from one actor to another.
* **`Graph.not_cyclic_iff`** — there is no circuit exactly if this relation is well-founded.
* `Graph.IsPath` — paths, given by the actors that they visit.
* `Graph.IsPath.nodup` — no path of a graph without circuits returns.
-/

namespace Dataflow.Graph

variable {τ : Type} {g : Graph τ} {a b : Nat}

/-- An edge leads from the first actor to the second. -/
def Joins (g : Graph τ) (a b : Nat) : Prop := ∃ e ∈ g.edges, e.source = a ∧ e.target = b

lemma Joins.lt_size (h : g.Joins a b) : a < g.actors.size ∧ b < g.actors.size := by
  obtain ⟨e, he, rfl, rfl⟩ := h
  exact g.closed e he

lemma walk_iff_transGen : g.Walk a b ↔ Relation.TransGen g.Joins a b := by
  constructor
  · intro h
    induction h with
    | edge he => exact .single ⟨_, he, rfl, rfl⟩
    | step he _ ih => exact .head ⟨_, he, rfl, rfl⟩ ih
  · intro h
    induction h using Relation.TransGen.head_induction_on with
    | single h =>
      obtain ⟨e, he, rfl, rfl⟩ := h
      exact .edge he
    | head h _ ih =>
      obtain ⟨e, he, rfl, rfl⟩ := h
      exact .step he ih

lemma not_cyclic_iff_irrefl : ¬ g.Cyclic ↔ ∀ a, ¬ Relation.TransGen g.Joins a a := by
  simp only [Cyclic, walk_iff_transGen, not_exists]

/-- A graph has no circuit exactly if its edges can be followed backwards only finitely often. -/
theorem not_cyclic_iff : ¬ g.Cyclic ↔ WellFounded g.Joins := by
  rw [not_cyclic_iff_irrefl]
  constructor
  · intro hirrefl
    have : IsStrictOrder Nat (Relation.TransGen g.Joins) :=
      { irrefl := hirrefl, trans := fun _ _ _ => Relation.TransGen.trans }
    have hactors := (Set.finite_lt_nat g.actors.size).wellFoundedOn (r := Relation.TransGen g.Joins)
    exact Subrelation.wf (fun h => ⟨.single h, h.lt_size⟩) (Set.wellFoundedOn_iff.1 hactors)
  · intro hwf a
    exact hwf.transGen.irrefl.irrefl a

/-! ## Paths -/

/-- The actors are those of a path: each is joined to the next by an edge. -/
structure IsPath (g : Graph τ) (path : List Nat) : Prop where
  ne_nil : path ≠ []
  lt_size : ∀ a ∈ path, a < g.actors.size
  isChain : path.IsChain g.Joins

lemma isPath_singleton (ha : a < g.actors.size) : g.IsPath [a] :=
  ⟨List.cons_ne_nil _ _, by simpa using ha, .singleton a⟩

lemma isPath_concat_concat {path : List Nat} :
    g.IsPath (path ++ [a] ++ [b]) ↔ g.IsPath (path ++ [a]) ∧ g.Joins a b := by
  constructor
  · rintro ⟨_, hsize, hchain⟩
    obtain ⟨hbefore, _, hlast⟩ := List.isChain_append.1 hchain
    exact ⟨⟨by simp, fun c hc => hsize c (List.mem_append_left _ hc), hbefore⟩,
      hlast a (by simp) b (by simp)⟩
  · rintro ⟨⟨_, hsize, hchain⟩, hjoins⟩
    refine ⟨by simp, fun c hc => ?_, hchain.append (.singleton b) ?_⟩
    · rcases List.mem_append.1 hc with hc | hc
      · exact hsize c hc
      · rw [List.mem_singleton.1 hc]
        exact hjoins.lt_size.2
    · simpa using hjoins

/-- A path that visits an actor twice would have a circuit. -/
theorem IsPath.nodup {path : List Nat} (h : g.IsPath path) (hacyclic : ¬ g.Cyclic) :
    path.Nodup := by
  have hwalks : path.IsChain (Relation.TransGen g.Joins) := h.isChain.imp fun _ _ => .single
  refine (List.isChain_iff_pairwise.1 hwalks).imp fun {x y} hxy => ?_
  rintro rfl
  exact not_cyclic_iff_irrefl.1 hacyclic x hxy

end Dataflow.Graph

import Dataflow.Proofs.Circuit
import Mathlib.Data.List.Perm.Subperm

/-!
# Peeling finds circuits

An actor that has been taken away had lost every actor before it, so edges can be followed backwards
from it only finitely often.  When no actor is free any more, each one that is left is entered by
an edge from another one that is left.  So actors are left exactly if the graph has a circuit.

* `Graph.enteringFrom` — the edges that enter an actor from the actors that are left.
* `Peeling.Counts` — the numbers of a peeling are these, and its free actors are those without.
* `Peeling.Counts.foldl_dropEdge` — taking edges away one after another.
* `Graph.Peels` — what holds of every round, with the actors that are gone.
* `Graph.Peels.round`, `Graph.Peels.exists_run` — a round keeps it, and so do all rounds, after
  which no actor is free.
* **`Graph.isCyclic_iff`** — an actor is left exactly if some actor is reached from itself.
-/

namespace Dataflow

/-! ## Counting the edges that are left -/

namespace Graph

variable {τ : Type} {g : Graph τ} {gone : List Nat} {a b : Nat}

/-- How many edges enter an actor from actors that are not gone. -/
def enteringFrom (g : Graph τ) (gone : List Nat) (b : Nat) : Nat :=
  g.edges.countP fun e => e.target == b && !gone.contains e.source

lemma enteringFrom_eq_zero_iff :
    g.enteringFrom gone b = 0 ↔ ∀ a, g.Joins a b → a ∈ gone := by
  simp only [enteringFrom, Array.countP_eq_zero, Joins]
  constructor
  · rintro h _ ⟨e, he, rfl, rfl⟩
    simpa using h e he
  · intro h e he
    simp only [Bool.and_eq_true, beq_iff_eq, Bool.not_eq_true', List.contains_eq_mem,
      decide_eq_false_iff_not, not_and, not_not]
    exact fun hb => h e.source ⟨e, he, rfl, hb⟩

/-- Edges are counted by their numbers. -/
lemma countP_edges (g : Graph τ) (p : Edge → Bool) :
    g.edges.countP p = (List.range g.edges.size).countP fun i => g.edges[i]?.any p := by
  have hnumbers : (List.range g.edges.size).map (g.edges[·]?) = g.edges.toList.map some :=
    List.ext_getElem (by simp) (by simp)
  calc g.edges.countP p
      = (g.edges.toList.map some).countP (Option.any p) := by
        rw [← Array.countP_toList, List.countP_map]
        rfl
    _ = _ := by
        rw [← hnumbers, List.countP_map]
        rfl

/-- Each edge from one actor to another is met among the edges that leave the first. -/
lemma count_targets (g : Graph τ) (a b : Nat) :
    ((g.outgoing a).filterMap g.target?).count b =
      g.edges.countP fun e => e.source == a && e.target == b := by
  rw [List.count_filterMap, outgoing, edgesAt, List.countP_reverse, List.countP_filter,
    countP_edges]
  refine List.countP_congr fun i _ => ?_
  cases hi : g.edges[i]? <;> simp [target?, hi, and_comm]

lemma mem_targets : b ∈ (g.outgoing a).filterMap g.target? ↔ g.Joins a b := by
  simp only [List.mem_filterMap, mem_outgoing, target?, Option.map_eq_some_iff, Joins]
  constructor
  · rintro ⟨i, ⟨e, he, rfl⟩, e', he', rfl⟩
    rw [he, Option.some.injEq] at he'
    exact he' ▸ ⟨e, Array.mem_of_getElem? he, rfl, rfl⟩
  · rintro ⟨e, he, rfl, rfl⟩
    obtain ⟨i, hi⟩ := Array.getElem?_of_mem he
    exact ⟨i, ⟨e, hi, rfl⟩, e, hi, rfl⟩

/-- When one more actor is gone, so are the edges that leave it. -/
lemma enteringFrom_cons (ha : a ∉ gone) :
    g.enteringFrom gone b =
      g.enteringFrom (a :: gone) b + ((g.outgoing a).filterMap g.target?).count b := by
  rw [count_targets, enteringFrom, enteringFrom, ← Array.countP_toList, ← Array.countP_toList,
    ← Array.countP_toList, List.countP_eq_countP_filter_add _ _ (fun e => e.source != a),
    List.countP_filter, List.countP_filter]
  congr 1
  · refine List.countP_congr fun e _ => ?_
    grind
  · refine List.countP_congr fun e _ => ?_
    by_cases h : e.source = a <;> simp [h, ha]

end Graph

namespace Peeling

variable {p : Peeling} {actors a : Nat} {count : Nat → Nat} {gone : List Nat}

/-- The numbers of a peeling are those of a function, and an actor that is left is free if its
number is zero. -/
structure Counts (p : Peeling) (actors : Nat) (count : Nat → Nat) (gone : List Nat) : Prop where
  entering : ∀ b < actors, p.entering[b]? = some (count b)
  free_nodup : p.free.Nodup
  mem_free : ∀ b, b ∈ p.free ↔ b < actors ∧ b ∉ gone ∧ count b = 0

lemma left_foldl_dropEdge (targets : List Nat) : ∀ p : Peeling,
    (targets.foldl dropEdge p).left = p.left := by
  induction targets with
  | nil => exact fun _ => rfl
  | cons a targets ih => exact fun p => ih (p.dropEdge a)

/-- An edge is taken away, and with the last one its target becomes free. -/
lemma Counts.dropEdge (h : p.Counts actors (fun b => count b + if a = b then 1 else 0) gone)
    (ha : a < actors) (hgone : a ∉ gone) : (p.dropEdge a).Counts actors count gone := by
  have hfree : a ∉ p.free := fun hmem => by simpa using ((h.mem_free a).1 hmem).2.2
  have hlast : p.entering[a]? = some 1 ↔ count a = 0 := by simp [h.entering a ha]
  have hothers : ∀ b, b ≠ a → (b ∈ p.free ↔ b < actors ∧ b ∉ gone ∧ count b = 0) := fun b hb => by
    rw [h.mem_free]
    simp [Ne.symm hb]
  refine ⟨fun b hb => ?_, ?_, fun b => ?_⟩
  · rw [Peeling.dropEdge, Array.getElem?_modify, h.entering b hb]
    by_cases hab : a = b <;> simp [hab]
  · rw [Peeling.dropEdge]
    split
    · exact List.nodup_cons.2 ⟨hfree, h.free_nodup⟩
    · exact h.free_nodup
  · simp only [Peeling.dropEdge, hlast]
    by_cases hb : b = a
    · subst hb
      by_cases hzero : count b = 0 <;> simp [hzero, ha, hgone, hfree]
    · rw [← hothers b hb]
      split <;> simp [hb]

/-- Edges are taken away one after another. -/
lemma Counts.foldl_dropEdge : ∀ {targets : List Nat} {p : Peeling},
    p.Counts actors (fun b => count b + targets.count b) gone →
      (∀ a ∈ targets, a < actors ∧ a ∉ gone) →
        (targets.foldl Peeling.dropEdge p).Counts actors count gone
  | [], p, h, _ => by simpa using h
  | a :: targets, p, h, hin => by
      obtain ⟨⟨ha, hgone⟩, hrest⟩ := List.forall_mem_cons.1 hin
      have hfirst : p.Counts actors
          (fun b => count b + targets.count b + if a = b then 1 else 0) gone := by
        simpa [List.count_cons, Nat.add_assoc] using h
      exact (hfirst.dropEdge ha hgone).foldl_dropEdge hrest

end Peeling

/-! ## Rounds -/

namespace Graph

variable {τ : Type} {g : Graph τ} {gone free : List Nat} {p : Peeling} {a : Nat}

/-- What is left of a graph when some of its actors are gone: no actor before them is left, and
edges can be followed backwards from them only finitely often. -/
structure Peels (g : Graph τ) (gone : List Nat) (p : Peeling) : Prop where
  counts : p.Counts g.actors.size (g.enteringFrom gone) gone
  nodup : gone.Nodup
  lt_size : ∀ a ∈ gone, a < g.actors.size
  left_add : p.left + gone.length = g.actors.size
  before : ∀ a b, g.Joins a b → b ∈ gone → a ∈ gone
  acc : ∀ a ∈ gone, Acc g.Joins a

lemma length_incoming (g : Graph τ) (b : Nat) : (g.incoming b).length = g.enteringFrom [] b := by
  rw [incoming, edgesAt, List.length_reverse, ← List.countP_eq_length_filter, enteringFrom,
    countP_edges]
  refine List.countP_congr fun i _ => ?_
  cases hi : g.edges[i]? <;> simp

lemma peels_start (g : Graph τ) : g.Peels [] (.start g g.incidence) := by
  refine ⟨⟨fun b hb => ?_, List.nodup_range.filter _, fun b => ?_⟩, .nil, by simp, rfl, by simp,
    by simp⟩
  · have hrow : g.incidence.entering[b]? = some (g.incoming b) := rowsBelow_getElem? hb
    rw [Peeling.start, Array.getElem?_map, hrow, Option.map_some, length_incoming]
  · rw [Peeling.start, List.mem_filter, List.mem_range, incoming_incidence, ← length_incoming]
    simp

lemma Peels.length_lt (h : g.Peels gone p) (ha : a < g.actors.size) (hgone : a ∉ gone) :
    gone.length < g.actors.size := by
  have hall : a :: gone ⊆ List.range g.actors.size := by
    intro b hb
    rcases List.mem_cons.1 hb with rfl | hb
    · exact List.mem_range.2 ha
    · exact List.mem_range.2 (h.lt_size b hb)
  have hle := (List.subperm_of_subset (List.nodup_cons.2 ⟨hgone, h.nodup⟩) hall).length_le
  rwa [List.length_range] at hle

/-- A free actor is taken away. -/
lemma Peels.round (h : g.Peels gone p) (hfree : p.free = a :: free) :
    g.Peels (a :: gone)
      (((g.outgoing a).filterMap g.target?).foldl Peeling.dropEdge
        ⟨p.entering, free, p.left - 1⟩) := by
  obtain ⟨ha, hgone, hzero⟩ := (h.counts.mem_free a).1 (hfree ▸ List.mem_cons_self)
  have hbefore := enteringFrom_eq_zero_iff.1 hzero
  have hlt := h.length_lt ha hgone
  have hleft := h.left_add
  obtain ⟨hnotMem, hnodup⟩ := List.nodup_cons.1 (hfree ▸ h.counts.free_nodup)
  have hcounts : Peeling.Counts ⟨p.entering, free, p.left - 1⟩ g.actors.size
      (fun b => g.enteringFrom (a :: gone) b + ((g.outgoing a).filterMap g.target?).count b)
      (a :: gone) := by
    simp only [← enteringFrom_cons hgone]
    refine ⟨h.counts.entering, hnodup, fun b => ?_⟩
    have hmem := h.counts.mem_free b
    rw [hfree, List.mem_cons] at hmem
    by_cases hb : b = a
    · simp [hb, hnotMem]
    · simpa [hb] using hmem
  refine ⟨hcounts.foldl_dropEdge fun b hb => ?_, List.nodup_cons.2 ⟨hgone, h.nodup⟩,
    List.forall_mem_cons.2 ⟨ha, h.lt_size⟩, ?_, fun b c hbc hc => ?_,
    List.forall_mem_cons.2 ⟨⟨a, fun b hb => h.acc b (hbefore b hb)⟩, h.acc⟩⟩
  · -- an actor after the one that is taken away has not been taken away before
    have hab := mem_targets.1 hb
    refine ⟨hab.lt_size.2, fun hmem => hgone ?_⟩
    rcases List.mem_cons.1 hmem with rfl | hmem
    · exact hbefore b hab
    · exact h.before a b hab hmem
  · rw [Peeling.left_foldl_dropEdge, List.length_cons]
    dsimp only
    omega
  · rcases List.mem_cons.1 hc with rfl | hc
    · exact List.mem_cons_of_mem _ (hbefore b hbc)
    · exact List.mem_cons_of_mem _ (h.before b c hbc hc)

/-- There are enough rounds to take every free actor away. -/
theorem Peels.exists_run : ∀ {rounds : Nat} {gone : List Nat} {p : Peeling}, g.Peels gone p →
    g.actors.size ≤ gone.length + rounds →
      ∃ gone', g.Peels gone' (.run g g.incidence rounds p) ∧
        (Peeling.run g g.incidence rounds p).free = []
  | 0, gone, p, h, hrounds => by
      refine ⟨gone, h, List.eq_nil_iff_forall_not_mem.2 fun a ha => ?_⟩
      obtain ⟨ha, hgone, _⟩ := (h.counts.mem_free a).1 ha
      exact absurd (h.length_lt ha hgone) (by omega)
  | rounds + 1, gone, p, h, hrounds => by
      rw [Peeling.run]
      split
      case h_1 hfree => exact ⟨gone, h, hfree⟩
      case h_2 a free hfree =>
        rw [outgoing_incidence]
        exact (h.round hfree).exists_run (by rw [List.length_cons]; omega)

/-! ## What is left in the end -/

/-- When no actor is free, all of them are gone exactly if edges can be followed backwards only
finitely often. -/
theorem Peels.left_eq_zero_iff (h : g.Peels gone p) (hfree : p.free = []) :
    p.left = 0 ↔ WellFounded g.Joins := by
  have hleft := h.left_add
  constructor
  · intro hzero
    refine ⟨fun a => ?_⟩
    by_cases hgone : a ∈ gone
    · exact h.acc a hgone
    · refine ⟨a, fun b hba => ?_⟩
      exact absurd (h.length_lt hba.lt_size.2 hgone) (by omega)
  · intro hwf
    by_contra hne
    obtain ⟨a, ha, hgone⟩ : ∃ a < g.actors.size, a ∉ gone := by
      by_contra! hall
      have hsub : List.range g.actors.size ⊆ gone := fun a ha => hall a (List.mem_range.1 ha)
      have hle := (List.subperm_of_subset List.nodup_range hsub).length_le
      rw [List.length_range] at hle
      omega
    -- the first actor that is left is entered from no other one, so it is free
    obtain ⟨b, ⟨hb, hbgone⟩, hmin⟩ :=
      hwf.has_min {a | a < g.actors.size ∧ a ∉ gone} ⟨a, ha, hgone⟩
    have hbfree : b ∈ p.free := by
      refine (h.counts.mem_free b).2 ⟨hb, hbgone, enteringFrom_eq_zero_iff.2 fun c hcb => ?_⟩
      by_contra hc
      exact hmin c ⟨hcb.lt_size.1, hc⟩ hcb
    rw [hfree] at hbfree
    cases hbfree

/-- **Peeling finds circuits.**  What is answered for a graph is whether some actor is reached from
itself, with or without initial tokens on the way. -/
theorem isCyclic_iff (g : Graph τ) : g.isCyclic = true ↔ g.Cyclic := by
  obtain ⟨gone, h, hfree⟩ := g.peels_start.exists_run (Nat.le_add_left g.actors.size _)
  have hleft := h.left_eq_zero_iff hfree
  rw [← not_cyclic_iff] at hleft
  rw [isCyclic, bne_iff_ne, Ne, hleft, not_not]

end Graph

end Dataflow

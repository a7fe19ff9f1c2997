import Dataflow.Proofs.Expansion.Fifo

/-!
# What an expansion conserves

The edges that one edge is expanded into share its tokens among the instances.  Every instance of
the source sends as many of them as a firing of the source, every instance of the target takes as
many as a firing of the target, and the initial tokens are neither more nor fewer than before.

Each of these numbers is a sum over the tokens that an iteration sends (`Expanded.sum_derivedFrom`),
taken over a window of token numbers that begins behind the delay and is as long as an iteration.
Sums over such windows grow evenly with the delay (`sum_range_add`).

* `Graph.derivedFrom` — the edges that an edge is expanded into.
* **`Graph.expand_conserves`** — their rates, instance by instance, and their delays.
-/

namespace Dataflow

/-! ## Sums over windows -/

section Sums

variable {c j k m : Nat} {F : Nat → Nat}

/-- Suppose that a window further on a number is greater by `k`.  Then a window that begins `d`
places later has a sum that is greater by `k * d`. -/
lemma sum_range_add (hF : ∀ t, F (t + m) = F t + k) (d : Nat) :
    ((List.range m).map fun n => F (d + n)).sum = ((List.range m).map F).sum + k * d := by
  induction d with
  | zero => simp
  | succ d ih =>
    -- the window from `d` that has one more place, without its last and without its first place
    have hlast := List.sum_range_succ (fun n => F (d + n)) m
    have hfirst := List.sum_range_succ' (fun n => F (d + n)) m
    have hstep : ((List.range m).map fun n => F (d + 1 + n)) =
        (List.range m).map fun n => F (d + n.succ) := by
      refine List.map_congr_left ?_
      intro n _
      rw [Nat.succ_eq_add_one, Nat.add_right_comm, Nat.add_assoc]
    rw [hstep, Nat.mul_add]
    rw [hF d, ih] at hlast
    simp only [Nat.add_zero] at hfirst
    omega

lemma sum_range_ite (n : Nat) :
    ((List.range n).map fun i => if i = j then c else 0).sum = if j < n then c else 0 := by
  induction n with
  | zero => simp
  | succ n ih =>
    rw [List.sum_range_succ, ih]
    grind

/-- Of `n` blocks of `c` numbers, one is block `j`. -/
lemma sum_range_div {n : Nat} (hc : 0 < c) (hj : j < n) :
    ((List.range (c * n)).map fun t => if t / c = j then 1 else 0).sum = c := by
  rw [← Segment.flatMap_range_map hc fun i _ => if i = j then 1 else 0, List.flatMap_def,
    List.sum_flatten, List.map_map]
  simp only [Function.comp_def, List.map_const', List.length_range, List.sum_replicate, smul_eq_mul,
    mul_ite, Nat.mul_one, Nat.mul_zero]
  rw [sum_range_ite, if_pos hj]

/-- In a window that is as long as all blocks together, each block occurs whole. -/
lemma sum_range_div_mod {n : Nat} (hc : 0 < c) (hj : j < n) (d : Nat) :
    ((List.range (c * n)).map fun t => if (d + t) / c % n = j then 1 else 0).sum = c := by
  have hperiod : ∀ t, (if (t + c * n) / c % n = j then 1 else 0) =
      (if t / c % n = j then 1 else 0) + 0 := by
    intro t
    rw [Nat.add_mul_div_left _ _ hc, Nat.add_mod_right, Nat.add_zero]
  rw [sum_range_add (F := fun t => if t / c % n = j then 1 else 0) hperiod, Nat.zero_mul,
    Nat.add_zero]
  have hblocks : ((List.range (c * n)).map fun t => if t / c % n = j then 1 else 0) =
      (List.range (c * n)).map fun t => if t / c = j then 1 else 0 := by
    refine List.map_congr_left ?_
    intro t ht
    rw [Nat.mod_eq_of_lt (Nat.div_lt_of_lt_mul (List.mem_range.1 ht))]
  rw [hblocks, sum_range_div hc hj]

/-- The window that begins at `d` has, divided by its length, the sum `d`. -/
lemma sum_range_add_div (hm : 0 < m) (d : Nat) :
    ((List.range m).map fun t => (d + t) / m).sum = d := by
  have hzero : ((List.range m).map fun t => t / m).sum = 0 := by
    rw [List.sum_eq_zero]
    intro x hx
    obtain ⟨t, ht, rfl⟩ := List.mem_map.1 hx
    exact Nat.div_eq_of_lt (List.mem_range.1 ht)
  rw [sum_range_add (F := fun t => t / m) (fun t => Nat.add_div_right t hm), hzero, Nat.zero_add,
    Nat.one_mul]

end Sums

namespace Graph

variable {τ : Type} {g h : Graph τ} {grouping : Grouping} {b : Nat} {e : Edge}

/-! ## Sums over derived edges -/

/-- The edges that an edge is expanded into. -/
def derivedFrom (h : Graph τ) (b : Nat) : List Edge := h.edges.toList.filter (·.base == some b)

lemma sum_filter_map {α : Type} (p : α → Bool) (f : α → Nat) (l : List α) :
    ((l.filter p).map f).sum = (l.map fun x => if p x then f x else 0).sum := by
  induction l with
  | nil => rfl
  | cons x l ih => by_cases hx : p x <;> simp [hx, ih]

lemma filter_arcs (h : Graph τ) (b : Nat) :
    h.arcs.filter (·.base == some b) =
      (h.derivedFrom b).flatMap fun e => List.replicate e.production e.arc := by
  rw [arcs, derivedFrom]
  induction h.edges.toList with
  | nil => rfl
  | cons e l ih =>
    have hbase : e.arc.base = e.base := rfl
    by_cases he : e.base == some b <;>
      simp only [List.flatMap_cons, List.filter_append, List.filter_replicate, hbase, he, ih,
        List.filter_cons] <;> simp

lemma sum_map_flatMap_arc (w : Arc → Nat) (l : List Edge) :
    ((l.flatMap fun e => List.replicate e.production e.arc).map w).sum =
      (l.map fun e => e.production * w e.arc).sum := by
  induction l with
  | nil => rfl
  | cons e l ih => simp [ih]

variable [Clock τ]

/-- What the tokens of the derived edges weigh together is what the tokens weigh that the edge sends
in an iteration. -/
theorem Expanded.sum_derivedFrom (hh : Expanded grouping g h) (he : g.edges[b]? = some e)
    (w : Arc → Nat) :
    ((h.derivedFrom b).map fun e' => e'.production * w e'.arc).sum =
      ((List.range (e.production * g.repetitions e.source)).map fun n =>
        w (Expansion.tokenArc g b e n)).sum := by
  rw [← sum_map_flatMap_arc, ← filter_arcs, hh.arcs_eq, filter_tokenArcs he, Expansion.edgeArcs,
    List.map_map]
  rfl

lemma Expanded.sum_production (hh : Expanded grouping g h) (he : g.edges[b]? = some e)
    (p : Arc → Bool) :
    (((h.derivedFrom b).filter fun e' => p e'.arc).map Edge.production).sum =
      ((List.range (e.production * g.repetitions e.source)).map fun n =>
        if p (Expansion.tokenArc g b e n) then 1 else 0).sum := by
  rw [← hh.sum_derivedFrom he fun arc => if p arc then 1 else 0, sum_filter_map]
  simp only [mul_ite, Nat.mul_one, Nat.mul_zero]

omit [Clock τ] in
lemma mem_of_mem_derivedFrom {e' : Edge} (he' : e' ∈ h.derivedFrom b) : e' ∈ h.edges :=
  Array.mem_toList_iff.1 (List.mem_filter.1 he').1

omit [Clock τ] in
/-- The instance for a firing has only one number. -/
lemma IsInstance.eq_firstInstance {x a i : Nat} (hactors : h.actors = Expansion.instances g)
    (hx : g.IsInstance h x a i) : x = Expansion.firstInstance g a + i := by
  obtain ⟨a', i', rfl, actor', _, _, hactor'⟩ := Expansion.exists_isInstance hactors hx.lt_size
  obtain ⟨actor, _, _, hactor⟩ := hx
  have heq : actor.instance a i = actor'.instance a' i' :=
    Option.some.inj (hactor.symm.trans hactor')
  obtain rfl : a = a' := Option.some.inj (congrArg Actor.base heq)
  obtain rfl : i = i' := (Actor.name_instance_inj (congrArg Actor.name heq)).2
  rfl

/-- **Conservation.**  In an expansion of a balanced graph, the derived edges of an edge that leave
one instance of its source put in together what a firing of the source puts in, those that enter one
instance of its target take out together what a firing of the target takes out, and all of them hold
together as many initial tokens as the edge. -/
theorem expand_conserves (hbalanced : g.Balanced) (hh : g.expand grouping = .ok h)
    (he : g.edges[b]? = some e) :
    (∀ x i, g.IsInstance h x e.source i →
      (((h.derivedFrom b).filter (·.source == x)).map Edge.production).sum = e.production) ∧
    (∀ x j, g.IsInstance h x e.target j →
      (((h.derivedFrom b).filter (·.target == x)).map Edge.consumption).sum = e.consumption) ∧
    ((h.derivedFrom b).map Edge.delay).sum = e.delay := by
  have hh := expanded_of_expand hh
  have hmem := Array.mem_of_getElem? he
  have hp := hh.wellFormed.production_pos e hmem
  have hc := hh.wellFormed.consumption_pos e hmem
  have htokens : e.production * g.repetitions e.source = e.consumption * g.repetitions e.target :=
    hbalanced e hmem
  refine ⟨?_, ?_, ?_⟩
  · intro x i hx
    refine (hh.sum_production he (·.source == x)).trans ?_
    rw [hx.eq_firstInstance hh.actors]
    simp only [Expansion.tokenArc, Expansion.arcBetween, beq_iff_eq, Nat.add_left_cancel_iff]
    exact sum_range_div hp hx.lt_repetitions
  · intro x j hx
    have hrates : ((h.derivedFrom b).filter (·.target == x)).map Edge.consumption =
        ((h.derivedFrom b).filter (·.target == x)).map Edge.production := by
      refine List.map_congr_left ?_
      intro e' he'
      exact (hh.uniform (mem_of_mem_derivedFrom (List.mem_filter.1 he').1)).consumption_eq
    rw [hrates]
    refine (hh.sum_production he (·.target == x)).trans ?_
    rw [hx.eq_firstInstance hh.actors, htokens]
    simp only [Expansion.tokenArc, Expansion.arcBetween, beq_iff_eq, Nat.add_left_cancel_iff,
      Edge.reader]
    exact sum_range_div_mod hc hx.lt_repetitions e.delay
  · have hweights := hh.sum_derivedFrom he Arc.lag
    have hleft : ((h.derivedFrom b).map fun e' => e'.production * e'.arc.lag) =
        (h.derivedFrom b).map Edge.delay := by
      refine List.map_congr_left ?_
      intro e' he'
      exact Nat.mul_div_cancel' (hh.uniform (mem_of_mem_derivedFrom he')).dvd_delay
    have hreaders := hh.wellFormed.repetitions_pos (g.closed e hmem).2
    rw [← hleft, hweights, htokens]
    simp only [Expansion.tokenArc, Expansion.arcBetween, Edge.reader, Nat.div_div_eq_div_mul]
    exact sum_range_add_div (Nat.mul_pos hc hreaders) e.delay

/-- The runs of the second edge of the pair put in six tokens at the second instance of its source,
take out four at the first instance of its target, and hold four tokens. -/
theorem parallelPair_conserves :
    (parallelPair 4 6).Balanced ∧ ∃ h, (parallelPair 4 6).expand .runs = .ok h ∧
      (parallelPair 4 6).IsInstance h 1 0 1 ∧
      (((h.derivedFrom 1).filter (·.source == 1)).map Edge.production).sum = 6 ∧
      (parallelPair 4 6).IsInstance h 2 1 0 ∧
      (((h.derivedFrom 1).filter (·.target == 2)).map Edge.consumption).sum = 4 ∧
      ((h.derivedFrom 1).map Edge.delay).sum = 4 := by
  have hbalanced := balanced_parallelPair 4 6
  obtain ⟨h, hh, _⟩ := exists_of_any_ok (x := (parallelPair 4 6).expand .runs)
    (p := fun _ => true) (by cbv)
  have hactors := (expanded_of_expand hh).actors
  have hsource : (parallelPair 4 6).IsInstance h 1 0 1 :=
    Expansion.isInstance_firstInstance hactors (a := 0) (by decide)
  have htarget : (parallelPair 4 6).IsInstance h 2 1 0 :=
    Expansion.isInstance_firstInstance hactors (a := 1) (by decide)
  obtain ⟨hproduced, hconsumed, hdelays⟩ := expand_conserves hbalanced hh (b := 1) rfl
  exact ⟨hbalanced, h, hh, hsource, hproduced 1 1 hsource, htarget, hconsumed 2 0 htarget, hdelays⟩

end Graph

end Dataflow

import Dataflow.Hierarchy.Containment
import Dataflow.Proofs.Attempt
import Mathlib.Data.List.Chain
import Mathlib.Data.List.Nodup
import Mathlib.Logic.Relation

/-!
# Graphs that contain themselves

The search for a graph that contains itself marks every graph and keeps those that it is in the
midst of on a stack.  Each graph on the stack refers to the one above it; of its other references,
some are still pending and the rest lead to graphs that are done.  Graphs that are done are
*grounded*: following references from them always comes to an end.  Where a reference leads back to
the stack, the part of the stack from there on is a circuit.

* `Design.Acyclic` — no graph is reached from itself along references.
* `Containment.Search.Sound` — the marks and the stack of a search fit together, and graphs that are
  done are grounded.
* `Containment.Search.Sound.step`, `Containment.Search.exists_run` — a step keeps this, and what
  steps keep holds where the search ends.
* `Containment.Search.Sound.roots_error`, `Containment.Search.Sound.roots_ok` — a search from some
  graphs reports a circuit or visits all of them.
* **`Design.checkContainment_acyclic`** — the check in full, and what it means for a whole design.
-/

namespace Dataflow

namespace Design

variable {τ : Type} {d : Design τ} {x y : Fin d.graphs.size}

/-! ## References -/

lemma mem_refinements {g : Graph τ} {i n : Nat} :
    (i, n) ∈ refinements g ↔ ∃ a, g.actors[i]? = some a ∧ a.refinement? = some n := by
  simp only [refinements, List.mem_filterMap, Option.map_eq_some_iff, Prod.mk.injEq]
  constructor
  · rintro ⟨⟨a, j⟩, hmem, m, hm, rfl, rfl⟩
    exact ⟨a, by simpa [List.mem_zipIdx_iff_getElem?] using hmem, hm⟩
  · rintro ⟨a, ha, hn⟩
    exact ⟨(a, i), by simpa [List.mem_zipIdx_iff_getElem?] using ha, n, hn, rfl, rfl⟩

lemma exists_mem_refinements {g : Graph τ} {n : Nat} :
    (∃ i, (i, n) ∈ refinements g) ↔ ∃ a ∈ g.actors, a.refinement? = some n := by
  simp only [mem_refinements]
  constructor
  · rintro ⟨i, a, ha, hn⟩
    exact ⟨a, Array.mem_of_getElem? ha, hn⟩
  · rintro ⟨a, ha, hn⟩
    obtain ⟨i, hi⟩ := Array.getElem?_of_mem ha
    exact ⟨i, a, hi, hn⟩

/-- The references of a graph are found by following each of its hierarchical actors. -/
lemma mem_references : y ∈ d.references x ↔ d.Refers x y := by
  have hchildren : d.children x = refinements (d.graph x) := by
    simp [children, graph]
  rw [Refers, ← exists_mem_refinements, references, List.mem_eraseDups, List.mem_filterMap,
    hchildren]
  constructor
  · rintro ⟨⟨i, n⟩, hmem, hn⟩
    by_cases h : n < d.graphs.size
    · simp only [h, dite_true, Option.some.injEq] at hn
      exact ⟨i, hn ▸ hmem⟩
    · simp [h] at hn
  · rintro ⟨i, hmem⟩
    exact ⟨(i, y.val), hmem, by simp⟩

/-! ## Grounded graphs and circuits -/

/-- No graph is reached from itself along references. -/
def Acyclic (d : Design τ) : Prop := ∀ x, ¬ Relation.TransGen d.Refers x x

/-- Following references from a graph always comes to an end. -/
def Grounded (d : Design τ) : Fin d.graphs.size → Prop := Acc (Function.swap d.Refers)

lemma Grounded.not_transGen (h : d.Grounded x) : ¬ Relation.TransGen d.Refers x x := by
  intro hcircuit
  have hswap : Relation.TransGen (Function.swap d.Refers) x x := Relation.transGen_swap.2 hcircuit
  have hacc : Acc (Relation.TransGen (Function.swap d.Refers)) x := Acc.transGen h
  clear h hcircuit
  induction hacc with
  | intro z _ ih => exact ih z hswap hswap

/-- The graphs are distinct but for the last, which is the first again, and each refers to the
next. -/
structure IsCircuit (d : Design τ) (x : Fin d.graphs.size) (rest : List (Fin d.graphs.size)) :
    Prop where
  nodup : (x :: rest).Nodup
  isChain : (x :: rest ++ [x]).IsChain d.Refers

lemma IsCircuit.transGen {rest : List (Fin d.graphs.size)} (h : d.IsCircuit x rest) :
    Relation.TransGen d.Refers x x := by
  have hall := List.isChain_iff_pairwise.1 (h.isChain.imp fun _ _ => Relation.TransGen.single)
  rw [List.cons_append, List.pairwise_cons] at hall
  exact hall.1 x (by simp)

end Design

/-! ## The search -/

namespace Containment.Search

variable {τ : Type} {d : Design τ} {s s' : Search d} {marks marks' : Marks d.graphs.size}
  {stack : List (Frame d)} {x y : Fin d.graphs.size} {above pending : List (Fin d.graphs.size)}

/-- The references of all graphs on a stack are accounted for.  A reference from a graph is pending,
or leads to a graph that is done, or is the one that was followed to the graph above. -/
def Accounts (marks : Marks d.graphs.size) : List (Fin d.graphs.size) → List (Frame d) → Prop
  | _, [] => True
  | above, f :: stack =>
    (∀ y ∈ above, d.Refers f.graph y) ∧
      (∀ y, d.Refers f.graph y → y ∈ f.pending ∨ marks.get y = .done ∨ y ∈ above) ∧
      Accounts marks [f.graph] stack

/-- What holds of a search before it turns to the graph above the stack, if there is one: the graphs
on the stack are those that are marked so, their references are accounted for, and graphs that are
done are grounded. -/
structure Sound (above : List (Fin d.graphs.size)) (s : Search d) : Prop where
  nodup : (s.stack.map Frame.graph).Nodup
  mem_stack : ∀ x, x ∈ s.stack.map Frame.graph ↔ s.marks.get x = .onStack
  refers : ∀ f ∈ s.stack, ∀ y ∈ f.pending, d.Refers f.graph y
  accounts : Accounts s.marks above s.stack
  grounded : ∀ x, s.marks.get x = .done → d.Grounded x

/-! ### The references on the stack -/

lemma Accounts.mono (hmarks : ∀ y : Fin d.graphs.size, marks.get y = .done → marks'.get y = .done) :
    ∀ {above : List (Fin d.graphs.size)} {stack : List (Frame d)},
      Accounts marks above stack → Accounts marks' above stack
  | _, [], _ => trivial
  | _, _ :: _, ⟨habove, hcovers, hstack⟩ =>
    ⟨habove, fun y hy => (hcovers y hy).imp_right (Or.imp_left (hmarks y)), hstack.mono hmarks⟩

/-- When the graph above is done, its mark accounts for the reference to it. -/
lemma Accounts.close (hx : marks.get x = .done) : ∀ {stack : List (Frame d)},
    Accounts marks [x] stack → Accounts marks [] stack
  | [], _ => trivial
  | _ :: _, ⟨_, hcovers, hstack⟩ => by
      refine ⟨by simp, fun y hy => ?_, hstack⟩
      rcases hcovers y hy with hpending | hdone | habove
      · exact .inl hpending
      · exact .inr (.inl hdone)
      · exact .inr (.inl (List.mem_singleton.1 habove ▸ hx))

/-- The next reference is followed to the graph that is above then. -/
lemma Accounts.follow (hxy : d.Refers x y) (h : Accounts marks [] (⟨x, y :: pending⟩ :: stack)) :
    Accounts marks [y] (⟨x, pending⟩ :: stack) := by
  obtain ⟨_, hcovers, hstack⟩ := h
  refine ⟨by simpa using hxy, fun z hz => ?_, hstack⟩
  rcases hcovers z hz with hpending | hdone | hnone
  · rcases List.mem_cons.1 hpending with rfl | hpending
    · exact .inr (.inr (List.mem_singleton_self z))
    · exact .inl hpending
  · exact .inr (.inl hdone)
  · cases hnone

/-- Each graph on the stack refers to the one above it. -/
lemma Accounts.isChain : ∀ {above : List (Fin d.graphs.size)} {stack : List (Frame d)},
    Accounts marks above stack →
      ∀ y ∈ above, (y :: stack.map Frame.graph).IsChain (Function.swap d.Refers)
  | _, [], _, y, _ => .singleton y
  | _, _ :: _, ⟨habove, _, hstack⟩, y, hy =>
    .cons_cons (habove y hy) (hstack.isChain _ (List.mem_singleton_self _))

/-! ### One step -/

@[simp] lemma graph_opened : (Frame.opened x : Frame d).graph = x := rfl

@[simp] lemma marks_visit : (Search.visit marks x stack).marks = marks.set x .onStack := rfl

/-- The graph on top is done when none of its references is pending. -/
lemma Sound.close (h : Sound [] ⟨marks, ⟨x, []⟩ :: stack⟩) :
    Sound [] ⟨marks.set x .done, stack⟩ := by
  obtain ⟨hnodup, hmem, hrefers, ⟨_, hcovers, hbelow⟩, hgrounded⟩ := h
  obtain ⟨hx, hnodup⟩ := List.nodup_cons.1 hnodup
  have hxGrounded : d.Grounded x := ⟨x, fun y hy => hgrounded y (by simpa using hcovers y hy)⟩
  refine ⟨hnodup, fun y => ?_, fun f hf => hrefers f (List.mem_cons_of_mem _ hf),
    (hbelow.mono fun y hy => ?_).close ?_, fun y hy => ?_⟩
  · have hy := hmem y
    rw [Marks.get_set]
    split
    case isTrue hxy =>
      subst hxy
      simpa using hx
    case isFalse hxy => simpa [Ne.symm hxy] using hy
  · rw [Marks.get_set, hy, ite_self]
  · rw [Marks.get_set, if_pos rfl]
  · rw [Marks.get_set] at hy
    split at hy
    case isTrue hxy => exact hxy ▸ hxGrounded
    case isFalse => exact hgrounded y hy

/-- The next reference is followed to the graph that is above then. -/
lemma Sound.follow (h : Sound [] ⟨marks, ⟨x, y :: pending⟩ :: stack⟩) :
    Sound [y] ⟨marks, ⟨x, pending⟩ :: stack⟩ := by
  obtain ⟨hx, hrefers⟩ := List.forall_mem_cons.1 h.refers
  obtain ⟨hxy, hpending⟩ := List.forall_mem_cons.1 hx
  exact ⟨h.nodup, h.mem_stack, List.forall_mem_cons.2 ⟨hpending, hrefers⟩, h.accounts.follow hxy,
    h.grounded⟩

/-- The graph above has not been visited. -/
lemma Sound.visit (h : Sound [y] ⟨marks, stack⟩) (hy : marks.get y = .unvisited) :
    Sound [] (Search.visit marks y stack) := by
  have hnotMem : y ∉ stack.map Frame.graph := by
    rw [h.mem_stack, hy]
    simp
  have hne : ∀ z : Fin d.graphs.size, marks.get z = .done → y ≠ z := by
    rintro z hz rfl
    rw [hy] at hz
    cases hz
  refine ⟨List.nodup_cons.2 ⟨hnotMem, h.nodup⟩, fun z => ?_,
    List.forall_mem_cons.2 ⟨fun z hz => ?_, h.refers⟩,
    ⟨by simp, fun z hz => .inl ?_, h.accounts.mono fun z hz => ?_⟩, fun z hz => ?_⟩
  · have hz := h.mem_stack z
    rw [marks_visit, Marks.get_set]
    split
    case isTrue hyz => simp [Search.visit, hyz]
    case isFalse hyz => simpa [Search.visit, Ne.symm hyz] using hz
  · exact Design.mem_references.1 (List.mem_reverse.1 hz)
  · exact List.mem_reverse.2 (Design.mem_references.2 hz)
  · rw [marks_visit, Marks.get_set, if_neg (hne z hz), hz]
  · rw [marks_visit, Marks.get_set] at hz
    split at hz
    case isTrue => cases hz
    case isFalse => exact h.grounded z hz

/-- The graph above is done. -/
lemma Sound.skip (h : Sound [y] ⟨marks, stack⟩) (hy : marks.get y = .done) :
    Sound [] ⟨marks, stack⟩ :=
  { h with accounts := h.accounts.close hy }

/-- A step keeps a search sound. -/
theorem Sound.step (h : Sound [] s) (hstep : s.step = .inr s') : Sound [] s' := by
  cases moves_of_step hstep with
  | close => exact h.close
  | visit unvisited => exact h.follow.visit unvisited
  | skip done => exact h.follow.skip done

/-- A reference to a graph on the stack closes a circuit. -/
lemma Sound.circuit (h : Sound [y] ⟨marks, stack⟩) (hy : marks.get y = .onStack) :
    ∃ rest, Search.circuit stack y = y :: rest ++ [y] ∧ d.IsCircuit y rest := by
  have hmem : y ∈ (stack.map Frame.graph).reverse := by
    rw [List.mem_reverse, h.mem_stack, hy]
  have hnodup : (stack.map Frame.graph).reverse.Nodup := List.nodup_reverse.2 h.nodup
  have hchain : ((stack.map Frame.graph).reverse ++ [y]).IsChain d.Refers := by
    simpa using List.isChain_reverse.2 (h.accounts.isChain y (List.mem_singleton_self y))
  rw [Search.circuit]
  generalize (stack.map Frame.graph).reverse = path at hmem hnodup hchain
  obtain ⟨i, hi⟩ := Option.isSome_iff_exists.1 (List.isSome_idxOf?.2 hmem)
  obtain ⟨hlt, hget, _⟩ := List.idxOf?_eq_some_iff.1 hi
  have hdrop : path.drop i = y :: path.drop (i + 1) := by rw [List.drop_eq_getElem_cons hlt, hget]
  refine ⟨path.drop (i + 1), by rw [hi, Option.getD_some, hdrop], ?_, ?_⟩
  · rw [← hdrop]
    exact hnodup.sublist (List.drop_sublist i path)
  · rw [← hdrop, ← List.drop_append_of_le_length hlt.le]
    exact hchain.drop i

/-- A search that a step ends with a circuit. -/
lemma exists_of_step_eq_error {way : Way d} (hstep : s.step = .inl (.error way)) :
    ∃ marks x y pending stack, s = ⟨marks, ⟨x, y :: pending⟩ :: stack⟩ ∧ marks.get y = .onStack ∧
      way = Search.circuit (⟨x, pending⟩ :: stack) y := by
  unfold step at hstep
  split at hstep
  case h_1 => cases hstep
  case h_2 => cases hstep
  case h_3 marks x y pending stack =>
    split at hstep
    · cases hstep
    · rename_i onStack
      cases hstep
      exact ⟨marks, x, y, pending, stack, rfl, onStack, rfl⟩
    · cases hstep

/-- A search that a step ends with its marks. -/
lemma eq_of_step_eq_ok (hstep : s.step = .inl (.ok marks)) : s = ⟨marks, []⟩ := by
  unfold step at hstep
  split at hstep
  case h_1 =>
    cases hstep
    rfl
  case h_2 => cases hstep
  case h_3 => split at hstep <;> cases hstep

lemma visited_of_step (hstep : s.step = .inr s') (hx : s.marks.get x ≠ .unvisited) :
    s'.marks.get x ≠ .unvisited := by
  cases moves_of_step hstep with
  | close =>
    rw [Marks.get_set]
    split <;> simp_all
  | visit =>
    rw [marks_visit, Marks.get_set]
    split <;> simp_all
  | skip => exact hx

/-! ### All steps -/

/-- What every step keeps holds where the search ends. -/
theorem exists_run {P : Search d → Prop} (hP : ∀ s s', P s → s.step = .inr s' → P s') (s : Search d)
    (hs : P s) : ∃ s', P s' ∧ s'.step = .inl s.run := by
  fun_induction run s with
  | case1 s result hstep => exact ⟨s, hs, hstep⟩
  | case2 s s' hstep ih => exact ih (hP s s' hs hstep)

lemma Sound.run_error (h : Sound [] s) {way : Way d} (herror : s.run = .error way) :
    ∃ x rest, way = x :: rest ++ [x] ∧ d.IsCircuit x rest := by
  obtain ⟨s', hs', hend⟩ := exists_run (P := Sound []) (fun _ _ => Sound.step) s h
  rw [herror] at hend
  obtain ⟨marks, x, y, pending, stack, rfl, hy, rfl⟩ := exists_of_step_eq_error hend
  exact ⟨y, hs'.follow.circuit hy⟩

lemma Sound.run_ok (h : Sound [] s) (hok : s.run = .ok marks) :
    Sound [] ⟨marks, []⟩ ∧ ∀ x : Fin d.graphs.size, s.marks.get x ≠ .unvisited →
      marks.get x ≠ .unvisited := by
  obtain ⟨s', ⟨hsound, hvisited⟩, hend⟩ := exists_run
    (P := fun m => Sound [] m ∧ ∀ x : Fin d.graphs.size, s.marks.get x ≠ .unvisited →
      m.marks.get x ≠ .unvisited)
    (fun _ _ ⟨hm, hvisited⟩ hstep =>
      ⟨hm.step hstep, fun x hx => visited_of_step hstep (hvisited x hx)⟩) s ⟨h, fun _ hx => hx⟩
  rw [hok] at hend
  obtain rfl := eq_of_step_eq_ok hend
  exact ⟨hsound, hvisited⟩

/-! ### All roots -/

/-- A root that has not been visited is like a graph above an empty stack. -/
lemma Sound.visit_root (h : Sound [] ⟨marks, []⟩) (hx : marks.get x = .unvisited) :
    Sound [] (Search.visit marks x []) :=
  Sound.visit { h with accounts := trivial } hx

lemma Sound.explore_error {way : Way d} (h : Sound [] ⟨marks, []⟩)
    (herror : explore marks x = .error way) :
    ∃ y rest, way = y :: rest ++ [y] ∧ d.IsCircuit y rest := by
  rw [explore] at herror
  split at herror
  case isTrue hx => exact (h.visit_root hx).run_error herror
  case isFalse => cases herror

lemma Sound.explore_ok (h : Sound [] ⟨marks, []⟩) (hok : explore marks x = .ok marks') :
    Sound [] ⟨marks', []⟩ ∧ ∀ y : Fin d.graphs.size, x = y ∨ marks.get y ≠ .unvisited →
      marks'.get y ≠ .unvisited := by
  rw [explore] at hok
  split at hok
  case isTrue hx =>
    obtain ⟨hsound, hvisited⟩ := (h.visit_root hx).run_ok hok
    refine ⟨hsound, fun y hy => hvisited y ?_⟩
    rw [marks_visit, Marks.get_set]
    split
    case isTrue => simp
    case isFalse hne => exact hy.resolve_left hne
  case isFalse hx =>
    cases hok
    refine ⟨h, fun y hy => ?_⟩
    rcases hy with rfl | hy
    · exact hx
    · exact hy

/-- What is reported from some root is a circuit. -/
theorem Sound.roots_error {way : Way d} :
    ∀ {roots : List (Fin d.graphs.size)} {marks : Marks d.graphs.size},
      Sound [] ⟨marks, []⟩ → roots.foldlM explore marks = .error way →
        ∃ x rest, way = x :: rest ++ [x] ∧ d.IsCircuit x rest
  | [], _, _, herror => by cases herror
  | x :: roots, marks, h, herror => by
      rw [List.foldlM_cons, bind_eq_error] at herror
      rcases herror with hfirst | ⟨marks', hfirst, hrest⟩
      · exact h.explore_error hfirst
      · exact (h.explore_ok hfirst).1.roots_error hrest

/-- A search from some roots visits all of them. -/
theorem Sound.roots_ok :
    ∀ {roots : List (Fin d.graphs.size)} {marks : Marks d.graphs.size},
      Sound [] ⟨marks, []⟩ → roots.foldlM explore marks = .ok marks' →
        Sound [] ⟨marks', []⟩ ∧ ∀ x : Fin d.graphs.size, x ∈ roots ∨ marks.get x ≠ .unvisited →
          marks'.get x ≠ .unvisited
  | [], marks, h, hok => by
      rw [List.foldlM_nil, pure_eq_ok] at hok
      subst hok
      exact ⟨h, fun x hx => hx.resolve_left List.not_mem_nil⟩
  | x :: roots, marks, h, hok => by
      rw [List.foldlM_cons, bind_eq_ok] at hok
      obtain ⟨marks₁, hfirst, hrest⟩ := hok
      obtain ⟨hsound, hvisited⟩ := h.explore_ok hfirst
      obtain ⟨hsound', hvisited'⟩ := hsound.roots_ok hrest
      refine ⟨hsound', fun y hy => hvisited' y ?_⟩
      rw [List.mem_cons, or_right_comm, @eq_comm _ y x] at hy
      exact hy.symm.imp_right (hvisited y)

lemma sound_unvisited : Sound [] (⟨.unvisited _, []⟩ : Search d) := by
  refine ⟨List.nodup_nil, ?_, by simp, trivial, ?_⟩ <;> simp [Marks.get_unvisited]

/-- After a search from all graphs, all of them are grounded. -/
lemma grounded_of_roots_ok
    (hok : (List.finRange d.graphs.size).foldlM explore (.unvisited _) = .ok marks)
    (x : Fin d.graphs.size) : d.Grounded x := by
  obtain ⟨hsound, hvisited⟩ := sound_unvisited.roots_ok hok
  refine hsound.grounded x ?_
  have honStack := hsound.mem_stack x
  have hx := hvisited x (.inl (List.mem_finRange x))
  cases hmark : marks.get x with
  | unvisited => exact absurd hmark hx
  | onStack => simp [hmark] at honStack
  | done => rfl

end Containment.Search

/-! ## The check -/

namespace Design

variable {τ : Type} {d : Design τ}

lemma checkContainment_eq_error {failure : Failure τ}
    (h : d.checkContainment = .error failure) :
    ∃ x rest, d.IsCircuit x rest ∧
      failure = .selfContaining ((x :: rest ++ [x]).map d.graphName) := by
  rw [checkContainment] at h
  split at h
  · cases h
  · rename_i way hway
    obtain rfl := Except.error.inj h
    obtain ⟨x, rest, rfl, hcircuit⟩ := Containment.Search.sound_unvisited.roots_error hway
    exact ⟨x, rest, hcircuit, rfl⟩

lemma checkContainment_eq_ok_iff : d.checkContainment = .ok () ↔ d.Acyclic := by
  constructor
  · intro h x
    rw [checkContainment] at h
    split at h
    · rename_i marks hmarks
      exact (Containment.Search.grounded_of_roots_ok hmarks x).not_transGen
    · cases h
  · intro h
    cases hcheck : d.checkContainment with
    | ok => rfl
    | error failure =>
      obtain ⟨x, rest, hcircuit, _⟩ := checkContainment_eq_error hcheck
      exact absurd hcircuit.transGen (h x)

lemma missingRefinement?_eq_none_iff {g : Graph τ} :
    d.missingRefinement? g = none ↔
      ∀ a ∈ g.actors, ∀ n, a.refinement? = some n → n < d.graphs.size := by
  simp only [missingRefinement?, List.findSome?_eq_none_iff, Prod.forall, ite_eq_left_iff,
    reduceCtorEq, imp_false, not_not, contains, decide_eq_true_eq]
  constructor
  · intro h a ha n hn
    obtain ⟨i, hmem⟩ := exists_mem_refinements.2 ⟨a, ha, hn⟩
    exact h i n hmem
  · intro h i n hmem
    obtain ⟨a, ha, hn⟩ := exists_mem_refinements.1 ⟨i, hmem⟩
    exact h a ha n hn

variable [Clock τ]

lemma validateGraph_eq_ok_iff {g : Graph τ} :
    d.validateGraph g = .ok () ↔ g.validate = .ok () ∧ d.missingRefinement? g = none := by
  rw [validateGraph, check_bind_eq_ok]
  cases d.missingRefinement? g with
  | none => simp only [pure_eq_ok]
  | some defect => simp

lemma validate_eq_ok_iff :
    d.validate = .ok () ↔ (∀ g ∈ d.graphs, d.validateGraph g = .ok ()) ∧ d.Acyclic := by
  rw [validate, check_bind_eq_ok, ← checkContainment_eq_ok_iff]
  simp only [← Array.mem_toList_iff, ← forM_eq_ok]

/-- **Containment.**  The check of a design ends in one of two ways, whatever its graphs refer to:
it accepts exactly the designs in which no graph is reached from itself, and it refuses all others
with the names on a circuit, from a graph through distinct graphs back to it, each of which refers
to the next.  So a design is valid exactly if its graphs are, if every reference leads to a graph,
and if no graph is reached from itself. -/
theorem checkContainment_acyclic :
    (d.checkContainment = .ok () ↔ ∀ x, ¬ Relation.TransGen d.Refers x x) ∧
    (∀ failure, d.checkContainment = .error failure →
      ∃ x rest, (x :: rest).Nodup ∧ (x :: rest ++ [x]).IsChain d.Refers ∧
        failure = .selfContaining ((x :: rest ++ [x]).map d.graphName)) ∧
    (d.validate = .ok () ↔
      (∀ g ∈ d.graphs, g.validate = .ok ()) ∧
      (∀ g ∈ d.graphs, ∀ a ∈ g.actors, ∀ n, a.refinement? = some n → n < d.graphs.size) ∧
      ∀ x, ¬ Relation.TransGen d.Refers x x) := by
  refine ⟨checkContainment_eq_ok_iff, ?_, ?_⟩
  · intro failure h
    obtain ⟨x, rest, hcircuit, hfailure⟩ := checkContainment_eq_error h
    exact ⟨x, rest, hcircuit.nodup, hcircuit.isChain, hfailure⟩
  · simp only [validate_eq_ok_iff, validateGraph_eq_ok_iff, missingRefinement?_eq_none_iff,
      forall_and, and_assoc]
    rfl

/-- A graph with an actor for each graph that it refers to. -/
def referring (name : String) (refinements : List Nat) : Graph Unit where
  name := name
  actors := (refinements.map fun y => ⟨name, .hierarchical y, 1, (), none, none⟩).toArray
  edges := #[]
  closed := by simp

/-- Two graphs contain each other, below a graph that refers to one of them and to a leaf. -/
def entangled : Design Unit :=
  ⟨#[referring "top" [2, 1, 2], referring "leaf" [], referring "left" [3, 1],
    referring "right" [2]], 0⟩

example : entangled.checkContainment = .error (.selfContaining ["left", "right", "left"]) := by cbv

end Design

end Dataflow

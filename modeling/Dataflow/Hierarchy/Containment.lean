import Dataflow.Graph.WellFormed
import Dataflow.Hierarchy.Design

/-!
# Containment

A graph refers to another one if one of its hierarchical actors stands for it.  In a sound design no
graph is reached from itself along such references.

* `Design.Refers` — the relation between the graphs of a design.
* `Containment.Marks` — how far a search has come with every graph.
* `Containment.Search` — a depth-first search along the relation: the marks, and a stack of graphs
  with the references from them that are still to be followed.
* `Containment.Search.step`, `Containment.Search.run` — one step, and all steps until the stack is
  empty or a graph refers to one on it.  Every step leaves less to be done
  (`Containment.Search.measure_lt_of_step`).
* `Design.checkContainment` — the search from every graph; it fails with the names of the graphs on
  the way, from the first back to the first.
* **`Design.validate`** — every graph is well-formed, every reference leads to a graph, and no graph
  contains itself.
-/

namespace Dataflow

namespace Design

variable {τ : Type}

/-- The graph `x` has a hierarchical actor that stands for the graph `y` of the design. -/
def Refers (d : Design τ) (x y : Fin d.graphs.size) : Prop :=
  ∃ a ∈ (d.graph x).actors, a.refinement? = some y.val

/-- The graphs that a graph refers to, each once, in the order of the actors. -/
def references (d : Design τ) (x : Fin d.graphs.size) : List (Fin d.graphs.size) :=
  ((d.children x).filterMap fun (_, y) =>
    if h : y < d.graphs.size then some ⟨y, h⟩ else none).eraseDups

/-- The name of a graph of the design. -/
def graphName (d : Design τ) (x : Fin d.graphs.size) : String := (d.graph x).name

end Design

namespace Containment

/-- How far the search has come with a graph. -/
inductive Mark where
  | unvisited
  /-- The graph is on the way to the place of the search. -/
  | onStack
  /-- All that the graph contains has been visited. -/
  | done
  deriving DecidableEq, Repr

/-- The marks of some graphs. -/
abbrev Marks (graphs : Nat) := Vector Mark graphs

namespace Marks

variable {graphs : Nat} {marks : Marks graphs} {x y : Fin graphs} {m : Mark}

/-- The marks before the search. -/
def unvisited (graphs : Nat) : Marks graphs := Vector.replicate graphs .unvisited

/-- The mark of a graph. -/
def get (marks : Marks graphs) (x : Fin graphs) : Mark := marks[x]

/-- Marks a graph. -/
def set (marks : Marks graphs) (x : Fin graphs) (m : Mark) : Marks graphs := Vector.set marks x m

theorem get_unvisited : (unvisited graphs).get x = .unvisited := by
  simp [get, unvisited]

theorem get_set : (marks.set x m).get y = if x = y then m else marks.get y := by
  simp [get, set, Vector.getElem_set, Fin.ext_iff]

theorem count_set_done_le : (marks.set x .done).count .unvisited ≤ marks.count .unvisited := by
  rw [set, Vector.count_set]
  simp

theorem count_set_onStack_lt (hx : marks.get x = .unvisited) :
    (marks.set x .onStack).count .unvisited < marks.count .unvisited := by
  rw [get] at hx
  have hpos : 0 < marks.count .unvisited := Vector.count_pos_iff.2 (hx ▸ Vector.getElem_mem x.isLt)
  rw [Fin.getElem_fin] at hx
  rw [set, Vector.count_set, hx]
  exact Nat.sub_lt hpos Nat.one_pos

end Marks

variable {τ : Type}

/-- The graphs that lead from one to another, both of them included. -/
abbrev Way (d : Design τ) := List (Fin d.graphs.size)

variable {d : Design τ}

/-- A graph on the stack, with the references that are still to be followed, the next one first. -/
structure Frame (d : Design τ) where
  graph : Fin d.graphs.size
  pending : List (Fin d.graphs.size)

/-- A graph none of whose references has been followed.  The last one is the next. -/
def Frame.opened (x : Fin d.graphs.size) : Frame d := ⟨x, (d.references x).reverse⟩

/-- A search: the marks of all graphs, and the graphs on the way to where it is, the last on top. -/
structure Search (d : Design τ) where
  marks : Marks d.graphs.size
  stack : List (Frame d)

namespace Search

/-- A graph is visited for the first time. -/
def visit (marks : Marks d.graphs.size) (x : Fin d.graphs.size) (stack : List (Frame d)) :
    Search d :=
  ⟨marks.set x .onStack, .opened x :: stack⟩

/-- The way from a graph on the stack to the top, and from there back to it. -/
def circuit (stack : List (Frame d)) (x : Fin d.graphs.size) : Way d :=
  let path := (stack.map Frame.graph).reverse
  path.drop ((path.idxOf? x).getD 0) ++ [x]

/-- Follows a reference of the graph on top, or takes the graph away if there is none left.  The
search ends with its marks when the stack is empty, and with a circuit at a reference to a graph on
it. -/
def step : Search d → Except (Way d) (Marks d.graphs.size) ⊕ Search d
  | ⟨marks, []⟩ => .inl (.ok marks)
  | ⟨marks, ⟨x, []⟩ :: stack⟩ => .inr ⟨marks.set x .done, stack⟩
  | ⟨marks, ⟨x, y :: pending⟩ :: stack⟩ =>
    match marks.get y with
    | .unvisited => .inr (visit marks y (⟨x, pending⟩ :: stack))
    | .onStack => .inl (.error (circuit (⟨x, pending⟩ :: stack) y))
    | .done => .inr ⟨marks, ⟨x, pending⟩ :: stack⟩

/-- What a step can do to a search. -/
inductive Moves : Search d → Search d → Prop
  /-- All references of the graph on top have been followed. -/
  | close {marks : Marks d.graphs.size} {x : Fin d.graphs.size} {stack : List (Frame d)} :
    Moves ⟨marks, ⟨x, []⟩ :: stack⟩ ⟨marks.set x .done, stack⟩
  /-- The next reference leads to a graph that has not been visited. -/
  | visit {marks : Marks d.graphs.size} {x y : Fin d.graphs.size}
    {pending : List (Fin d.graphs.size)} {stack : List (Frame d)}
    (unvisited : marks.get y = .unvisited) :
    Moves ⟨marks, ⟨x, y :: pending⟩ :: stack⟩ (visit marks y (⟨x, pending⟩ :: stack))
  /-- All that the next reference leads to has been visited. -/
  | skip {marks : Marks d.graphs.size} {x y : Fin d.graphs.size}
    {pending : List (Fin d.graphs.size)} {stack : List (Frame d)} (done : marks.get y = .done) :
    Moves ⟨marks, ⟨x, y :: pending⟩ :: stack⟩ ⟨marks, ⟨x, pending⟩ :: stack⟩

theorem moves_of_step {s s' : Search d} (h : s.step = .inr s') : Moves s s' := by
  unfold step at h
  split at h
  · cases h
  · cases h
    exact .close
  · split at h
    · rename_i unvisited
      cases h
      exact .visit unvisited
    · cases h
    · rename_i done
      cases h
      exact .skip done

/-! ## The end of a search -/

/-- What is still to be done: graphs to be visited, then references to be followed and graphs to be
taken away. -/
def measure (s : Search d) : Nat × Nat :=
  (s.marks.count .unvisited, (s.stack.flatMap Frame.pending).length + s.stack.length)

/-- There are fewer graphs to be visited after a step, or no more of them and less to be done on the
stack. -/
theorem measure_lt_of_step {s s' : Search d} (h : s.step = .inr s') :
    Prod.Lex (· < ·) (· < ·) s'.measure s.measure := by
  cases moves_of_step h with
  | @close marks x stack =>
    exact Prod.Lex.right' _ Marks.count_set_done_le
      (Nat.add_lt_add_left (Nat.lt_succ_self stack.length) _)
  | visit unvisited => exact .left _ _ (Marks.count_set_onStack_lt unvisited)
  | skip done => exact .right _ (Nat.add_lt_add_right (Nat.lt_succ_self _) _)

/-- Searches until the stack is empty or a circuit is found. -/
def run (s : Search d) : Except (Way d) (Marks d.graphs.size) :=
  match _h : s.step with
  | .inl result => result
  | .inr s' => run s'
termination_by s.measure
decreasing_by exact measure_lt_of_step _h

/-- Searches from a graph, unless it has been visited. -/
def explore (marks : Marks d.graphs.size) (root : Fin d.graphs.size) :
    Except (Way d) (Marks d.graphs.size) :=
  if marks.get root = .unvisited then (visit marks root []).run else .ok marks

end Search

end Containment

namespace Design

variable {τ : Type}

/-- Fails if a graph contains itself. -/
def checkContainment (d : Design τ) : Except (Failure τ) Unit :=
  match (List.finRange d.graphs.size).foldlM Containment.Search.explore (.unvisited _) with
  | .ok _ => .ok ()
  | .error way => .error (.selfContaining (way.map d.graphName))

/-- The first reference of a graph that leads nowhere. -/
def missingRefinement? (d : Design τ) (g : Graph τ) : Option (Defect τ) :=
  (refinements g).findSome? fun (a, y) =>
    if d.contains y then none else some (.missingRefinement (g.actorName a) g.name y)

variable [Clock τ]

/-- Fails if a graph of the design is not well-formed or has a reference that leads nowhere. -/
def validateGraph (d : Design τ) (g : Graph τ) : Except (Failure τ) Unit := do
  g.validate
  match d.missingRefinement? g with
  | some defect => throw (.malformed defect)
  | none => return ()

/-- Fails if the design is not sound. -/
def validate (d : Design τ) : Except (Failure τ) Unit := do
  d.graphs.toList.forM d.validateGraph
  d.checkContainment

end Design

end Dataflow

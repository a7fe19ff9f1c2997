import Dataflow.Graph.Dot
import Dataflow.Proofs.Clock.Plain
import Dataflow.Proofs.Text

/-!
# The parts of a graph's text

The text of a graph is to show a picture: its name, a box for each actor and an arrow for each edge.
A name stands between two parts that the text provides, of which the first ends in a quotation mark
and the second goes on to the end of the line.  All that is between the names can be read.

* `Dot.Box`, `Dot.Arrow`, `Dot.Picture`, `Graph.picture` — what the text is to show.
* `Dot.opening`, `Dot.closing` — what stands before and after the name of an actor.
* `Dot.linesFrom`, `Graph.toList_dot` — the text, from name to name.
* `Dot.box_inj`, `Dot.arrow_inj` — an actor's line shows its box if it is known where the name
  begins, and an edge's line shows its arrow.
-/

namespace Dataflow

/-! ## Pictures -/

namespace Dot

/-- What the text of an actor is to show. -/
structure Box where
  name : String
  repetitions : Nat
  /-- The text of the duration. -/
  duration : String
  shape : String
  deriving DecidableEq, Repr

/-- What the text of an edge is to show. -/
structure Arrow where
  source : Nat
  target : Nat
  production : Nat
  consumption : Nat
  delay : Nat
  deriving DecidableEq, Repr

/-- What the text of a graph is to show. -/
structure Picture where
  name : String
  boxes : List Box
  arrows : List Arrow
  deriving DecidableEq, Repr

variable {τ : Type} [Clock τ]

/-- The box of an actor. -/
def box (a : Actor τ) : Box := ⟨a.name, a.repetitions, Clock.text a.duration, shape a.kind⟩

/-- The arrow of an edge. -/
def arrow (e : Edge) : Arrow := ⟨e.source, e.target, e.production, e.consumption, e.delay⟩

/-! ## The parts of the text -/

/-- What comes before the name of a graph. -/
def title : String := "digraph \""

/-- What comes after it, up to the end of the line. -/
def brace : String := "\" \x7b"

/-- What comes before the name of an actor in its line. -/
def opening (i : Nat) : String := s!"  n{i} [label=\""

/-- What comes after it, up to the end of the line. -/
def closing (a : Actor τ) : String :=
  s!" x{a.repetitions} [" ++ Clock.text a.duration ++ "]\", shape=" ++ shape a.kind ++ "];"

/-- The line of an edge. -/
def edgeLine (e : Edge) : String := s!"  n{e.source} -> n{e.target} [" ++ Dot.edge e ++ "];\n"

/-- The lines from the actors with numbers from `i` on to the end. -/
def linesFrom : Nat → List (Actor τ) → List Edge → List Char
  | _, [], edges => edges.flatMap (fun e => (edgeLine e).toList) ++ "\x7d\n".toList
  | i, a :: rest, edges => (opening i).toList ++ (a.name.toList ++
      ((closing a).toList ++ '\n' :: linesFrom (i + 1) rest edges))

end Dot

namespace Graph

variable {τ : Type} [Clock τ] {g h : Graph τ}

/-- What the text of a graph is to show. -/
def picture (g : Graph τ) : Dot.Picture where
  name := g.name
  boxes := g.actors.toList.map Dot.box
  arrows := g.edges.toList.map Dot.arrow

/-- The line of an actor. -/
lemma toList_line (a : Actor τ) (i : Nat) (rest : List Char) :
    (s!"  n{i} [" ++ Dot.actor a ++ "];\n").toList ++ rest = (Dot.opening i).toList ++
      (a.name.toList ++ ((Dot.closing a).toList ++ '\n' :: rest)) := by
  simp [Dot.actor, Dot.opening, Dot.closing, toString]

lemma toList_lines (edges : List Edge) : ∀ (actors : List (Actor τ)) (i : Nat),
    (String.join (actors.mapIdx fun k a => s!"  n{i + k} [" ++ Dot.actor a ++ "];\n")).toList ++
      ((String.join (edges.map Dot.edgeLine)).toList ++ "\x7d\n".toList) =
    Dot.linesFrom i actors edges
  | [], i => by simp [Dot.linesFrom, List.flatMap_map]
  | a :: rest, i => by
      have hshift : (fun k (a : Actor τ) => s!"  n{i + (k + 1)} [" ++ Dot.actor a ++ "];\n") =
          fun k a => s!"  n{i + 1 + k} [" ++ Dot.actor a ++ "];\n" := by
        funext k a
        rw [Nat.add_assoc, Nat.add_comm k]
      rw [List.mapIdx_cons, String.join_cons, String.toList_append, List.append_assoc, hshift,
        toList_lines edges rest (i + 1), Dot.linesFrom, toList_line, Nat.add_zero]

lemma toList_dot (g : Graph τ) : g.dot.toList = Dot.title.toList ++ (g.name.toList ++
    (Dot.brace.toList ++ '\n' :: Dot.linesFrom 0 g.actors.toList g.edges.toList)) := by
  have hhead : (s!"digraph \"{g.name}\" \x7b\n").toList =
      Dot.title.toList ++ (g.name.toList ++ (Dot.brace.toList ++ ['\n'])) := by
    simp [Dot.title, Dot.brace, toString]
  rw [← toList_lines]
  simp only [dot, String.toList_append, hhead, Array.toList_map, Array.toList_mapIdx, Nat.zero_add,
    List.append_assoc, List.singleton_append]
  rfl

end Graph

namespace Dot

variable {τ : Type} [Clock τ]

/-! ## Taking the text apart -/

lemma toList_closing (a : Actor τ) : (closing a).toList = " x".toList ++
    ((toString a.repetitions).toList ++ (" [".toList ++ ((Clock.text a.duration).toList ++
      ("]\", shape=".toList ++ ((shape a.kind).toList ++ "];".toList))))) := by
  simp [closing, toString]

lemma toList_opening (i : Nat) : (opening i).toList =
    "  n".toList ++ ((toString i).toList ++ " [label=\"".toList) := by
  simp [opening, toString]

lemma notMem_shape {c : Char} (hc : c ∉ "box3d ellipse".toList) (kind : ActorKind) :
    c ∉ (shape kind).toList := by
  intro h
  refine hc (List.Sublist.subset ?_ h)
  cases kind with
  | atomic => exact (by decide : "box".toList.Sublist "box3d ellipse".toList)
  | hierarchical refinement => exact (by decide : "box3d".toList.Sublist "box3d ellipse".toList)
  | interface direction => exact (by decide : "ellipse".toList.Sublist "box3d ellipse".toList)

/-- The quotation mark that opens a label is the only one. -/
lemma exists_opening (i : Nat) : ∃ k, '"' ∉ k ∧ (opening i).toList = k ++ ['"'] := by
  have hdigits : '"' ∉ (toString i).toList := notMem_toString (by decide)
  refine ⟨"  n".toList ++ ((toString i).toList ++ " [label=".toList), ?_, ?_⟩
  · simp only [List.mem_append, hdigits, false_or]
    decide
  · simp [toList_opening]

lemma newline_notMem_closing [Clock.Plain τ] (a : Actor τ) : '\n' ∉ (closing a).toList := by
  have htext := Clock.Plain.notMem_text (c := '\n') (by decide) a.duration
  have hdigits : '\n' ∉ (toString a.repetitions).toList := notMem_toString (by decide)
  have hshape := notMem_shape (c := '\n') (by decide) a.kind
  rw [toList_closing]
  simp only [List.mem_append, htext, hdigits, hshape, false_or]
  decide

lemma x_mem_closing (a : Actor τ) : 'x' ∈ (closing a).toList := by
  rw [toList_closing]
  exact List.mem_append_left _ (by decide)

lemma x_notMem_opening (i : Nat) : 'x' ∉ (opening i).toList := by
  have hdigits : 'x' ∉ (toString i).toList := notMem_toString (by decide)
  rw [toList_opening]
  simp only [List.mem_append, hdigits, false_or]
  decide

/-- A name and what follows it in the line show the box. -/
lemma box_inj [Clock.Plain τ] {a b : Actor τ}
    (h : a.name.toList ++ (closing a).toList = b.name.toList ++ (closing b).toList) :
    box a = box b := by
  have hbehind : ∀ a : Actor τ, '[' ∉ (Clock.text a.duration).toList ++
      ("]\", shape=".toList ++ ((shape a.kind).toList ++ "];".toList)) := by
    intro a
    have htext := Clock.Plain.notMem_text (c := '[') (by decide) a.duration
    have hshape := notMem_shape (c := '[') (by decide) a.kind
    simp only [List.mem_append, htext, hshape, false_or]
    decide
  have hbefore : ∀ (a : Actor τ), ∀ c ∈ (Clock.text a.duration).toList, (c != ']') = true := by
    intro a c hc
    rw [bne_iff_ne]
    rintro rfl
    exact Clock.Plain.notMem_text (by decide) a.duration hc
  have hsplit : ∀ a : Actor τ, a.name.toList ++ (closing a).toList =
      (((a.name.toList ++ [' ']) ++ 'x' :: (toString a.repetitions).toList) ++ [' ']) ++
        '[' :: ((Clock.text a.duration).toList ++
          ("]\", shape=".toList ++ ((shape a.kind).toList ++ "];".toList))) := by
    intro a
    simp [toList_closing]
  rw [hsplit, hsplit] at h
  obtain ⟨hfront, hback⟩ := append_cons_inj (hbehind a) (hbehind b) h
  obtain ⟨hname, hrepetitions⟩ := append_cons_inj (notMem_toString (by decide))
    (notMem_toString (by decide)) (List.append_cancel_right hfront)
  -- the text of the duration goes on to the first closing bracket
  obtain ⟨hduration, -, hback⟩ := append_stop_inj (p := (· != ']')) (hbefore a) (hbefore b)
    (by decide) (by decide) hback
  have hshape := List.append_cancel_right (List.append_cancel_left hback)
  simp only [box, Box.mk.injEq]
  exact ⟨String.toList_inj.1 (List.append_cancel_right hname),
    Counter.toString_inj (String.toList_inj.1 hrepetitions), String.toList_inj.1 hduration,
    String.toList_inj.1 hshape⟩

/-- A number is read up to the first character that is no digit. -/
lemma digits_inj {m n : Nat} {c c' : Char} {d d' : List Char} (hc : c.isDigit = false)
    (hc' : c'.isDigit = false)
    (h : (toString m).toList ++ c :: d = (toString n).toList ++ c' :: d') :
    m = n ∧ c = c' ∧ d = d' := by
  obtain ⟨hdigits, hrest⟩ := append_stop_inj (p := Char.isDigit)
    (fun _ => isDigit_of_mem_toString) (fun _ => isDigit_of_mem_toString) hc hc' h
  exact ⟨Counter.toString_inj (String.toList_inj.1 hdigits), hrest⟩

/-- The end of the line of an edge, after the rates. -/
def delayText (e : Edge) : List Char :=
  if e.hasDelay then ' ' :: '(' :: ((toString e.delay).toList ++ ')' :: "\"];\n".toList)
  else "\"];\n".toList

lemma toList_edgeLine (e : Edge) (rest : List Char) : (edgeLine e).toList ++ rest =
    "  n".toList ++ ((toString e.source).toList ++ ' ' :: ("-> n".toList ++
      ((toString e.target).toList ++ ' ' :: ("[label=\"".toList ++
        ((toString e.production).toList ++ '/' ::
          ((toString e.consumption).toList ++ (delayText e ++ rest))))))) := by
  cases h : e.hasDelay <;> simp [edgeLine, Dot.edge, delayText, h, toString]

lemma exists_delayText (e : Edge) : ∃ c d, delayText e = c :: d ∧ c.isDigit = false := by
  rw [delayText]
  split
  · exact ⟨_, _, rfl, by decide⟩
  · exact ⟨'"', "];\n".toList, by decide, by decide⟩

lemma delayText_inj {e f : Edge} {rest rest' : List Char}
    (h : delayText e ++ rest = delayText f ++ rest') : e.delay = f.delay ∧ rest = rest' := by
  have hzero : ∀ {e : Edge}, e.hasDelay = false → e.delay = 0 := by
    intro e he
    simpa [Edge.hasDelay] using he
  cases he : e.hasDelay <;> cases hf : f.hasDelay
  · rw [delayText, delayText, he, hf] at h
    exact ⟨(hzero he).trans (hzero hf).symm, List.append_cancel_left h⟩
  · simp [delayText, he, hf] at h
  · simp [delayText, he, hf] at h
  · rw [delayText, delayText, he, hf, if_pos rfl, if_pos rfl] at h
    have h : (toString e.delay).toList ++ ')' :: ("\"];\n".toList ++ rest) =
        (toString f.delay).toList ++ ')' :: ("\"];\n".toList ++ rest') := by
      simpa using h
    obtain ⟨hdelay, -, h⟩ := digits_inj (by decide) (by decide) h
    exact ⟨hdelay, List.append_cancel_left h⟩

/-- The text of an edge shows the arrow, whatever follows it. -/
lemma arrow_inj {e f : Edge} {rest rest' : List Char}
    (h : (edgeLine e).toList ++ rest = (edgeLine f).toList ++ rest') :
    arrow e = arrow f ∧ rest = rest' := by
  rw [toList_edgeLine, toList_edgeLine] at h
  -- every number is followed by a blank, a slash or a quotation mark
  obtain ⟨hsource, -, h⟩ := digits_inj (by decide) (by decide) (List.append_cancel_left h)
  obtain ⟨htarget, -, h⟩ := digits_inj (by decide) (by decide) (List.append_cancel_left h)
  obtain ⟨hproduction, -, h⟩ := digits_inj (by decide) (by decide) (List.append_cancel_left h)
  obtain ⟨c, d, hc, hdigit⟩ := exists_delayText e
  obtain ⟨c', d', hc', hdigit'⟩ := exists_delayText f
  obtain ⟨hconsumption, hd⟩ : e.consumption = f.consumption ∧
      delayText e ++ rest = delayText f ++ rest' := by
    rw [hc, hc'] at h ⊢
    obtain ⟨hconsumption, rfl, hd⟩ := digits_inj hdigit hdigit' h
    exact ⟨hconsumption, congrArg (c :: ·) hd⟩
  obtain ⟨hdelay, hrest⟩ := delayText_inj hd
  exact ⟨by rw [arrow, arrow, hsource, htarget, hproduction, hconsumption, hdelay], hrest⟩

lemma arrows_inj : ∀ {edges edges' : List Edge},
    edges.flatMap (fun e => (edgeLine e).toList) ++ "\x7d\n".toList =
      edges'.flatMap (fun e => (edgeLine e).toList) ++ "\x7d\n".toList →
    edges.map arrow = edges'.map arrow
  | [], [], _ => rfl
  | [], e :: edges, h => by
      rw [List.flatMap_cons, List.append_assoc, toList_edgeLine] at h
      exact absurd (List.cons.inj h).1 (by decide)
  | e :: edges, [], h => by
      rw [List.flatMap_cons, List.append_assoc, toList_edgeLine] at h
      exact absurd (List.cons.inj h).1 (by decide)
  | e :: edges, e' :: edges', h => by
      rw [List.flatMap_cons, List.flatMap_cons, List.append_assoc, List.append_assoc] at h
      obtain ⟨harrow, h⟩ := arrow_inj h
      rw [List.map_cons, List.map_cons, harrow, arrows_inj h]

/-- The lines of edges and the end hold no other characters than digits and these. -/
lemma notMem_edges {c : Char} (hc : c ∉ " n->[label=\"/()];\n\x7d".toList)
    (hdigit : c.isDigit = false) (i : Nat) (edges : List Edge) :
    c ∉ linesFrom i ([] : List (Actor τ)) edges := by
  have hdigits : ∀ n : Nat, c ∉ (toString n).toList := fun _ => notMem_toString hdigit
  have hedge : ∀ e : Edge, c ∉ (edgeLine e).toList := by
    intro e
    rw [← List.append_nil (edgeLine e).toList, toList_edgeLine]
    cases he : e.hasDelay <;> simp_all [delayText]
  rw [linesFrom]
  simp_all

lemma x_notMem_edges (i : Nat) (edges : List Edge) :
    'x' ∉ linesFrom i ([] : List (Actor τ)) edges :=
  notMem_edges (by decide) (by decide) i edges

lemma x_mem_lines {i : Nat} {a : Actor τ} {rest : List (Actor τ)} {edges : List Edge} :
    'x' ∈ linesFrom i (a :: rest) edges := by
  have hclosing := x_mem_closing a
  rw [linesFrom]
  simp [hclosing]

/-- The last line before the end ends in a semicolon, if there is one. -/
lemma exists_lines_end (i : Nat) (a : Actor τ) (rest : List (Actor τ)) (edges : List Edge) :
    ∃ u, linesFrom i (a :: rest) edges = u ++ ";\n\x7d\n".toList := by
  induction rest generalizing i a with
  | nil =>
    rcases List.eq_nil_or_concat edges with rfl | ⟨edges, e, rfl⟩
    · refine ⟨(opening i ++ a.name ++ s!" x{a.repetitions} [" ++ Clock.text a.duration ++
        "]\", shape=" ++ shape a.kind ++ "]").toList, ?_⟩
      simp [linesFrom, closing]
    · refine ⟨(opening i ++ a.name ++ closing a ++ "\n").toList ++
        (edges.flatMap fun e => (edgeLine e).toList) ++
        (s!"  n{e.source} -> n{e.target} [" ++ Dot.edge e ++ "]").toList, ?_⟩
      simp [linesFrom, edgeLine]
  | cons b rest ih =>
    obtain ⟨u, hu⟩ := ih (i + 1) b
    refine ⟨(opening i ++ a.name ++ closing a ++ "\n").toList ++ u, ?_⟩
    rw [linesFrom, hu]
    simp

/-! ## The picture determines the lines -/

lemma edgeLine_congr {e f : Edge} (h : arrow e = arrow f) : edgeLine e = edgeLine f := by
  obtain ⟨hsource, htarget, hproduction, hconsumption, hdelay⟩ := Arrow.mk.inj h
  rw [edgeLine, edgeLine, Dot.edge, Dot.edge, Edge.hasDelay, Edge.hasDelay, hsource, htarget,
    hproduction, hconsumption, hdelay]

lemma edgeLines_congr : ∀ {edges edges' : List Edge}, edges.map arrow = edges'.map arrow →
    edges.flatMap (fun e => (edgeLine e).toList) = edges'.flatMap fun e => (edgeLine e).toList
  | [], [], _ => rfl
  | e :: edges, e' :: edges', h => by
      obtain ⟨he, h⟩ := List.cons.inj h
      rw [List.flatMap_cons, List.flatMap_cons, edgeLine_congr he, edgeLines_congr h]

/-- What looks the same has the same lines. -/
lemma linesFrom_congr {edges edges' : List Edge} (hedges : edges.map arrow = edges'.map arrow) :
    ∀ {i : Nat} {actors actors' : List (Actor τ)}, actors.map box = actors'.map box →
      linesFrom i actors edges = linesFrom i actors' edges'
  | i, [], [], _ => by rw [linesFrom, linesFrom, edgeLines_congr hedges]
  | i, a :: rest, a' :: rest', hactors => by
      obtain ⟨hbox, hrest⟩ := List.cons.inj hactors
      have hname : a.name = a'.name := congrArg Box.name hbox
      have hclosing : closing a = closing a' := by
        obtain ⟨-, hrepetitions, hduration, hshape⟩ := Box.mk.inj hbox
        rw [closing, closing, hrepetitions, hduration, hshape]
      rw [linesFrom, linesFrom, hname, hclosing, linesFrom_congr hedges hrest]

end Dot

end Dataflow

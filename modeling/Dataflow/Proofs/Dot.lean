import Dataflow.Proofs.Dot.Parts

/-!
# What the text of a graph shows

Names are copied into the text of a graph as they are.  So a name may hold what ends one label and
begins the next, and then the text is also the text of another picture.  A name that holds no such
passage can be quoted, and the text of a graph whose names all can be quoted shows its picture.

* `Graph.Quotable` — the names hold no passages.
* `Dot.linesFrom_inj`, `Graph.picture_eq_of_dot_eq` — where two graphs with such names have one text,
  they have one picture: if a name ended elsewhere in the second graph than in the first, one of them
  would hold a passage.
* `Dot.legible`, `Graph.exists_quotable_dot` — where a name holds one, it can end there as well, and
  the next name begins earlier then; after the last name every name can be quoted.
* **`Graph.dot_shows`** — what the text of a graph shows.
* **`Graph.sketch_passage`** — two graphs with one text.
-/

namespace Dataflow

namespace Dot

variable {τ : Type} [Clock τ]

/-! ## Names that can be quoted -/

/-- The end of a label and the beginning of the next one. -/
def passage (b : Actor τ) (i : Nat) : List Char :=
  (closing b).toList ++ '\n' :: (opening i).toList

/-- No name of some actors holds a passage to the next label, given the number of the first actor. -/
def QuotableFrom (i : Nat) (actors : List (Actor τ)) : Prop :=
  ∀ a k, (a, k) ∈ actors.zipIdx i → ∀ b : Actor τ, ¬ passage b (k + 1) <:+: a.name.toList

lemma quotableFrom_cons {i : Nat} {a : Actor τ} {rest : List (Actor τ)} :
    QuotableFrom i (a :: rest) ↔
      (∀ b : Actor τ, ¬ passage b (i + 1) <:+: a.name.toList) ∧ QuotableFrom (i + 1) rest := by
  simp [QuotableFrom, or_imp, forall_and]

/-- Whether names can be quoted is a matter of the boxes. -/
lemma QuotableFrom.congr : ∀ {i : Nat} {actors actors' : List (Actor τ)},
    QuotableFrom i actors → actors.map box = actors'.map box → QuotableFrom i actors'
  | _, [], [], hq, _ => hq
  | _, a :: rest, a' :: rest', hq, hboxes => by
      obtain ⟨hbox, hrest⟩ := List.cons.inj hboxes
      have hname : a.name = a'.name := congrArg Box.name hbox
      rw [quotableFrom_cons] at hq
      exact quotableFrom_cons.2 ⟨hname ▸ hq.1, QuotableFrom.congr hq.2 hrest⟩

/-- Before the closing of a label there is its opening. -/
lemma opening_prefix {i : Nat} {actors : List (Actor τ)} {edges : List Edge} {a : Actor τ}
    {u r : List Char} (h : linesFrom i actors edges = u ++ ((closing a).toList ++ r)) :
    (opening i).toList <+: u := by
  cases actors with
  | nil =>
    have hx : 'x' ∉ linesFrom i ([] : List (Actor τ)) edges := x_notMem_edges i edges
    refine absurd ?_ hx
    rw [h]
    exact List.mem_append_right _ (List.mem_append_left _ (x_mem_closing a))
  | cons b rest =>
    rw [linesFrom] at h
    rcases List.append_eq_append_iff.1 h with ⟨v, rfl, _⟩ | ⟨v, hv, hclosing⟩
    · exact ⟨v, rfl⟩
    · -- the closing begins with a blank and an x, and the opening ends in a quotation mark
      obtain ⟨k, hk⟩ : ∃ k, (closing a).toList = ' ' :: 'x' :: k := ⟨_, toList_closing a⟩
      obtain ⟨k', _, hk'⟩ := exists_opening i
      rw [hk] at hclosing
      rcases v with _ | ⟨d, _ | ⟨d', v⟩⟩
      · exact ⟨[], by simpa using hv⟩
      · have hd : d = ' ' := (List.cons.inj hclosing).1.symm
        have hd' : d = '"' :=
          List.singleton_inj.1 (List.append_inj_right' (hv.symm.trans hk') rfl)
        exact absurd (hd.symm.trans hd') (by decide)
      · obtain rfl : 'x' = d' := (List.cons.inj (List.cons.inj hclosing).2).1
        exact absurd (hv ▸ by simp) (x_notMem_opening i)

/-- A name that goes on after the end of another label, in one text, holds the passage behind it. -/
lemma passage_inside {i : Nat} {a b : Actor τ} {rest : List (Actor τ)} {edges : List Edge}
    {u r : List Char}
    (hname : a.name.toList = b.name.toList ++ ((closing b).toList ++ '\n' :: u))
    (hrest : linesFrom i rest edges = u ++ ((closing a).toList ++ r)) :
    passage b i <:+: a.name.toList := by
  obtain ⟨v, rfl⟩ := opening_prefix hrest
  refine ⟨b.name.toList, v, ?_⟩
  rw [hname, passage]
  simp

/-- Two lists of actors with the same lines look the same, if their names can be quoted. -/
theorem linesFrom_inj [Clock.Plain τ] : ∀ {i : Nat} {actors actors' : List (Actor τ)}
    {edges edges' : List Edge}, QuotableFrom i actors → QuotableFrom i actors' →
      linesFrom i actors edges = linesFrom i actors' edges' →
      actors.map box = actors'.map box ∧ edges.map arrow = edges'.map arrow
  | i, [], [], edges, edges', _, _, h => ⟨rfl, arrows_inj h⟩
  | i, [], a :: rest, edges, edges', _, _, h =>
      absurd (h ▸ x_mem_lines) (x_notMem_edges i edges)
  | i, a :: rest, [], edges, edges', _, _, h =>
      absurd (h ▸ x_mem_lines) (x_notMem_edges i edges')
  | i, a :: rest, a' :: rest', edges, edges', hq, hq', h => by
      rw [linesFrom, linesFrom] at h
      rw [quotableFrom_cons] at hq hq'
      have h := List.append_cancel_left h
      -- the names end at the same place, or one of them goes on after the label of the other
      rcases append_cons_cases (newline_notMem_closing a) (newline_notMem_closing a') h with
        ⟨hline, hrest⟩ | ⟨u, hname, hrest⟩ | ⟨u, hname, hrest⟩
      · obtain ⟨hboxes, harrows⟩ := linesFrom_inj hq.2 hq'.2 hrest
        exact ⟨by rw [List.map_cons, List.map_cons, box_inj hline, hboxes], harrows⟩
      · exact absurd (passage_inside hname hrest) (hq.1 a')
      · exact absurd (passage_inside hname hrest) (hq'.1 a)

/-- Before the brace in the head of a graph there is the opening of a label, if there is another head
before. -/
lemma opening_prefix_brace {i : Nat} {actors : List (Actor τ)} {edges : List Edge} {u r : List Char}
    (h : linesFrom i actors edges = u ++ (brace.toList ++ r)) :
    actors ≠ [] ∧ (opening i).toList <+: u ++ ['"'] := by
  cases actors with
  | nil =>
    have hbrace : '\x7b' ∉ linesFrom i ([] : List (Actor τ)) edges :=
      notMem_edges (by decide) (by decide) i edges
    refine absurd ?_ hbrace
    rw [h]
    exact List.mem_append_right _ (List.mem_append_left _ (by decide))
  | cons b rest =>
    refine ⟨List.cons_ne_nil _ _, ?_⟩
    rw [linesFrom] at h
    rcases List.append_eq_append_iff.1 h with ⟨v, rfl, _⟩ | ⟨v, hv, hbrace⟩
    · rw [List.append_assoc]
      exact List.prefix_append _ _
    · cases v with
      | nil =>
        rw [hv, List.append_nil]
        exact List.prefix_append _ _
      | cons d v =>
        obtain rfl : '"' = d := (List.cons.inj hbrace).1
        obtain ⟨k, hk, hopening⟩ := exists_opening i
        obtain ⟨rfl, -, -⟩ :=
          (List.append_cons_inj_of_notMem hk List.not_mem_nil).1 (hopening.symm.trans hv)
        exact ⟨[], by rw [hopening, List.append_nil]⟩

/-- The first name of a list of actors, after more text, and the closing of another label before it. -/
def absorb (i : Nat) (text : String) (a : Actor τ) : List (Actor τ) → List (Actor τ)
  | [] => [{ a with name := text }]
  | b :: rest => { b with name := text ++ closing a ++ "\n" ++ opening i ++ b.name } :: rest

lemma linesFrom_absorb (i : Nat) (text : String) (a : Actor τ) (rest : List (Actor τ))
    (edges : List Edge) : linesFrom i (absorb i text a rest) edges =
      (opening i).toList ++ (text.toList ++
        ((closing a).toList ++ '\n' :: linesFrom i rest edges)) := by
  cases rest with
  | nil => rfl
  | cons b rest =>
    simp only [absorb, linesFrom, String.toList_append, List.append_assoc]
    rfl

lemma length_le_length_absorb (i : Nat) (text : String) (a : Actor τ) (rest : List (Actor τ)) :
    rest.length ≤ (absorb i text a rest).length := by
  cases rest <;> simp [absorb]

/-- Some actors whose names can be quoted, and not fewer of them, have the same lines. -/
def Legible (i : Nat) (actors : List (Actor τ)) : Prop :=
  ∃ actors' : List (Actor τ), QuotableFrom i actors' ∧ actors.length ≤ actors'.length ∧
    ∀ edges, linesFrom i actors' edges = linesFrom i actors edges

/-- A name is kept if it can be quoted, and ends at the first passage that it holds otherwise. -/
lemma Legible.cons {i : Nat} {a : Actor τ} {rest : List (Actor τ)} (hrest : Legible (i + 1) rest)
    (habsorb : ∀ text : String, text.length < a.name.length →
      Legible (i + 1) (absorb (i + 1) text a rest)) : Legible i (a :: rest) := by
  by_cases hname : ∃ k : List Char, (∃ b : Actor τ, k = passage b (i + 1)) ∧ k <:+: a.name.toList
  · obtain ⟨before, _, behind, ⟨b, rfl⟩, hsplit, hfirst⟩ := exists_leftmost hname
    have hlength := congrArg List.length hsplit
    simp only [passage, List.length_append, List.length_cons] at hlength
    obtain ⟨actors, hquotable, hactors, hlines⟩ := habsorb (String.ofList behind) (by
      rw [String.length_ofList, ← String.length_toList]
      omega)
    refine ⟨{ b with name := String.ofList before } :: actors, quotableFrom_cons.2 ⟨?_, hquotable⟩,
      Nat.succ_le_succ (Nat.le_trans (length_le_length_absorb _ _ a rest) hactors), fun edges => ?_⟩
    · -- a passage before the first one
      rintro b' ⟨x, y, hxy⟩
      have hxy : x ++ passage b' (i + 1) ++ y = before := by simpa using hxy
      have hle := hfirst x _ (y ++ passage b (i + 1) ++ behind) ⟨b', rfl⟩
        (by rw [← hsplit, ← hxy]; simp)
      have hlengths := congrArg List.length hxy
      simp only [passage, List.length_append, List.length_cons] at hlengths
      omega
    · have hclosing : closing { b with name := String.ofList before } = closing b := rfl
      rw [linesFrom, hlines, linesFrom_absorb, linesFrom, ← hsplit, hclosing]
      simp [passage]
  · obtain ⟨actors, hquotable, hactors, hlines⟩ := hrest
    refine ⟨a :: actors, quotableFrom_cons.2 ⟨fun b hb => hname ⟨_, ⟨b, rfl⟩, hb⟩, hquotable⟩,
      Nat.succ_le_succ hactors, fun edges => ?_⟩
    rw [linesFrom, linesFrom, hlines]

/-- The same lines can be read from names that can be quoted: what a name is cut off goes to the next
label, so there are fewer labels left, or there is less of the last name. -/
theorem legible : ∀ (i : Nat) (actors : List (Actor τ)), Legible i actors
  | i, [] => ⟨[], by simp [QuotableFrom], Nat.le_refl _, fun _ => rfl⟩
  | i, [a] => .cons (legible (i + 1) []) fun text hshorter =>
    legible (i + 1) [{ a with name := text }]
  | i, a :: b :: rest =>
    .cons (legible (i + 1) (b :: rest)) fun text _ =>
      legible (i + 1) (absorb (i + 1) text a (b :: rest))
termination_by _ actors => (actors.length, (actors.map fun a => a.name.length).headD 0)
decreasing_by
  · simp [Prod.lex_def]
  · simp [Prod.lex_def, hshorter]
  · simp [Prod.lex_def]
  · simp [Prod.lex_def, absorb]

end Dot

namespace Graph

variable {τ : Type} [Clock τ] {g h : Graph τ}

/-! ## Texts and pictures -/

/-- The end of a head and the beginning of the first label. -/
def headPassage : List Char := Dot.brace.toList ++ '\n' :: (Dot.opening 0).toList

/-- No name holds a passage from one name to the next.  The quotation mark behind the name of the
graph may be the last character of such a passage. -/
structure Quotable (g : Graph τ) : Prop where
  name : 0 < g.actors.size → ¬ headPassage <:+: g.name.toList ++ ['"']
  labels : Dot.QuotableFrom 0 g.actors.toList

/-- A graph that shares its text with one of a shorter name cannot be quoted. -/
lemma not_quotable_of_longer {u : List Char}
    (hname : g.name.toList = h.name.toList ++ (Dot.brace.toList ++ '\n' :: u))
    (hlines : Dot.linesFrom 0 h.actors.toList h.edges.toList =
      u ++ (Dot.brace.toList ++ '\n' :: Dot.linesFrom 0 g.actors.toList g.edges.toList)) :
    ¬ g.Quotable := by
  intro hg
  obtain ⟨hactors, v, hv⟩ := Dot.opening_prefix_brace hlines
  refine hg.name ?_ ⟨h.name.toList, v, ?_⟩
  · by_contra hsize
    -- without actors the graph ends in a brace at the end of a line
    have hnone : g.actors = #[] := Array.size_eq_zero_iff.1 (by omega)
    have hnoEdge : g.edges = #[] := by
      refine Array.eq_empty_iff_forall_not_mem.2 fun e he => ?_
      have hclosed := (g.closed e he).1
      rw [hnone] at hclosed
      exact absurd hclosed (Nat.not_lt_zero _)
    obtain ⟨a, rest, hcons⟩ := List.exists_cons_of_ne_nil hactors
    obtain ⟨w, hw⟩ := Dot.exists_lines_end 0 a rest h.edges.toList
    rw [hcons, hw, hnone, hnoEdge] at hlines
    have hends : w ++ ";\n\x7d\n".toList = (u ++ "\" ".toList) ++ "\x7b\n\x7d\n".toList := by
      simpa [Dot.brace, Dot.linesFrom] using hlines
    exact absurd (List.append_inj_right' hends rfl) (by decide)
  · rw [hname, headPassage, List.append_assoc, List.append_assoc, List.append_assoc,
      List.cons_append, hv]
    simp

/-- The text determines the picture, if the names can be quoted. -/
theorem picture_eq_of_dot_eq [Clock.Plain τ] (hg : g.Quotable) (hh : h.Quotable)
    (hdot : g.dot = h.dot) : g.picture = h.picture := by
  have hlists := congrArg String.toList hdot
  rw [toList_dot, toList_dot] at hlists
  rcases append_cons_cases (c := '\n') (by decide) (by decide) (List.append_cancel_left hlists) with
    ⟨hhead, hlines⟩ | ⟨u, hname, hlines⟩ | ⟨u, hname, hlines⟩
  · obtain ⟨hboxes, harrows⟩ := Dot.linesFrom_inj hg.labels hh.labels hlines
    simp only [picture, Dot.Picture.mk.injEq]
    exact ⟨String.toList_inj.1 (List.append_cancel_right hhead), hboxes, harrows⟩
  · exact absurd hg (not_quotable_of_longer hname hlines)
  · exact absurd hh (not_quotable_of_longer hname hlines)

/-- The picture determines the text. -/
theorem dot_eq_of_picture_eq (hpicture : g.picture = h.picture) : g.dot = h.dot := by
  obtain ⟨hname, hboxes, hedges⟩ := Dot.Picture.mk.inj hpicture
  rw [← String.toList_inj, toList_dot, toList_dot, hname, Dot.linesFrom_congr hedges hboxes]

/-- The same edges between more actors, under another name. -/
def redraw (g : Graph τ) (name : String) (actors : List (Actor τ))
    (hlength : g.actors.size ≤ actors.length) : Graph τ where
  name := name
  actors := actors.toArray
  edges := g.edges
  closed e he := by
    obtain ⟨hs, ht⟩ := g.closed e he
    rw [List.size_toArray]
    exact ⟨Nat.lt_of_lt_of_le hs hlength, Nat.lt_of_lt_of_le ht hlength⟩

lemma toList_dot_redraw {name : String} {actors : List (Actor τ)}
    (hlength : g.actors.size ≤ actors.length) :
    (g.redraw name actors hlength).dot.toList = Dot.title.toList ++ (name.toList ++
      (Dot.brace.toList ++ '\n' :: Dot.linesFrom 0 actors g.edges.toList)) :=
  toList_dot _

/-- A graph whose name ends at the first passage to a label, if it holds one. -/
lemma exists_name_quotable (g : Graph τ) : ∃ h : Graph τ, h.dot = g.dot ∧
    (0 < h.actors.size → ¬ headPassage <:+: h.name.toList ++ ['"']) := by
  by_cases hname : 0 < g.actors.size ∧ ∃ k, k = headPassage ∧ k <:+: g.name.toList ++ ['"']
  · obtain ⟨hsize, hname⟩ := hname
    obtain ⟨before, _, behind, rfl, hsplit, hfirst⟩ := exists_leftmost hname
    obtain ⟨a, rest, hactors⟩ := List.exists_cons_of_length_pos (Array.length_toList ▸ hsize)
    let b : Actor τ :=
      { a with name := String.ofList (behind ++ " \x7b\n".toList ++ (Dot.opening 0).toList) ++ a.name }
    have hlength : g.actors.size ≤ (b :: rest).length := by
      rw [← Array.length_toList, hactors]
      exact Nat.le_refl _
    refine ⟨g.redraw (String.ofList before) (b :: rest) hlength, ?_, ?_⟩
    · have hhead : ∀ r : List Char, g.name.toList ++ (Dot.brace.toList ++ r) =
          before ++ (headPassage ++ (behind ++ (" \x7b".toList ++ r))) := by
        intro r
        have hmore := congrArg (· ++ (" \x7b".toList ++ r)) hsplit
        simpa [Dot.brace] using hmore.symm
      have hclosing : Dot.closing b = Dot.closing a := rfl
      rw [← String.toList_inj, toList_dot_redraw, toList_dot, hactors, hhead, Dot.linesFrom,
        Dot.linesFrom, hclosing]
      simp [headPassage, b]
    · -- a passage before the first one, with the quotation mark that begins that one at its end
      rintro - ⟨x, y, hxy⟩
      have hxy : x ++ headPassage ++ y = before ++ ['"'] := by simpa [redraw] using hxy
      obtain ⟨k, hk, hlength⟩ : ∃ k, headPassage = '"' :: k ∧ 0 < k.length :=
        ⟨_, rfl, Nat.succ_pos _⟩
      have hle := hfirst x headPassage (y ++ k ++ behind) rfl
        (by rw [← hsplit, ← List.append_assoc, ← List.append_assoc, hxy, hk]; simp)
      have hlengths := congrArg List.length hxy
      simp only [hk, List.length_append, List.length_cons, List.length_nil] at hlengths
      omega
  · refine ⟨g, rfl, fun hsize hheld => hname ⟨hsize, _, rfl, hheld⟩⟩

/-- Every text is the text of a graph whose names can be quoted. -/
theorem exists_quotable_dot (g : Graph τ) : ∃ h : Graph τ, h.Quotable ∧ h.dot = g.dot := by
  obtain ⟨h, hdot, hname⟩ := g.exists_name_quotable
  rcases Nat.eq_zero_or_pos h.actors.size with hnone | hsize
  · exact ⟨h, ⟨hname, by simp [Dot.QuotableFrom, Array.size_eq_zero_iff.1 hnone]⟩, hdot⟩
  · obtain ⟨actors, hquotable, hlength, hlines⟩ := Dot.legible 0 h.actors.toList
    rw [Array.length_toList] at hlength
    refine ⟨h.redraw h.name actors hlength, ⟨fun _ => hname hsize, hquotable⟩, ?_⟩
    rw [← hdot, ← String.toList_inj, toList_dot_redraw, toList_dot, hlines]

/-- Whether the names can be quoted is seen in the picture. -/
lemma Quotable.of_picture_eq (hg : g.Quotable) (hpicture : h.picture = g.picture) : h.Quotable := by
  obtain ⟨hname, hboxes, -⟩ := Dot.Picture.mk.inj hpicture
  have hsize : h.actors.size = g.actors.size := by
    simpa using congrArg List.length hboxes
  exact ⟨fun hpos => hname ▸ hg.name (hsize ▸ hpos), hg.labels.congr hboxes.symm⟩

/-- Names without line breaks can be quoted. -/
theorem quotable_of_newline_notMem (hname : '\n' ∉ g.name.toList)
    (hnames : ∀ a ∈ g.actors, '\n' ∉ a.name.toList) : g.Quotable := by
  constructor
  · rintro - hinside
    have hmem : '\n' ∈ g.name.toList ++ ['"'] := hinside.subset (by decide)
    exact hname (by simpa using hmem)
  · intro a k hmem b hinside
    refine hnames a (Array.mem_toList_iff.1 (List.fst_mem_of_mem_zipIdx hmem)) (hinside.subset ?_)
    simp [Dot.passage]

/-- **What the text shows.**  Graphs whose names can be quoted have the same text exactly if they have
the same picture.  Every text is the text of such a graph, and what it shows is the picture of the
graph that it was made for exactly if the names of this graph can be quoted.  Names without line
breaks can, whatever else is in them. -/
theorem dot_shows (g : Graph Float) :
    (∀ h : Graph Float, g.Quotable → h.Quotable → (h.dot = g.dot ↔ h.picture = g.picture)) ∧
      (∃ h : Graph Float, h.Quotable ∧ h.dot = g.dot ∧ (h.picture = g.picture ↔ g.Quotable)) ∧
      ('\n' ∉ g.name.toList → (∀ a ∈ g.actors, '\n' ∉ a.name.toList) → g.Quotable) := by
  refine ⟨fun h hg hh => ⟨picture_eq_of_dot_eq hh hg, dot_eq_of_picture_eq⟩, ?_,
    quotable_of_newline_notMem⟩
  obtain ⟨h, hh, hdot⟩ := g.exists_quotable_dot
  exact ⟨h, hh, hdot, fun hpicture => hh.of_picture_eq hpicture.symm,
    fun hg => picture_eq_of_dot_eq hh hg hdot⟩

/-- Actors without edges. -/
def sketch (names : List String) : Graph Float where
  name := "sketch"
  actors := (names.map fun name => .atomic name 1 1.0).toArray
  edges := #[]
  closed := by simp

/-- Quotation marks and brackets in a name do no harm. -/
theorem sketch_dot : (sketch ["a x1 [1]\", shape=box];"]).dot ≠ (sketch ["a"]).dot := by
  have hq : ∀ name : String, '\n' ∉ name.toList → (sketch [name]).Quotable := by
    intro name hname
    obtain ⟨-, -, hquotable⟩ := dot_shows (sketch [name])
    refine hquotable (by decide : '\n' ∉ "sketch".toList) fun a ha => ?_
    obtain rfl : a = .atomic name 1 1.0 := by simpa [sketch] using ha
    exact hname
  obtain ⟨hiff, -, -⟩ := dot_shows (sketch ["a"])
  intro h
  have hboxes := congrArg Dot.Picture.boxes ((hiff _ (hq _ (by decide)) (hq _ (by decide))).1 h)
  have hname := congrArg Dot.Box.name (List.cons.inj hboxes).1
  exact absurd hname (by decide)

/-- A name with a passage to the next label makes one actor look like two. -/
theorem sketch_passage :
    (sketch ["a x1 [1]\", shape=box];\n  n1 [label=\"b"]).dot = (sketch ["a", "b"]).dot ∧
      (sketch ["a x1 [1]\", shape=box];\n  n1 [label=\"b"]).actors.size = 1 ∧
      (sketch ["a", "b"]).actors.size = 2 := by
  have htext : Clock.text (1.0 : Float) = "1" := by decide +kernel
  have hdigits : Nat.toDigits 10 1 = ['1'] := by decide
  refine ⟨?_, rfl, rfl⟩
  rw [← String.toList_inj, toList_dot, toList_dot]
  simp [sketch, Dot.linesFrom, Dot.opening, Dot.closing, Actor.atomic, Dot.shape, htext, hdigits,
    toString]

end Graph

end Dataflow

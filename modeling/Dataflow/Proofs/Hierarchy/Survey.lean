import Dataflow.Hierarchy.Survey
import Dataflow.Proofs.Clock.Exact
import Dataflow.Proofs.Hierarchy.Containment
import Mathlib.Data.Set.Card

/-!
# The order of a survey

A survey keeps a stack of visits and no marks.  Each visit is replaced on the stack by those below
it, so what is found from there on, until the rest of the stack is reached, is the walk below that
visit: the visit itself and, actor by actor, the walks below the visits that it leads to.  Since no
graph of a sound design contains itself, this recursion comes to an end, and with it the loop.

* `Survey.preorder` — the recursive walk below a visit.
* `Tour.stack_induction` — induction on a stack, with what is below a visit in the place of the
  visit.
* `Tour.wellFounded_follows`, **`Tour.run_eq`** — the loop comes to its end, and makes the walks
  below the visits on its stack.
* `Design.follow`, `Design.Covers` — the graph that a chain of actors leads to, and all chains from
  a graph side by side with some visits.
* `Design.exists_covers` — the walk makes one visit for every chain.
* **`Design.survey_preorder`** — the survey of a sound design in full.
-/

namespace Dataflow

namespace Design

variable {τ : Type} {d : Design τ}

/-- In a design without circuits references are followed only finitely often. -/
lemma Acyclic.wellFounded (h : d.Acyclic) : WellFounded (Function.swap d.Refers) := by
  have : IsStrictOrder (Fin d.graphs.size) (Relation.TransGen (Function.swap d.Refers)) :=
    { irrefl := fun x hx => h x (Relation.transGen_swap.1 hx)
      trans := fun _ _ _ => Relation.TransGen.trans }
  exact Subrelation.wf (fun h => Relation.TransGen.single h)
    (Finite.wellFounded_of_trans_of_irrefl (Relation.TransGen (Function.swap d.Refers)))

lemma children_graph (x : Fin d.graphs.size) : d.children x = refinements (d.graph x) := by
  simp [children, graph]

lemma refers_of_mem_children {x y : Fin d.graphs.size} {a : Nat}
    (h : (a, y.val) ∈ d.children x) : d.Refers x y :=
  exists_mem_refinements.1 ⟨a, children_graph x ▸ h⟩

end Design

/-! ## The recursive walk -/

namespace Survey

variable {τ : Type} {d : Design τ} {p q : Pending d}

lemma refers_of_mem_below (h : q ∈ p.below) : d.Refers p.graph q.graph := by
  obtain ⟨⟨a, y⟩, hmem, hq⟩ := List.mem_filterMap.1 h
  dsimp only at hq
  split_ifs at hq with hy
  obtain rfl := Option.some.inj hq
  exact Design.refers_of_mem_children hmem

/-- The walk below a visit: first the visit itself, then what is below it, actor by actor. -/
def preorder (h : d.Acyclic) (p : Pending d) : Survey :=
  p.visit :: p.below.attach.flatMap fun q => preorder h q.1
termination_by h.wellFounded.wrap p.graph
decreasing_by exact refers_of_mem_below q.2

lemma preorder_eq (h : d.Acyclic) (p : Pending d) :
    preorder h p = p.visit :: p.below.flatMap (preorder h) := by
  rw [preorder, ← List.flatMap_map Subtype.val (preorder h), List.attach_map_subtype_val]

/-- The walk below a visit to a graph that is given by its number. -/
def visitsFrom (h : d.Acyclic) (x depth : Nat) (via : Option String) : Survey :=
  if hx : x < d.graphs.size then preorder h ⟨⟨x, hx⟩, depth, via⟩ else []

lemma visitsFrom_eq (h : d.Acyclic) {x : Nat} {g : Graph τ} (hx : d.graphs[x]? = some g)
    (depth : Nat) (via : Option String) :
    visitsFrom h x depth via = ⟨x, g.name, depth, via, g.isCyclic⟩ ::
      (Design.refinements g).flatMap fun (a, y) =>
        visitsFrom h y (depth + 1) (some (g.actorName a)) := by
  obtain ⟨hlt, hg⟩ := Array.getElem?_eq_some_iff.1 hx
  obtain rfl : d.graph ⟨x, hlt⟩ = g := hg
  rw [visitsFrom, dif_pos hlt, preorder_eq, ← Design.children_graph]
  congr 1
  rw [Pending.below, List.filterMap_eq_flatMap_toList, List.flatMap_assoc]
  refine List.flatMap_congr fun ⟨a, y⟩ _ => ?_
  by_cases hy : y < d.graphs.size <;> simp [visitsFrom, hy]

end Survey

/-! ## The loop -/

namespace Tour

variable {τ : Type} {d : Design τ} {p : Pending d} {stack : List (Pending d)}
  {visits : Array Visit}

lemma step_cons :
    step ⟨p :: stack, visits⟩ = .inr ⟨p.below ++ stack, visits.push p.visit⟩ := by
  simp [step, List.foldl_reverse]

/-- **Induction on a stack.**  What is handed on from the visits below a visit to the visit itself
holds for every stack, since the graph of a visit contains the graphs of the visits below it. -/
theorem stack_induction (h : d.Acyclic) {P : List (Pending d) → Prop} (nil : P [])
    (top : ∀ p stack, P (p.below ++ stack) → P (p :: stack)) : ∀ stack, P stack := by
  have hcons : ∀ (p : Pending d) stack, P stack → P (p :: stack) := by
    intro p
    induction hx : p.graph using h.wellFounded.induction generalizing p with
    | _ x ih =>
      subst hx
      have hbelow : ∀ (l : List (Pending d)), (∀ q ∈ l, q ∈ p.below) →
          ∀ stack, P stack → P (l ++ stack) := by
        intro l hl stack hstack
        induction l with
        | nil => exact hstack
        | cons q l ihl =>
          obtain ⟨hq, hl⟩ := List.forall_mem_cons.1 hl
          exact ih q.graph (Survey.refers_of_mem_below hq) q rfl (l ++ stack) (ihl hl)
      exact fun stack hstack => top p stack (hbelow p.below (fun q hq => hq) stack hstack)
  intro stack
  induction stack with
  | nil => exact nil
  | cons p stack ih => exact hcons p stack ih

/-- **Termination.**  In a design without circuits no tour goes on for ever. -/
theorem wellFounded_follows (h : d.Acyclic) : WellFounded (Follows (d := d)) := by
  have hstack : ∀ (stack : List (Pending d)) visits, Acc Follows (⟨stack, visits⟩ : Tour d) := by
    refine stack_induction h (fun visits => ?_) fun p stack ih visits => ?_
    · refine ⟨_, fun w' hw' => ?_⟩
      simp [Follows, step] at hw'
    · refine ⟨_, fun w' hw' => ?_⟩
      rw [Follows, step_cons] at hw'
      exact Sum.inr.inj hw' ▸ ih (visits.push p.visit)
  exact ⟨fun w => hstack w.stack w.visits⟩

/-- A tour that comes to an end is made round by round. -/
lemma run_eq_elim (h : d.Acyclic) (w : Tour d) : w.run = w.step.elim id run := by
  rw [run, WellFounded.extrinsicFix_eq_apply (wellFounded_follows h)]
  split
  case h_1 visits hw => exact (congrArg (Sum.elim id run) hw).symm
  case h_2 w' hw => exact (congrArg (Sum.elim id run) hw).symm

/-- **The loop and the recursion.**  What is found on a tour are the visits that were made and then,
from the top of the stack to its end, the walks below the visits that are still to be made. -/
theorem run_eq (h : d.Acyclic) : ∀ (stack : List (Pending d)) (visits : Array Visit),
    run ⟨stack, visits⟩ = visits ++ (stack.flatMap (Survey.preorder h)).toArray := by
  refine stack_induction h (fun visits => ?_) fun p stack ih visits => ?_
  · rw [run_eq_elim h]
    simp [step]
  · rw [run_eq_elim h, step_cons, Sum.elim_inr, ih, List.flatMap_cons, Survey.preorder_eq]
    simp

end Tour

/-! ## Chains of actors -/

namespace Design

variable {τ : Type} {d : Design τ}

/-- The graph that an actor of a graph stands for. -/
def refinementOf? (d : Design τ) (x a : Nat) : Option Nat :=
  (d.graphs[x]?.bind fun g => g.actors[a]?).bind Actor.refinement?

/-- The graph that a chain of actors leads to, where each is an actor of the graph that the one
before it stands for. -/
def follow (d : Design τ) : Nat → List Nat → Option Nat
  | x, [] => some x
  | x, a :: chain => (d.refinementOf? x a).bind fun y => d.follow y chain

lemma mem_refinements_iff {x a y : Nat} {g : Graph τ} (hx : d.graphs[x]? = some g) :
    (a, y) ∈ refinements g ↔ d.refinementOf? x a = some y := by
  rw [mem_refinements, refinementOf?, hx, Option.bind_some, Option.bind_eq_some_iff]

lemma nodup_refinements (g : Graph τ) : ((refinements g).map Prod.fst).Nodup := by
  have hnumbers := List.pairwise_map.1 (List.nodup_zipIdx_map_snd g.actors.toList)
  rw [List.Nodup, List.pairwise_map, refinements, List.pairwise_filterMap]
  refine hnumbers.imp fun {p q} hpq b hb c hc => ?_
  obtain ⟨_, _, rfl⟩ := Option.map_eq_some_iff.1 hb
  obtain ⟨_, _, rfl⟩ := Option.map_eq_some_iff.1 hc
  exact hpq

/-- The chains are all that lead on from a graph, and the visits are those that they lead to. -/
structure Covers (d : Design τ) (x : Nat) (chains : List (List Nat)) (visits : Survey) : Prop where
  nodup : chains.Nodup
  mem_iff : ∀ chain, chain ∈ chains ↔ (d.follow x chain).isSome
  map_follow : chains.map (d.follow x) = visits.map fun v => some v.graph

/-- The chains through some of the actors of a graph. -/
lemma exists_chains_through (x : Nat) (visits : Nat × Nat → Survey) :
    ∀ (l : List (Nat × Nat)), (l.map Prod.fst).Nodup →
      (∀ c ∈ l, d.refinementOf? x c.1 = some c.2) →
      (∀ c ∈ l, ∃ chains, d.Covers c.2 chains (visits c)) →
      ∃ chains : List (List Nat), chains.Nodup ∧
        (∀ chain, chain ∈ chains ↔
          ∃ c ∈ l, ∃ rest, chain = c.1 :: rest ∧ (d.follow c.2 rest).isSome) ∧
        chains.map (d.follow x) = (l.flatMap visits).map fun v => some v.graph
  | [], _, _, _ => ⟨[], List.nodup_nil, by simp, rfl⟩
  | (a, y) :: l, hnodup, hrefs, hcovers => by
      obtain ⟨ha, hnodup⟩ := List.nodup_cons.1 hnodup
      obtain ⟨hy, hrefs⟩ := List.forall_mem_cons.1 hrefs
      obtain ⟨⟨first, hfirst⟩, hcovers⟩ := List.forall_mem_cons.1 hcovers
      obtain ⟨others, hothers, hmem, hmap⟩ := exists_chains_through x visits l hnodup hrefs hcovers
      refine ⟨first.map (a :: ·) ++ others, ?_, fun chain => ?_, ?_⟩
      · refine List.nodup_append.2 ⟨hfirst.nodup.map List.cons_injective, hothers, ?_⟩
        rintro _ hleft chain hright rfl
        obtain ⟨rest, _, rfl⟩ := List.mem_map.1 hleft
        obtain ⟨c, hc, _, hchain, _⟩ := (hmem _).1 hright
        exact ha (List.mem_map.2 ⟨c, hc, (List.cons.inj hchain).1.symm⟩)
      · rw [List.mem_append, List.mem_map, hmem, List.exists_mem_cons_iff]
        refine or_congr ?_ Iff.rfl
        constructor
        · rintro ⟨rest, hrest, rfl⟩
          exact ⟨rest, rfl, (hfirst.mem_iff rest).1 hrest⟩
        · rintro ⟨rest, rfl, hrest⟩
          exact ⟨rest, (hfirst.mem_iff rest).2 hrest, rfl⟩
      · have hstep : (d.follow x ∘ fun rest => a :: rest) = d.follow y := by
          funext rest
          simp only [Function.comp_apply, follow, hy, Option.bind_some]
        rw [List.map_append, List.map_map, hstep, hfirst.map_follow, hmap, List.flatMap_cons,
          List.map_append]

/-- The walk makes one visit for every chain of actors. -/
theorem exists_covers (h : d.Acyclic)
    (hrefs : ∀ x a y, d.refinementOf? x a = some y → y < d.graphs.size) :
    ∀ (x : Fin d.graphs.size) (depth : Nat) (via : Option String),
      ∃ chains, d.Covers x chains (Survey.visitsFrom h x depth via) := by
  intro x
  induction x using h.wellFounded.induction with
  | _ x ih =>
    intro depth via
    have hx : d.graphs[x.val]? = some (d.graph x) := by simp [graph]
    have hmem : ∀ c ∈ refinements (d.graph x), d.refinementOf? x c.1 = some c.2 :=
      fun c hc => (mem_refinements_iff hx).1 hc
    obtain ⟨chains, hnodup, hchains, hmap⟩ := exists_chains_through x
      (fun c => Survey.visitsFrom h c.2 (depth + 1) (some ((d.graph x).actorName c.1)))
      (refinements (d.graph x)) (nodup_refinements _) hmem fun c hc => by
        have hy := hrefs x c.1 c.2 (hmem c hc)
        exact ih ⟨c.2, hy⟩ (refers_of_mem_children (children_graph x ▸ hc)) _ _
    refine ⟨[] :: chains, List.nodup_cons.2 ⟨?_, hnodup⟩, fun chain => ?_, ?_⟩
    · intro hnil
      obtain ⟨_, _, _, hchain, _⟩ := (hchains []).1 hnil
      exact List.cons_ne_nil _ _ hchain.symm
    · rw [List.mem_cons, hchains]
      cases chain with
      | nil => simp [follow]
      | cons a rest =>
        simp only [List.cons_ne_nil, false_or, follow, Option.isSome_bind, Option.any_eq_true]
        constructor
        · rintro ⟨c, hc, _, hchain, hrest⟩
          obtain ⟨rfl, rfl⟩ := List.cons.inj hchain
          exact ⟨c.2, hmem c hc, hrest⟩
        · rintro ⟨y, hy, hrest⟩
          exact ⟨(a, y), (mem_refinements_iff hx).2 hy, rest, rfl, hrest⟩
    · rw [List.map_cons, hmap, Survey.visitsFrom_eq h hx, List.map_cons]
      rfl

lemma Covers.encard_eq {x : Nat} {chains : List (List Nat)} {visits : Survey}
    (h : d.Covers x chains visits) (y : Nat) :
    {chain | d.follow x chain = some y}.encard = visits.countP (·.graph == y) := by
  have hset : {chain | d.follow x chain = some y} =
      ((chains.filter fun chain => d.follow x chain == some y).toFinset : Set (List Nat)) := by
    ext chain
    have hall : d.follow x chain = some y → chain ∈ chains :=
      fun hy => (h.mem_iff chain).2 (by simp [hy])
    simpa using hall
  have hcount : chains.countP (fun chain => d.follow x chain == some y) =
      visits.countP (·.graph == y) := by
    have := congrArg (List.countP (· == some y)) h.map_follow
    simpa [List.countP_map, Function.comp_def] using this
  rw [hset, Set.encard_coe_eq_coe_finsetCard,
    List.toFinset_card_of_nodup (h.nodup.filter _), ← List.countP_eq_length_filter, hcount]

variable [Clock τ]

lemma refinementOf?_lt_of_validate (hd : d.validate = .ok ()) {x a y : Nat}
    (h : d.refinementOf? x a = some y) : y < d.graphs.size := by
  obtain ⟨actor, hactor, hy⟩ := Option.bind_eq_some_iff.1 h
  obtain ⟨g, hg, ha⟩ := Option.bind_eq_some_iff.1 hactor
  have hvalid := (validate_eq_ok_iff.1 hd).1 g (Array.mem_of_getElem? hg)
  exact missingRefinement?_eq_none_iff.1 (validateGraph_eq_ok_iff.1 hvalid).2 actor
    (Array.mem_of_getElem? ha) y hy

/-- **The order of a survey.**  In a sound design there is a recursive walk: a visit to a graph,
followed by the walks below the graphs that its hierarchical actors stand for, in the order of the
actors, each one level deeper and through that actor.  The loop of a survey comes to its end from
whatever is on its stack, and from any graph of the design it finds this walk, from the depth zero
and through no actor.  So every graph is visited once for each chain of actors that leads to it. -/
theorem survey_preorder (hd : d.validate = .ok ()) :
    WellFounded (Tour.Follows (d := d)) ∧
      ∃ visit : Nat → Nat → Option String → Survey,
        (∀ x g, d.graphs[x]? = some g → ∀ depth via,
          visit x depth via = ⟨x, g.name, depth, via, g.isCyclic⟩ ::
            (refinements g).flatMap fun (a, y) => visit y (depth + 1) (some (g.actorName a))) ∧
        ∀ root < d.graphs.size,
          d.survey root = .ok (visit root 0 none) ∧
          ∀ y, {chain | d.follow root chain = some y}.encard =
            (visit root 0 none).countP (·.graph == y) := by
  have hacyclic : d.Acyclic := (validate_eq_ok_iff.1 hd).2
  refine ⟨Tour.wellFounded_follows hacyclic, Survey.visitsFrom hacyclic,
    fun x g hx => Survey.visitsFrom_eq hacyclic hx, fun root hroot => ⟨?_, fun y => ?_⟩⟩
  · have hrun : (Tour.run ⟨[⟨⟨root, hroot⟩, 0, none⟩], #[]⟩ : Array Visit) =
        (Survey.visitsFrom hacyclic root 0 none).toArray := by
      rw [Tour.run_eq hacyclic, Survey.visitsFrom, dif_pos hroot]
      simp
    rw [survey, hd]
    simp only [bind, Except.bind, hroot, dite_true, hrun]
    rfl
  · obtain ⟨chains, hcovers⟩ := exists_covers hacyclic
      (fun _ _ _ => refinementOf?_lt_of_validate hd) ⟨root, hroot⟩ 0 none
    exact hcovers.encard_eq y

/-- A graph on top, of which two actors stand for a graph in the middle and a third one for the
graph at the bottom, for which the graph in the middle has an actor, too. -/
def sharedBottom : Design ℚ where
  graphs := #[
    ⟨"top", #[.hierarchical "M1" 1 1, .atomic "X" 1 1, .hierarchical "M2" 2 1,
      .hierarchical "B" 1 2], #[], by simp⟩,
    ⟨"middle", #[.hierarchical "B" 3 2], #[], by simp⟩,
    ⟨"bottom", #[.atomic "S" 1 1], #[Graph.numberedEdge 0 0 0 0 1 1 1],
      by simp [Graph.numberedEdge]⟩]
  top := 0

/-- Three chains of actors lead to the graph at the bottom, and each of them to a visit. -/
theorem sharedBottom_visits :
    sharedBottom.validate = .ok () ∧
      sharedBottom.survey 0 = .ok
        [⟨0, "top", 0, none, false⟩, ⟨1, "middle", 1, some "M1", false⟩,
          ⟨2, "bottom", 2, some "B", true⟩, ⟨1, "middle", 1, some "M2", false⟩,
          ⟨2, "bottom", 2, some "B", true⟩, ⟨2, "bottom", 1, some "B", true⟩] ∧
      {chain | sharedBottom.follow 0 chain = some 2}.encard = 3 := by
  have hvalid : sharedBottom.validate = .ok () := by cbv
  obtain ⟨_, visit, hvisit, hroots⟩ := survey_preorder hvalid
  obtain ⟨hsurvey, hchains⟩ := hroots 0 (by decide)
  have hbottom : ∀ depth via, visit 2 depth via = [⟨2, "bottom", depth, via, true⟩] :=
    fun depth via => hvisit 2 _ rfl depth via
  have hmiddle : ∀ depth via, visit 1 depth via =
      [⟨1, "middle", depth, via, false⟩, ⟨2, "bottom", depth + 1, some "B", true⟩] := by
    intro depth via
    refine (hvisit 1 _ rfl depth via).trans ?_
    change _ :: (visit 2 (depth + 1) (some "B") ++ []) = _
    rw [hbottom]
    rfl
  have htop : visit 0 0 none =
      [⟨0, "top", 0, none, false⟩, ⟨1, "middle", 1, some "M1", false⟩,
        ⟨2, "bottom", 2, some "B", true⟩, ⟨1, "middle", 1, some "M2", false⟩,
        ⟨2, "bottom", 2, some "B", true⟩, ⟨2, "bottom", 1, some "B", true⟩] := by
    refine (hvisit 0 _ rfl 0 none).trans ?_
    change _ :: (visit 1 1 (some "M1") ++
      (visit 1 1 (some "M2") ++ (visit 2 1 (some "B") ++ []))) = _
    rw [hmiddle, hmiddle, hbottom]
    rfl
  rw [htop] at hsurvey hchains
  exact ⟨hvalid, hsurvey, hchains 2⟩

end Design

end Dataflow

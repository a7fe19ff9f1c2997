import Dataflow.Graph.WellFormed
import Dataflow.Proofs.Ledger.Effect

/-!
# Counting tokens in units

The tokens of an edge move in whole firings, so that they may be counted in larger units: if `unit`
divides both rates of an edge, the edge can be described by the rates and the delay divided by
`unit`.  Tokens of the delay that are left over then are never part of a firing.

* `Edge.InUnits`, `Graph.InUnits` — the same edge and the same graph, counted in units.
* `Ledger.InUnits` — two ledgers that agree, when tokens are counted in units.
* `Ledger.InUnits.enabled_eq` — the same firings are enabled.
* **`Ledger.InUnits.produce`**, **`Ledger.InUnits.consume`** — what one ledger can do the other can,
  and they still agree.
-/

namespace Dataflow

/-! ## Graphs in units -/

/-- The second edge is the first one with its tokens counted in units. -/
structure Edge.InUnits (unit : Nat) (e e' : Edge) : Prop where
  source : e'.source = e.source
  target : e'.target = e.target
  production : e.production = unit * e'.production
  consumption : e.consumption = unit * e'.consumption
  delay : e'.delay = e.delay / unit
  sourcePort : e'.sourcePort = e.sourcePort
  targetPort : e'.targetPort = e.targetPort

/-- The second actor is the first one, perhaps with another origin. -/
structure Actor.IsLike {τ : Type} (x y : Actor τ) : Prop where
  name : y.name = x.name
  kind : y.kind = x.kind
  repetitions : y.repetitions = x.repetitions
  duration : y.duration = x.duration

/-- The second graph is the first one with the tokens of every edge counted in units. -/
structure Graph.InUnits {τ : Type} (unit : Nat → Nat) (g h : Graph τ) : Prop where
  unit_pos : ∀ i, 0 < unit i
  actors_size : h.actors.size = g.actors.size
  edges_size : h.edges.size = g.edges.size
  actors : ∀ (a : Nat) (x y : Actor τ), g.actors[a]? = some x → h.actors[a]? = some y → x.IsLike y
  edges : ∀ (i : Nat) (e e' : Edge), g.edges[i]? = some e → h.edges[i]? = some e' →
    Edge.InUnits (unit i) e e'

namespace Graph.InUnits

variable {τ : Type} {unit : Nat → Nat} {g h : Graph τ}

lemma actor_cases (hu : g.InUnits unit h) (a : Nat) :
    (g.actors[a]? = none ∧ h.actors[a]? = none) ∨
      ∃ x y, g.actors[a]? = some x ∧ h.actors[a]? = some y ∧ x.IsLike y := by
  by_cases ha : a < g.actors.size
  · have hx := Array.getElem?_eq_getElem ha
    have hy := Array.getElem?_eq_getElem (hu.actors_size.symm ▸ ha)
    exact Or.inr ⟨_, _, hx, hy, hu.actors a _ _ hx hy⟩
  · refine Or.inl ⟨Array.getElem?_eq_none (Nat.le_of_not_lt ha), Array.getElem?_eq_none ?_⟩
    rw [hu.actors_size]
    exact Nat.le_of_not_lt ha

lemma edge_cases (hu : g.InUnits unit h) (i : Nat) :
    (g.edges[i]? = none ∧ h.edges[i]? = none) ∨
      ∃ e e', g.edges[i]? = some e ∧ h.edges[i]? = some e' ∧ Edge.InUnits (unit i) e e' := by
  by_cases hi : i < g.edges.size
  · have he := Array.getElem?_eq_getElem hi
    have he' := Array.getElem?_eq_getElem (hu.edges_size.symm ▸ hi)
    exact Or.inr ⟨_, _, he, he', hu.edges i _ _ he he'⟩
  · refine Or.inl ⟨Array.getElem?_eq_none (Nat.le_of_not_lt hi), Array.getElem?_eq_none ?_⟩
    rw [hu.edges_size]
    exact Nat.le_of_not_lt hi

/-- What is read from an actor without its origin is read from the other one, too. -/
lemma map_actor_eq (hu : g.InUnits unit h) {α : Type} {f : Actor τ → α}
    (hf : ∀ x y : Actor τ, x.IsLike y → f y = f x) (a : Nat) :
    h.actors[a]?.map f = g.actors[a]?.map f := by
  rcases hu.actor_cases a with ⟨hx, hy⟩ | ⟨x, y, hx, hy, hlike⟩
  · rw [hx, hy]
  · rw [hx, hy, Option.map_some, Option.map_some, hf x y hlike]

/-- What is read from an edge is read from the other one, too, if units do not matter. -/
lemma map_edge_eq (hu : g.InUnits unit h) {α : Type} {f : Edge → α}
    (hf : ∀ (n : Nat) (e e' : Edge), e.InUnits n e' → f e' = f e) (i : Nat) :
    h.edges[i]?.map f = g.edges[i]?.map f := by
  rcases hu.edge_cases i with ⟨he, he'⟩ | ⟨e, e', he, he', hedge⟩
  · rw [he, he']
  · rw [he, he', Option.map_some, Option.map_some, hf _ e e' hedge]

lemma repetitions_eq (hu : g.InUnits unit h) (a : Nat) : h.repetitions a = g.repetitions a := by
  rw [Graph.repetitions, Graph.repetitions,
    hu.map_actor_eq fun _ _ hlike => hlike.repetitions]

lemma duration_eq [Clock τ] (hu : g.InUnits unit h) (a : Nat) : h.duration a = g.duration a := by
  rw [Graph.duration, Graph.duration,
    hu.map_actor_eq fun _ _ hlike => hlike.duration]

lemma production_eq (hu : g.InUnits unit h) (i : Nat) :
    g.production i = unit i * h.production i := by
  rcases hu.edge_cases i with ⟨he, he'⟩ | ⟨e, e', he, he', hedge⟩
  · simp [Graph.production, he, he']
  · simp [Graph.production, he, he', hedge.production]

lemma consumption_eq (hu : g.InUnits unit h) (i : Nat) :
    g.consumption i = unit i * h.consumption i := by
  rcases hu.edge_cases i with ⟨he, he'⟩ | ⟨e, e', he, he', hedge⟩
  · simp [Graph.consumption, he, he']
  · simp [Graph.consumption, he, he', hedge.consumption]

/-- Whole firings are whole units: what is left over of the units stays what it is. -/
lemma add_div_unit (hu : g.InUnits unit h) (i t n : Nat) :
    (t + n * g.production i) / unit i = t / unit i + n * h.production i := by
  rw [hu.production_eq, Nat.mul_left_comm, Nat.add_mul_div_left _ _ (hu.unit_pos i)]

lemma sub_div_unit (hu : g.InUnits unit h) (i t n : Nat) :
    (t - n * g.consumption i) / unit i = t / unit i - n * h.consumption i := by
  rw [hu.consumption_eq, Nat.mul_left_comm, Nat.sub_mul_div]

lemma le_div_unit_iff (hu : g.InUnits unit h) (i t n : Nat) :
    n * h.consumption i ≤ t / unit i ↔ n * g.consumption i ≤ t := by
  rw [Nat.le_div_iff_mul_le (hu.unit_pos i), hu.consumption_eq, Nat.mul_left_comm, Nat.mul_comm]

lemma outgoing_eq (hu : g.InUnits unit h) (a : Nat) : h.outgoing a = g.outgoing a := by
  simp only [Graph.outgoing, edgesAt, hu.edges_size,
    hu.map_edge_eq (f := Edge.source) fun _ _ _ hedge => hedge.source]

lemma incoming_eq (hu : g.InUnits unit h) (a : Nat) : h.incoming a = g.incoming a := by
  simp only [Graph.incoming, edgesAt, hu.edges_size,
    hu.map_edge_eq (f := Edge.target) fun _ _ _ hedge => hedge.target]

lemma targets_eq (hu : g.InUnits unit h) (edges : List Nat) :
    h.targets edges = g.targets edges := by
  have htarget : h.target? = g.target? :=
    funext (hu.map_edge_eq (f := Edge.target) fun _ _ _ hedge => hedge.target)
  rw [Graph.targets, Graph.targets, htarget]

/-- A graph stays well-formed when its tokens are counted in units. -/
theorem wellFormed [Clock τ] (hu : g.InUnits unit h) (hg : g.WellFormed) : h.WellFormed := by
  have hkind := hu.map_actor_eq (f := Actor.kind) fun _ _ hlike => hlike.kind
  refine ⟨?_, ?_, ?_⟩
  · have hnames : h.actors.toList.map Actor.name = g.actors.toList.map Actor.name := by
      refine List.ext_getElem? ?_
      intro a
      simpa using hu.map_actor_eq (f := Actor.name) (fun _ _ hlike => hlike.name) a
    rw [hnames]
    exact hg.names_nodup
  · intro y hy
    obtain ⟨a, ha⟩ := Array.getElem?_of_mem hy
    rcases hu.actor_cases a with ⟨_, hnone⟩ | ⟨x, y', hx, hy', hlike⟩
    · simp [ha] at hnone
    · obtain rfl := Option.some.inj (ha.symm.trans hy')
      have hw := hg.actors_wellFormed x (Array.mem_of_getElem? hx)
      exact ⟨hlike.repetitions ▸ hw.repetitions_pos, hlike.duration ▸ hw.isDuration⟩
  · intro e' he'
    obtain ⟨i, hi⟩ := Array.getElem?_of_mem he'
    rcases hu.edge_cases i with ⟨_, hnone⟩ | ⟨e, e'', he, he'', hedge⟩
    · simp [hi] at hnone
    · obtain rfl := Option.some.inj (hi.symm.trans he'')
      have hw := hg.edges_wellFormed e (Array.mem_of_getElem? he)
      exact
        { production_pos := Nat.pos_of_mul_pos_left (hedge.production ▸ hw.production_pos)
          consumption_pos := Nat.pos_of_mul_pos_left (hedge.consumption ▸ hw.consumption_pos)
          sourcePort_output := hedge.sourcePort ▸ hw.sourcePort_output
          targetPort_input := hedge.targetPort ▸ hw.targetPort_input
          source_not_output := by
            rw [hedge.source, hkind]
            exact hw.source_not_output
          target_not_input := by
            rw [hedge.target, hkind]
            exact hw.target_not_input }

end Graph.InUnits

/-! ## Ledgers in units -/

namespace Ledger

variable {τ : Type} [Clock τ] {unit : Nat → Nat} {g h : Graph τ} {l : Ledger g} {l' : Ledger h}

/-- The ledgers agree, when the tokens of the second are units. -/
structure InUnits (unit : Nat → Nat) (l : Ledger g) (l' : Ledger h) : Prop where
  tokens : ∀ i, l'.tokens i = l.tokens i / unit i
  firings : ∀ a, l'.firings a = l.firings a
  starts : ∀ a, l'.startDate a = l.startDate a
  finishes : ∀ a, l'.finishDate a = l.finishDate a

lemma inUnits_ledger (hu : g.InUnits unit h) : InUnits unit g.ledger h.ledger where
  tokens i := by
    rcases hu.edge_cases i with ⟨he, he'⟩ | ⟨e, e', he, he', hedge⟩
    · simp [Graph.ledger, tokens, he, he']
    · simp [Graph.ledger, tokens, he, he', hedge.delay]
  firings a := by
    by_cases ha : a < g.actors.size <;>
      simp [Graph.ledger, firings, hu.actors_size, ha]
  starts a := by
    by_cases ha : a < g.actors.size <;>
      simp [Graph.ledger, startDate, hu.actors_size, ha]
  finishes a := by
    by_cases ha : a < g.actors.size <;>
      simp [Graph.ledger, finishDate, hu.actors_size, ha]

/-! ### Writes -/

namespace InUnits

lemma note (hl : InUnits unit l l') (event event' : Event τ) :
    InUnits unit (l.note event) (l'.note event') :=
  ⟨hl.tokens, hl.firings, hl.starts, hl.finishes⟩

lemma setTokens (hu : g.InUnits unit h) (hl : InUnits unit l l') (e : Nat) {n n' : Nat}
    (hn : n' = n / unit e) : InUnits unit (l.setTokens e n) (l'.setTokens e n') where
  tokens i := by
    rw [tokens_setTokens, tokens_setTokens, hu.edges_size]
    by_cases hi : e = i ∧ e < g.edges.size
    · rw [if_pos hi, if_pos hi, hn, hi.1]
    · rw [if_neg hi, if_neg hi, hl.tokens]
  firings := hl.firings
  starts := hl.starts
  finishes := hl.finishes

lemma setFirings (hu : g.InUnits unit h) (hl : InUnits unit l l') (a n : Nat) :
    InUnits unit (l.setFirings a n) (l'.setFirings a n) where
  tokens := hl.tokens
  firings b := by
    rw [firings_setFirings, firings_setFirings, hu.actors_size, hl.firings]
  starts := hl.starts
  finishes := hl.finishes

lemma setStart (hu : g.InUnits unit h) (hl : InUnits unit l l') (a : Nat) (date : τ) :
    InUnits unit (l.setStart a date) (l'.setStart a date) where
  tokens := hl.tokens
  firings := hl.firings
  starts b := by
    by_cases ha : a < g.actors.size
    · rw [startDate_setStart l ha, startDate_setStart l' (hu.actors_size ▸ ha), hl.starts]
    · have hb := hl.starts b
      simp only [startDate, Ledger.setStart, Vector.getElem?_setIfInBounds] at hb ⊢
      grind [hu.actors_size]
  finishes := hl.finishes

lemma setFinish (hu : g.InUnits unit h) (hl : InUnits unit l l') (a : Nat) (date : τ) :
    InUnits unit (l.setFinish a date) (l'.setFinish a date) where
  tokens := hl.tokens
  firings := hl.firings
  starts := hl.starts
  finishes b := by
    by_cases ha : a < g.actors.size
    · rw [finishDate_setFinish l ha, finishDate_setFinish l' (hu.actors_size ▸ ha), hl.finishes]
    · have hb := hl.finishes b
      simp only [finishDate, Ledger.setFinish, Vector.getElem?_setIfInBounds] at hb ⊢
      grind [hu.actors_size]

lemma foldl_setTokens (hu : g.InUnits unit h) {f f' : Nat → Nat} (hf : ∀ i, f' i = f i / unit i)
    (edges : List Nat) : ∀ {l : Ledger g} {l' : Ledger h}, InUnits unit l l' →
      InUnits unit
        ((edges.map fun i => (i, f i)).foldl (fun l (e, tokens) => l.setTokens e tokens) l)
        ((edges.map fun i => (i, f' i)).foldl (fun l (e, tokens) => l.setTokens e tokens) l') := by
  induction edges with
  | nil => exact fun hl => hl
  | cons e rest ih => exact fun hl => ih (hl.setTokens hu e (hf e))

/-! ### Operations -/

lemma produceInto (hu : g.InUnits unit h) (hl : InUnits unit l l') (a n e : Nat) :
    Attempt.Follows (InUnits unit) (produceInto a n e l) (produceInto a n e l') := by
  intro m hm
  rw [Ledger.produceInto] at hm
  split at hm
  case h_2 => simp at hm
  case h_1 added now hd =>
    obtain rfl := Attempt.finished_inj.1 hm
    obtain ⟨hadded, hnow, hr⟩ := deposit_eq_ok_iff.1 hd
    obtain ⟨rfl, rfl⟩ := Prod.mk.inj hr
    have hunits : (l.tokens e + n * g.production e) / unit e =
        l'.tokens e + n * h.production e := by
      rw [hu.add_div_unit, hl.tokens]
    have hfewer : n * h.production e ≤ n * g.production e := by
      rw [hu.production_eq]
      exact Nat.mul_le_mul_left n (Nat.le_mul_of_pos_left _ (hu.unit_pos e))
    have hdeposit : l'.deposit n e =
        .ok (n * h.production e, l'.tokens e + n * h.production e) := by
      refine deposit_eq_ok_iff.2 ⟨Nat.lt_of_le_of_lt hfewer hadded, ?_, rfl⟩
      rw [← hunits]
      exact Nat.lt_of_le_of_lt (Nat.div_le_self _ _) hnow
    refine ⟨_, by rw [Ledger.produceInto, hdeposit], ?_⟩
    exact (hl.setTokens hu e hunits.symm).note _ _

/-- What one ledger can put into its edges the other can, and they still agree. -/
theorem produce (hu : g.InUnits unit h) (hl : InUnits unit l l') (a n : Nat) :
    Attempt.Follows (InUnits unit) (produce a n l) (produce a n l') := by
  rw [Ledger.produce, Ledger.produce, outgoing_eq, outgoing_eq, hu.outgoing_eq]
  exact .each (fun e _ _ hm => hm.produceInto hu a n e) _ hl

/-- What one ledger can take out of its edges the other can, and they still agree. -/
theorem consume (hu : g.InUnits unit h) (hl : InUnits unit l l') (a n : Nat) :
    Attempt.Follows (InUnits unit) (consume a n l) (consume a n l') := by
  intro m hm
  rw [Ledger.consume] at hm
  split at hm
  case h_2 => simp at hm
  case h_1 left total hw =>
    obtain rfl := Attempt.finished_inj.1 hm
    obtain ⟨⟨hbound, henough, htotal⟩, rfl, rfl⟩ := withdrawals_eq_ok_iff.1 hw
    have hwithdrawals : l'.withdrawals a n =
        .ok ((g.incoming a).map (fun i => (i, l'.tokens i - n * h.consumption i)),
          l.firings a + n) := by
      refine withdrawals_eq_ok_iff.2 ⟨⟨?_, ?_, ?_⟩, ?_, ?_⟩
      · intro i hi
        rw [hu.incoming_eq] at hi
        refine Nat.lt_of_le_of_lt ?_ (hbound i hi)
        rw [hu.consumption_eq]
        exact Nat.mul_le_mul_left n (Nat.le_mul_of_pos_left _ (hu.unit_pos i))
      · intro i hi
        rw [hu.incoming_eq] at hi
        rw [hl.tokens, hu.le_div_unit_iff]
        exact henough i hi
      · rwa [hl.firings]
      · rw [hu.incoming_eq]
      · rw [hl.firings]
    refine ⟨_, by rw [Ledger.consume, hwithdrawals], ?_⟩
    refine ((foldl_setTokens hu ?_ _ hl).setFirings hu a _).note _ _
    intro i
    rw [hl.tokens, hu.sub_div_unit]

lemma enabled_eq (hu : g.InUnits unit h) (hl : InUnits unit l l') (a : Nat) :
    l'.enabled a = l.enabled a := by
  have hrates : ∀ i, l'.tokens i / h.consumption i = l.tokens i / g.consumption i := by
    intro i
    rw [hl.tokens, Nat.div_div_eq_div_mul, ← hu.consumption_eq]
  rw [enabled, enabled, Ledger.incoming_eq, Ledger.incoming_eq, hu.incoming_eq, hu.repetitions_eq,
    hl.firings]
  simp only [hrates]

omit [Clock τ] in
lemma downstream_eq (hu : g.InUnits unit h) (l : Ledger g) (l' : Ledger h) (sources : List Nat) :
    l'.downstream sources = l.downstream sources := by
  have hout : l'.outgoing = l.outgoing := by
    funext a
    rw [Ledger.outgoing_eq, Ledger.outgoing_eq, hu.outgoing_eq]
  rw [downstream, downstream, hu.targets_eq, hout]

lemma isComplete_eq (hu : g.InUnits unit h) (hl : InUnits unit l l') :
    l'.isComplete = l.isComplete := by
  simp only [isComplete, hu.actors_size, hl.firings, hu.repetitions_eq]

lemma owed_eq (hu : g.InUnits unit h) (hl : InUnits unit l l') : l'.owed = l.owed := by
  simp only [owed, hu.actors_size, hl.firings, hu.repetitions_eq]

end InUnits

end Ledger

end Dataflow

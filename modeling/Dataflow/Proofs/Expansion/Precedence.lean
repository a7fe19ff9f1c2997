import Dataflow.Balance
import Dataflow.Proofs.Circuit
import Dataflow.Proofs.Dates
import Dataflow.Proofs.Expansion.Coalescing

/-!
# Precedences between firings

Inside an iteration a firing waits for the firings whose tokens it takes.  In an expansion these are
the edges without delay: every one of them leads from a firing that the target needs
(`Edge.demand`), and if the source fires often enough (`Graph.Supplied`), the last firing needed is
joined to the target by one.

* `Graph.Precedes` — an edge without delay leads from one instance to another.
* **`Graph.Unfolds.exists_sender`**, **`Graph.Unfolds.precedes_last`** — the precedences of an
  expansion in terms of the graph that it unfolds.
* `Graph.Orders` — the same for the graph of the precedences, and
  `Graph.orders_of_iterationPrecedences` that it is such a graph.
-/

namespace Dataflow

namespace Edge

variable {e : Edge}

/-! ## Tokens that firings need -/

/-- A token that firing `k` of the target or an earlier one takes is sent by a firing that it
needs. -/
lemma lt_demand_of_reader_lt (hp : 0 < e.production) (hc : 0 < e.consumption)
    {n k : Nat} (h : e.reader n < k) : n / e.production < e.demand k := by
  rw [← not_le, demand_le_iff hp, not_le]
  have hread : e.delay + n < k * e.consumption := (Nat.div_lt_iff_lt_mul hc).1 h
  have hsend := Nat.mul_div_le n e.production
  omega

/-- The last token that firing `k` of the target takes is sent by the last firing that it needs. -/
lemma exists_last_token (hp : 0 < e.production) (hc : 0 < e.consumption) {k : Nat}
    (hpos : 0 < e.demand k) :
    ∃ n, e.delay + n + 1 = k * e.consumption ∧ e.reader n + 1 = k ∧
      n / e.production + 1 = e.demand k := by
  have hmore : e.delay < k * e.consumption := by
    rw [← not_le]
    intro hle
    exact absurd ((demand_le_iff hp (n := 0)).2 (by omega)) (by omega)
  obtain ⟨n, hn⟩ : ∃ n, e.delay + n + 1 = k * e.consumption :=
    ⟨k * e.consumption - e.delay - 1, by omega⟩
  have hreader : e.reader n + 1 = k := by
    cases k with
    | zero => omega
    | succ k =>
      rw [Nat.add_mul, Nat.one_mul] at hn
      rw [reader, Nat.div_eq_of_lt_le (k := k) (by omega) (by rw [Nat.add_mul]; omega)]
  refine ⟨n, hn, hreader, Nat.le_antisymm (lt_demand_of_reader_lt hp hc (by omega)) ?_⟩
  rw [demand_le_iff hp]
  have := Nat.lt_mul_div_succ n hp
  omega

lemma Uniform.lag_eq_zero_iff (he : e.Uniform) : e.arc.lag = 0 ↔ e.delay = 0 := by
  obtain ⟨lag, hlag⟩ := he.dvd_delay
  have hp := he.production_pos
  simp [arc, hlag, hp.ne']

lemma Uniform.demand_one (he : e.Uniform) : e.demand 1 = if e.delay = 0 then 1 else 0 := by
  obtain ⟨lag, hlag⟩ := he.dvd_delay
  have hp := he.production_pos
  split_ifs with hzero
  · refine Nat.le_antisymm ((demand_le_iff hp).2 ?_) (Nat.pos_of_ne_zero fun h => ?_)
    · rw [he.consumption_eq]
      omega
    · have := (demand_le_iff hp).1 h.le
      rw [hzero, he.consumption_eq] at this
      omega
  · have hle := Nat.le_of_dvd (Nat.pos_of_ne_zero hzero) he.dvd_delay
    refine Nat.eq_zero_of_le_zero ((demand_le_iff hp).2 ?_)
    rw [he.consumption_eq]
    omega

lemma Uniform.demand_one_pos (he : e.Uniform) (h : 0 < e.demand 1) :
    e.delay = 0 ∧ e.demand 1 = 1 := by
  have hone := he.demand_one
  split_ifs at hone with hdelay
  · exact ⟨hdelay, hone⟩
  · omega

end Edge

namespace Graph

variable {τ : Type} {g h : Graph τ} {x y a i : Nat}

/-- An edge without delay leads from the first actor to the second. -/
def Precedes (h : Graph τ) (x y : Nat) : Prop :=
  ∃ e ∈ h.edges, e.delay = 0 ∧ e.source = x ∧ e.target = y

/-- The sources fire often enough for all firings of an iteration. -/
def Supplied (g : Graph τ) : Prop :=
  ∀ e ∈ g.edges, g.repetitions e.target * e.consumption ≤
    e.delay + e.production * g.repetitions e.source

lemma Balanced.supplied (hg : g.Balanced) : g.Supplied := by
  intro e he
  rw [hg e he, Nat.mul_comm]
  exact Nat.le_add_left _ _

/-! ## The precedences of an expansion -/

section Unfolds

variable [Clock τ]

/-- An instance waits only for firings that its own firing needs. -/
theorem Unfolds.exists_sender (hh : g.Unfolds h) (hg : g.WellFormed) (hi : i < g.repetitions a)
    (hx : h.Precedes x (Expansion.firstInstance g a + i)) :
    ∃ e ∈ g.edges, e.target = a ∧ ∃ j < e.demand (i + 1),
      x = Expansion.firstInstance g e.source + j := by
  obtain ⟨e', he', hdelay, rfl, htarget⟩ := hx
  obtain ⟨base, e, n, he, hn, harc⟩ := mem_tokenArcs.1 ((hh.arcs e'.arc).1 ⟨e', he', rfl⟩)
  have hmem := Array.mem_of_getElem? he
  have hw := hg.edges_wellFormed e hmem
  have hlag : e.reader n / g.repetitions e.target = 0 :=
    (congrArg Arc.lag harc).trans ((hh.edges e' he').lag_eq_zero_iff.2 hdelay)
  have hreceivers := hg.repetitions_pos (g.closed e hmem).2
  have hends : Expansion.firstInstance g e.target + e.reader n % g.repetitions e.target =
      Expansion.firstInstance g a + i := (congrArg Arc.target harc).trans htarget
  obtain ⟨rfl, hreceiver⟩ := Expansion.firstInstance_inj (Nat.mod_lt _ hreceivers) hi hends
  -- the token is read in its own iteration, by firing `i` of the actor
  have hreader : e.reader n = i := by
    have hdiv := Nat.div_add_mod (e.reader n) (g.repetitions e.target)
    rw [hlag, hreceiver] at hdiv
    omega
  exact ⟨e, hmem, rfl, n / e.production,
    Edge.lt_demand_of_reader_lt hw.production_pos hw.consumption_pos (by omega),
    (congrArg Arc.source harc).symm⟩

/-- An instance waits for the last firing that its own firing needs. -/
theorem Unfolds.precedes_last (hh : g.Unfolds h) (hg : g.WellFormed) (hsupplied : g.Supplied)
    {e : Edge} (he : e ∈ g.edges) (hi : i < g.repetitions e.target) {j : Nat}
    (hj : e.demand (i + 1) = j + 1) :
    j < g.repetitions e.source ∧ h.Precedes (Expansion.firstInstance g e.source + j)
      (Expansion.firstInstance g e.target + i) := by
  have hw := hg.edges_wellFormed e he
  obtain ⟨n, hn, hreader, hsent⟩ :=
    Edge.exists_last_token hw.production_pos hw.consumption_pos (k := i + 1) (by omega)
  have hreader : e.reader n = i := by omega
  have hsent : n / e.production = j := by omega
  -- the last token that the firing takes is sent in the same iteration
  have hlt : n < e.production * g.repetitions e.source := by
    have hall := hsupplied e he
    have hmul : (i + 1) * e.consumption ≤ g.repetitions e.target * e.consumption :=
      Nat.mul_le_mul_right _ hi
    omega
  obtain ⟨base, hbase⟩ := Array.getElem?_of_mem he
  obtain ⟨e', he', harc⟩ := (hh.arcs _).2 (mem_tokenArcs.2 ⟨base, e, n, hbase, hlt, rfl⟩)
  rw [Expansion.tokenArc, hreader, hsent, Nat.div_eq_of_lt hi, Nat.mod_eq_of_lt hi] at harc
  refine ⟨hsent ▸ Nat.div_lt_of_lt_mul hlt, e', he', ?_, congrArg Arc.source harc,
    congrArg Arc.target harc⟩
  exact (hh.edges e' he').lag_eq_zero_iff.1 (congrArg Arc.lag harc)

lemma IsInstance.duration (hx : g.IsInstance h x a i) : h.duration x = g.duration a := by
  obtain ⟨actor, ha, _, hx⟩ := hx
  simp [Graph.duration, ha, hx, Actor.instance]

end Unfolds

/-! ## The graph of the precedences -/

/-- The actors of `d` are the instances of `g`, and its edges lead from firings to the firings that
wait for them. -/
structure Orders [Clock τ] (g d : Graph τ) : Prop where
  wellFormed : g.WellFormed
  isInstance : ∀ {a i}, i < g.repetitions a → Expansion.firstInstance g a + i < d.actors.size ∧
    d.duration (Expansion.firstInstance g a + i) = g.duration a
  exists_instance : ∀ {x}, x < d.actors.size →
    ∃ a i, i < g.repetitions a ∧ x = Expansion.firstInstance g a + i
  exists_sender : ∀ {x a i}, i < g.repetitions a →
    d.Joins x (Expansion.firstInstance g a + i) →
      ∃ e ∈ g.edges, e.target = a ∧ ∃ j < e.demand (i + 1),
        x = Expansion.firstInstance g e.source + j
  joins_last : g.Supplied → ∀ {e : Edge}, e ∈ g.edges → ∀ {i j}, i < g.repetitions e.target →
    e.demand (i + 1) = j + 1 → j < g.repetitions e.source ∧
      d.Joins (Expansion.firstInstance g e.source + j) (Expansion.firstInstance g e.target + i)

variable [Clock τ] {d s : Graph τ}

/-- The edges without delay of a graph whose actors and edges remember where they come from. -/
def precedenceForm (s : Graph τ) (name : String) : Graph τ :=
  s.withOrigins.filterEdges name fun e => !e.hasDelay

omit [Clock τ] in
lemma joins_precedenceForm (s : Graph τ) (name : String) :
    (s.precedenceForm name).Joins x y ↔ s.Precedes x y := by
  have hkept : ∀ {e : Edge}, (!e.hasDelay) = true ↔ e.delay = 0 := by simp [Edge.hasDelay]
  constructor
  · rintro ⟨e, he, rfl, rfl⟩
    obtain ⟨hmem, hdelay⟩ := Array.mem_filter.1 he
    obtain ⟨i, hi, rfl⟩ := Array.mem_mapIdx.1 hmem
    exact ⟨s.edges[i], Array.getElem_mem hi, hkept.1 hdelay, rfl, rfl⟩
  · rintro ⟨e, he, hdelay, rfl, rfl⟩
    obtain ⟨i, hi, rfl⟩ := Array.mem_iff_getElem.1 he
    exact ⟨_, Array.mem_filter.2 ⟨Array.mem_mapIdx.2 ⟨i, hi, rfl⟩, hkept.2 hdelay⟩, rfl, rfl⟩

lemma duration_precedenceForm (s : Graph τ) (name : String) (x : Nat) :
    (s.precedenceForm name).duration x = s.duration x := by
  simp only [Graph.duration, precedenceForm, filterEdges, withOrigins, updateEdges, updateActors,
    Array.getElem?_mapIdx]
  cases s.actors[x]? <;> rfl

omit [Clock τ] in
lemma size_precedenceForm (s : Graph τ) (name : String) :
    (s.precedenceForm name).actors.size = s.actors.size := by
  simp [precedenceForm, filterEdges, withOrigins, updateEdges, updateActors]

lemma precedences_eq_ok (hs : s.validateSingleRate = .ok ()) :
    s.precedences = .ok (s.precedenceForm (s.name ++ "_DAG")) := by
  rw [precedences, hs]
  rfl

lemma iterationPrecedences_eq_ok (hs : g.expand .runs = .ok s) :
    g.iterationPrecedences =
      .ok ((s.precedenceForm (s.name ++ "_DAG")).rename (g.name ++ "_DAG")) := by
  have hform := precedences_eq_ok (expanded_of_expand hs).validateSingleRate
  rw [iterationPrecedences, hs]
  simp only [bind, Except.bind, hform, pure, Except.pure]

/-- The precedences inside one iteration order the firings of the graph. -/
theorem orders_of_iterationPrecedences (hd : g.iterationPrecedences = .ok d) : g.Orders d := by
  obtain ⟨s, hs, _⟩ := bind_eq_ok.1 hd
  obtain rfl := Except.ok.inj ((iterationPrecedences_eq_ok hs).symm.trans hd)
  have hexpanded := expanded_of_expand hs
  have hg := hexpanded.wellFormed
  have hunfolds := hexpanded.unfolds
  refine ⟨hg, fun {a i} hi => ?_, fun {x} hx => ?_, fun {x a i} hi hx => ?_,
    fun hsupplied {e} he {i j} hi hj => ?_⟩
  · have hx := Expansion.isInstance_firstInstance hunfolds.actors hi
    exact ⟨(size_precedenceForm s _).symm ▸ hx.lt_size,
      (duration_precedenceForm s _ _).trans hx.duration⟩
  · obtain ⟨a, i, rfl, hx⟩ :=
      Expansion.exists_isInstance hunfolds.actors (size_precedenceForm s _ ▸ hx)
    exact ⟨a, i, hx.lt_repetitions, rfl⟩
  · exact hunfolds.exists_sender hg hi ((joins_precedenceForm s _).1 hx)
  · obtain ⟨hsender, hprecedes⟩ := hunfolds.precedes_last hg hsupplied he hi hj
    exact ⟨hsender, (joins_precedenceForm s _).2 hprecedes⟩

end Graph

end Dataflow

import Dataflow.Proofs.Balance.Parts
import Dataflow.Proofs.Balance.Ratio

/-!
# The part around an actor

The exploration from a root finds the actors that edges connect with it, each once, with the ratio
of its firings to those of the root.  Every edge of the part has been looked at from both of its
ends when the exploration is over.  Whatever numbers of firings balance the edges of the part, they
stand in the ratios that were found; so where two edges demand different ratios of one actor, no
numbers of firings do.

* `Balance.mem_neighbours` — the edges at an actor, seen from it.
* `Balance.Explored` — what is known at any time of the exploration.
* **`Balance.explore_ok`**, **`Balance.explore_error`** — what the exploration finds, and what it
  means if it stops because of two different ratios.
* `Balance.component_ok` — the part around a root.
-/

namespace Dataflow

namespace Balance

variable {τ : Type} {g : Graph τ} {a root : Nat} {r : Ratio} {n : Neighbour}

/-! ## Neighbours -/

lemma mem_filterMap_edgesAt {side : Edge → Nat} {e : Edge} :
    e ∈ (g.edgesAt side a).filterMap (g.edges[·]?) ↔ e ∈ g.edges ∧ side e = a := by
  rw [List.mem_filterMap, Array.mem_iff_getElem?]
  constructor
  · rintro ⟨i, hi, he⟩
    obtain ⟨e', he', hside⟩ := Graph.mem_edgesAt.1 hi
    obtain rfl := Option.some.inj (he.symm.trans he')
    exact ⟨⟨i, he⟩, hside⟩
  · rintro ⟨⟨i, he⟩, hside⟩
    exact ⟨i, Graph.mem_edgesAt.2 ⟨e, he, hside⟩, he⟩

lemma mem_neighbours : n ∈ neighbours g g.incidence a ↔
    ∃ e ∈ g.edges, (e.source = a ∧ n = ⟨e.target, e.production, e.consumption⟩) ∨
      (e.target = a ∧ n = ⟨e.source, e.consumption, e.production⟩) := by
  simp only [neighbours, Graph.outgoing_incidence, Graph.incoming_incidence, List.mem_append,
    List.mem_map, Graph.outgoing, Graph.incoming, mem_filterMap_edgesAt]
  grind

lemma linked_of_mem_neighbours (h : n ∈ neighbours g g.incidence a) : g.Linked a n.actor := by
  obtain ⟨e, he, ⟨rfl, rfl⟩ | ⟨rfl, rfl⟩⟩ := mem_neighbours.1 h
  · exact Graph.linked_of_edge he
  · exact (Graph.linked_of_edge he).symm

lemma rates_pos_of_mem_neighbours (hrates : g.RatesPositive)
    (h : n ∈ neighbours g g.incidence a) : 0 < n.mul ∧ 0 < n.div := by
  obtain ⟨e, he, ⟨_, rfl⟩ | ⟨_, rfl⟩⟩ := mem_neighbours.1 h
  · exact hrates e he
  · exact (hrates e he).symm

/-- The firings of a neighbour in a solution. -/
lemma firings_neighbour {M : Nat → Nat} (hrates : g.RatesPositive)
    (hM : g.IsSolutionOn (g.Linked root) M) (ha : g.Linked root a)
    (h : n ∈ neighbours g g.incidence a) : (M n.actor : ℚ) = M a * n.mul / n.div := by
  have hdiv : (n.div : ℚ) ≠ 0 := Nat.cast_ne_zero.2 (rates_pos_of_mem_neighbours hrates h).2.ne'
  rw [eq_div_iff hdiv]
  obtain ⟨e, he, ⟨rfl, rfl⟩ | ⟨rfl, rfl⟩⟩ := mem_neighbours.1 h
  · have hbalances : e.production * M e.source = e.consumption * M e.target :=
      hM.balances e he ha
    rw [mul_comm, mul_comm (M e.source : ℚ)]
    exact_mod_cast hbalances.symm
  · have hbalances : e.production * M e.source = e.consumption * M e.target :=
      hM.balances e he (ha.trans (Graph.linked_of_edge he).symm)
    rw [mul_comm, mul_comm (M e.target : ℚ)]
    exact_mod_cast hbalances

/-! ## The invariant of the exploration -/

/-- What is known while the part around a root is explored, where `before` is what was known of
other parts. -/
structure Explored (g : Graph τ) (root : Nat) (before : Nat → Option Ratio) (x : Exploration) :
    Prop where
  size_eq : x.ratios.size = g.actors.size
  root_mem : (root, Ratio.one) ∈ x.found
  nodup : (x.found.toList.map Prod.fst).Nodup
  linked : ∀ a r, (a, r) ∈ x.found → g.Linked root a
  inLowestTerms : ∀ a r, (a, r) ∈ x.found → r.InLowestTerms
  ratio?_eq_some_iff : ∀ a r, g.Linked root a → (x.ratio? a = some r ↔ (a, r) ∈ x.found)
  ratio?_of_not_linked : ∀ a, ¬ g.Linked root a → x.ratio? a = before a
  /-- All solutions stand in the ratios that were found. -/
  firings_eq : ∀ M, g.IsSolutionOn (g.Linked root) M → ∀ a r, (a, r) ∈ x.found →
    (M a : ℚ) = M root * r.value

/-- The neighbour has been found, with the ratio that the edge demands. -/
def Exploration.Settles (x : Exploration) (r : Ratio) (n : Neighbour) : Prop :=
  ∃ s, (n.actor, s) ∈ x.found ∧ s.value = r.value * n.mul / n.div

/-- All neighbours of the first actors that were found have been found. -/
def Exploration.SettledBelow (g : Graph τ) (x : Exploration) (i : Nat) : Prop :=
  ∀ j < i, ∀ a r, x.found[j]? = some (a, r) → ∀ n ∈ neighbours g g.incidence a, x.Settles r n

section Growth

variable {x x' : Exploration}

lemma mem_found_mono (hgrows : x.found.toList <+: x'.found.toList) (h : (a, r) ∈ x.found) :
    (a, r) ∈ x'.found :=
  Array.mem_toList_iff.1 (hgrows.subset (Array.mem_toList_iff.2 h))

lemma Exploration.Settles.mono (h : x.Settles r n) (hgrows : x.found.toList <+: x'.found.toList) :
    x'.Settles r n := by
  obtain ⟨s, hs, hvalue⟩ := h
  exact ⟨s, mem_found_mono hgrows hs, hvalue⟩

lemma Exploration.SettledBelow.succ {i : Nat} (h : x.SettledBelow g i)
    (hgrows : x.found.toList <+: x'.found.toList) (hi : x.found[i]? = some (a, r))
    (hall : ∀ n ∈ neighbours g g.incidence a, x'.Settles r n) : x'.SettledBelow g (i + 1) := by
  intro j hj b s hfound n hn
  have hsame : x'.found[j]? = x.found[j]? := by
    have hlt : j < x.found.toList.length :=
      Nat.lt_of_lt_of_le hj (Array.getElem?_eq_some_iff.1 hi).1
    obtain ⟨rest, hrest⟩ := hgrows
    rw [← Array.getElem?_toList, ← Array.getElem?_toList, ← hrest, List.getElem?_append_left hlt]
  rw [hsame] at hfound
  rcases Nat.lt_succ_iff_lt_or_eq.1 hj with hlt | rfl
  · exact (h j hlt b s hfound n hn).mono hgrows
  · obtain ⟨rfl, rfl⟩ := Prod.mk.inj (Option.some.inj (hi.symm.trans hfound))
    exact hall n hn

end Growth

lemma ratio?_add (x : Exploration) (b : Nat) (s : Ratio) (hb : b < x.ratios.size) (a : Nat) :
    (x.add b s).ratio? a = if a = b then some s else x.ratio? a := by
  simp only [Exploration.ratio?, Exploration.add, Array.getElem?_setIfInBounds]
  grind

lemma mem_found_add {x : Exploration} {b : Nat} {s : Ratio} :
    (a, r) ∈ (x.add b s).found ↔ (a, r) ∈ x.found ∨ a = b ∧ r = s := by
  simp [Exploration.add]

/-! ## Steps of the exploration -/

variable {before : Nat → Option Ratio} {x x' : Exploration} {t : Incidence}

lemma relate_eq_ok (h : relate g root r x n = .ok x') :
    ∃ s, r.scale n.mul n.div = .ok s ∧
      (x.ratio? n.actor = none ∧ x' = x.add n.actor s ∨ x.ratio? n.actor = some s ∧ x' = x) := by
  rw [relate] at h
  split at h
  case h_1 => simp at h
  case h_2 s hs =>
    refine ⟨s, hs, ?_⟩
    split at h
    case h_1 hnone => exact Or.inl ⟨hnone, (Except.ok.inj h).symm⟩
    case h_2 known hknown =>
      split at h
      case isTrue heq => exact Or.inr ⟨heq ▸ hknown, (Except.ok.inj h).symm⟩
      case isFalse => simp at h

lemma relate_eq_inconsistent {f : Failure τ} (h : relate g root r x n = .error f)
    (hf : f.kind = .inconsistentRates) :
    ∃ s known, r.scale n.mul n.div = .ok s ∧ x.ratio? n.actor = some known ∧ known ≠ s := by
  rw [relate] at h
  split at h
  case h_1 =>
    obtain rfl := Except.error.inj h
    simp [Failure.kind] at hf
  case h_2 s hs =>
    split at h
    case h_1 => simp at h
    case h_2 known hknown =>
      split at h
      case isTrue => simp at h
      case isFalse hne => exact ⟨s, known, hs, hknown, hne⟩

lemma Explored.linked_neighbour (hx : Explored g root before x) (ha : (a, r) ∈ x.found)
    (hn : n ∈ neighbours g g.incidence a) : g.Linked root n.actor :=
  (hx.linked a r ha).trans (linked_of_mem_neighbours hn)

/-- The ratio that an edge demands. -/
lemma Explored.scale (hx : Explored g root before x) (hrates : g.RatesPositive)
    (ha : (a, r) ∈ x.found) (hn : n ∈ neighbours g g.incidence a) {s : Ratio}
    (hs : r.scale n.mul n.div = .ok s) :
    s.InLowestTerms ∧ s.value = r.value * n.mul / n.div := by
  obtain ⟨hmul, hdiv⟩ := rates_pos_of_mem_neighbours hrates hn
  exact Ratio.scale_eq_ok (hx.inLowestTerms a r ha) hmul hdiv hs

/-- The ratio that an edge demands is the ratio of the firings in every solution. -/
lemma Explored.firings_scale (hx : Explored g root before x) (hrates : g.RatesPositive)
    (ha : (a, r) ∈ x.found) (hn : n ∈ neighbours g g.incidence a) {s : Ratio}
    (hs : r.scale n.mul n.div = .ok s) {M : Nat → Nat}
    (hM : g.IsSolutionOn (g.Linked root) M) : (M n.actor : ℚ) = M root * s.value := by
  rw [firings_neighbour hrates hM (hx.linked a r ha) hn, hx.firings_eq M hM a r ha,
    (hx.scale hrates ha hn hs).2, mul_div_assoc, mul_div_assoc, mul_assoc]

lemma Explored.add (hx : Explored g root before x) (hroot : root < g.actors.size)
    {b : Nat} {s : Ratio} (hb : g.Linked root b) (hs : s.InLowestTerms)
    (hnone : x.ratio? b = none)
    (hfirings : ∀ M, g.IsSolutionOn (g.Linked root) M → (M b : ℚ) = M root * s.value) :
    Explored g root before (x.add b s) := by
  have hsize : b < x.ratios.size := hx.size_eq ▸ hb.lt_size hroot
  have hfresh : ∀ r, (b, r) ∉ x.found := by
    intro r hmem
    rw [← hx.ratio?_eq_some_iff b r hb, hnone] at hmem
    simp at hmem
  refine ⟨?_, mem_found_add.2 (Or.inl hx.root_mem), ?_, ?_, ?_, ?_, ?_, ?_⟩
  · simpa [Exploration.add] using hx.size_eq
  · simp only [Exploration.add, Array.toList_push, List.map_append, List.map_cons, List.map_nil]
    rw [List.nodup_append]
    refine ⟨hx.nodup, List.nodup_singleton b, ?_⟩
    rintro c hc d hd rfl
    obtain ⟨⟨c, r⟩, hmem, rfl⟩ := List.mem_map.1 hc
    obtain rfl := List.mem_singleton.1 hd
    exact hfresh r (Array.mem_toList_iff.1 hmem)
  · intro a r hmem
    rcases mem_found_add.1 hmem with hmem | ⟨rfl, rfl⟩
    · exact hx.linked a r hmem
    · exact hb
  · intro a r hmem
    rcases mem_found_add.1 hmem with hmem | ⟨rfl, rfl⟩
    · exact hx.inLowestTerms a r hmem
    · exact hs
  · intro a r ha
    rw [ratio?_add x b s hsize, mem_found_add]
    by_cases hab : a = b
    · subst hab
      simp [hfresh r, eq_comm]
    · simp [hab, hx.ratio?_eq_some_iff a r ha]
  · intro a ha
    have hab : a ≠ b := fun hab => ha (hab ▸ hb)
    rw [ratio?_add x b s hsize, if_neg hab, hx.ratio?_of_not_linked a ha]
  · intro M hM a r hmem
    rcases mem_found_add.1 hmem with hmem | ⟨rfl, rfl⟩
    · exact hx.firings_eq M hM a r hmem
    · exact hfirings M hM

/-- Looking at a neighbour keeps the invariant, and finds the neighbour. -/
lemma Explored.look (hx : Explored g root before x) (hrates : g.RatesPositive)
    (hroot : root < g.actors.size) (ha : (a, r) ∈ x.found)
    (hn : n ∈ neighbours g g.incidence a) (h : relate g root r x n = .ok x') :
    Explored g root before x' ∧ x.found.toList <+: x'.found.toList ∧ x'.Settles r n := by
  obtain ⟨s, hs, hcases⟩ := relate_eq_ok h
  obtain ⟨hlowest, hvalue⟩ := hx.scale hrates ha hn hs
  have hlinked := hx.linked_neighbour ha hn
  rcases hcases with ⟨hnone, rfl⟩ | ⟨hsome, rfl⟩
  · refine ⟨hx.add hroot hlinked hlowest hnone ?_, ?_, s, ?_, hvalue⟩
    · exact fun M hM => hx.firings_scale hrates ha hn hs hM
    · simp [Exploration.add]
    · exact mem_found_add.2 (Or.inr ⟨rfl, rfl⟩)
  · exact ⟨hx, List.prefix_refl _, s, (hx.ratio?_eq_some_iff _ _ hlinked).1 hsome, hvalue⟩

/-- Two different ratios of one actor leave no solution. -/
lemma Explored.not_isSolutionOn (hx : Explored g root before x) (hrates : g.RatesPositive)
    (ha : (a, r) ∈ x.found) (hn : n ∈ neighbours g g.incidence a) {f : Failure τ}
    (h : relate g root r x n = .error f) (hf : f.kind = .inconsistentRates) (M : Nat → Nat) :
    ¬ g.IsSolutionOn (g.Linked root) M := by
  intro hM
  obtain ⟨s, known, hs, hknown, hne⟩ := relate_eq_inconsistent h hf
  have hfound := (hx.ratio?_eq_some_iff _ _ (hx.linked_neighbour ha hn)).1 hknown
  have hpos : (M root : ℚ) ≠ 0 := Nat.cast_ne_zero.2 (hM.pos root (.refl root)).ne'
  have hvalues : (M root : ℚ) * known.value = M root * s.value := by
    rw [← hx.firings_eq M hM _ _ hfound, ← hx.firings_scale hrates ha hn hs hM]
  exact hne ((hx.inLowestTerms _ _ hfound).eq_of_value_eq (hx.scale hrates ha hn hs).1
    (mul_left_cancel₀ hpos hvalues))

/-- Looking at all neighbours keeps the invariant, and finds all of them. -/
lemma Explored.look_all (hrates : g.RatesPositive) (hroot : root < g.actors.size) :
    ∀ {ns : List Neighbour} {x x' : Exploration}, Explored g root before x → (a, r) ∈ x.found →
      (∀ n ∈ ns, n ∈ neighbours g g.incidence a) → ns.foldlM (relate g root r) x = .ok x' →
      Explored g root before x' ∧ x.found.toList <+: x'.found.toList ∧ ∀ n ∈ ns, x'.Settles r n
  | [], x, x', hx, _, _, h => by
      rw [List.foldlM_nil, pure_eq_ok] at h
      subst h
      exact ⟨hx, List.prefix_refl _, by simp⟩
  | n :: ns, x, x', hx, ha, hns, h => by
      rw [List.foldlM_cons, bind_eq_ok] at h
      obtain ⟨m, hm, hrest⟩ := h
      obtain ⟨hn, hns⟩ := List.forall_mem_cons.1 hns
      obtain ⟨hexplored, hgrows, hsettles⟩ := hx.look hrates hroot ha hn hm
      obtain ⟨hexplored', hgrows', hall⟩ :=
        look_all hrates hroot hexplored (mem_found_mono hgrows ha) hns hrest
      exact ⟨hexplored', hgrows.trans hgrows',
        List.forall_mem_cons.2 ⟨hsettles.mono hgrows', hall⟩⟩

lemma Explored.look_all_error (hrates : g.RatesPositive) (hroot : root < g.actors.size)
    {f : Failure τ} (hf : f.kind = .inconsistentRates) :
    ∀ {ns : List Neighbour} {x : Exploration}, Explored g root before x → (a, r) ∈ x.found →
      (∀ n ∈ ns, n ∈ neighbours g g.incidence a) →
      ns.foldlM (relate g root r) x = .error f →
      ∀ M, ¬ g.IsSolutionOn (g.Linked root) M
  | [], x, _, _, _, h => by simp at h
  | n :: ns, x, hx, ha, hns, h => by
      obtain ⟨hn, hns⟩ := List.forall_mem_cons.1 hns
      rw [List.foldlM_cons, bind_eq_error] at h
      rcases h with hfirst | ⟨m, hm, hrest⟩
      · exact hx.not_isSolutionOn hrates ha hn hfirst hf
      · obtain ⟨hexplored, hgrows, _⟩ := hx.look hrates hroot ha hn hm
        exact look_all_error hrates hroot hf hexplored (mem_found_mono hgrows ha) hns hrest

/-- **What the exploration finds.**  It keeps the invariant, and it settles as many of the actors
as there are steps. -/
theorem explore_ok (hrates : g.RatesPositive) (hroot : root < g.actors.size) :
    ∀ {steps i : Nat} {x x' : Exploration}, Explored g root before x → x.SettledBelow g i →
      explore g g.incidence root steps i x = .ok x' →
      Explored g root before x' ∧ x'.SettledBelow g (i + steps)
  | 0, i, x, x', hx, hsettled, h => by
      rw [explore] at h
      obtain rfl := Except.ok.inj h
      exact ⟨hx, hsettled⟩
  | steps + 1, i, x, x', hx, hsettled, h => by
      rw [explore] at h
      split at h
      case h_1 hnone =>
        obtain rfl := Except.ok.inj h
        refine ⟨hx, fun j _ a r hj => hsettled j ?_ a r hj⟩
        -- nothing was found beyond `i`
        have hle := Array.getElem?_eq_none_iff.1 hnone
        have hlt := (Array.getElem?_eq_some_iff.1 hj).1
        omega
      case h_2 a r hi =>
        split at h
        case h_2 => simp at h
        case h_1 m hm =>
          obtain ⟨hexplored, hgrows, hall⟩ :=
            Explored.look_all hrates hroot hx (Array.mem_of_getElem? hi) (fun n hn => hn) hm
          have hnext := hsettled.succ hgrows hi hall
          have := explore_ok hrates hroot hexplored hnext h
          rwa [Nat.add_assoc, Nat.add_comm 1] at this

/-- Where the exploration stops because of two different ratios, there is no solution. -/
theorem explore_error (hrates : g.RatesPositive) (hroot : root < g.actors.size) {f : Failure τ}
    (hf : f.kind = .inconsistentRates) : ∀ {steps i : Nat} {x : Exploration},
      Explored g root before x → explore g g.incidence root steps i x = .error f →
      ∀ M, ¬ g.IsSolutionOn (g.Linked root) M
  | 0, i, x, _, h => by simp [explore] at h
  | steps + 1, i, x, hx, h => by
      rw [explore] at h
      split at h
      case h_1 => simp at h
      case h_2 a r hi =>
        have ha := Array.mem_of_getElem? hi
        split at h
        case h_1 m hm =>
          have hm := (Explored.look_all hrates hroot hx ha (fun n hn => hn) hm).1
          exact explore_error hrates hroot hf hm h
        case h_2 f' hm =>
          obtain rfl := Except.error.inj h
          exact Explored.look_all_error hrates hroot hf hx ha (fun n hn => hn) hm

/-! ## The part around a root -/

/-- What is known of a part when it has been explored. -/
structure IsPart (g : Graph τ) (root : Nat) (before : Nat → Option Ratio) (x : Exploration) :
    Prop extends Explored g root before x where
  exists_mem : ∀ a, g.Linked root a → ∃ r, (a, r) ∈ x.found
  /-- The ratios balance every edge of the part. -/
  balances : ∀ e ∈ g.edges, ∀ r s, (e.source, r) ∈ x.found → (e.target, s) ∈ x.found →
    e.production * r.value = e.consumption * s.value

lemma Explored.length_found_le (hx : Explored g root before x) (hroot : root < g.actors.size) :
    x.found.size ≤ g.actors.size := by
  have hsubset : x.found.toList.map Prod.fst ⊆ List.range g.actors.size := by
    intro a ha
    obtain ⟨⟨a, r⟩, hmem, rfl⟩ := List.mem_map.1 ha
    exact List.mem_range.2 ((hx.linked a r (Array.mem_toList_iff.1 hmem)).lt_size hroot)
  simpa using (hx.nodup.subperm hsubset).length_le

lemma Explored.isPart (hx : Explored g root before x) (hrates : g.RatesPositive)
    (hsettles : ∀ a r, (a, r) ∈ x.found → ∀ n ∈ neighbours g g.incidence a, x.Settles r n) :
    IsPart g root before x where
  toExplored := hx
  exists_mem a ha := by
    refine (Graph.Linked.iff (P := fun a => ∃ r, (a, r) ∈ x.found) ?_ ha).1 ⟨_, hx.root_mem⟩
    intro e he
    constructor
    · rintro ⟨r, hr⟩
      obtain ⟨s, hs, _⟩ := hsettles _ r hr _ (mem_neighbours.2 ⟨e, he, Or.inl ⟨rfl, rfl⟩⟩)
      exact ⟨s, hs⟩
    · rintro ⟨r, hr⟩
      obtain ⟨s, hs, _⟩ := hsettles _ r hr _ (mem_neighbours.2 ⟨e, he, Or.inr ⟨rfl, rfl⟩⟩)
      exact ⟨s, hs⟩
  balances e he r s hr hs := by
    obtain ⟨s', hs', hvalue⟩ := hsettles _ r hr _ (mem_neighbours.2 ⟨e, he, Or.inl ⟨rfl, rfl⟩⟩)
    have hlinked := hx.linked _ s hs
    have hunique := (hx.ratio?_eq_some_iff _ s' hlinked).2 hs'
    rw [(hx.ratio?_eq_some_iff _ s hlinked).2 hs] at hunique
    obtain rfl := Option.some.inj hunique
    have hc : (e.consumption : ℚ) ≠ 0 := Nat.cast_ne_zero.2 (hrates e he).2.ne'
    rw [hvalue, mul_div_cancel₀ _ hc, mul_comm]

lemma explored_start (ratios : Array (Option Ratio)) (hsize : ratios.size = g.actors.size)
    (hroot : root < g.actors.size) (hfresh : ∀ a, g.Linked root a → ratios[a]?.join = none) :
    Explored g root (fun a => ratios[a]?.join) (Exploration.add ⟨ratios, #[]⟩ root Ratio.one) := by
  have hbound : root < (Exploration.mk ratios #[]).ratios.size := hsize ▸ hroot
  have hmem : ∀ a r, (a, r) ∈ (Exploration.add ⟨ratios, #[]⟩ root Ratio.one).found ↔
      a = root ∧ r = Ratio.one := by
    simp [Exploration.add]
  refine ⟨?_, (hmem _ _).2 ⟨rfl, rfl⟩, ?_, ?_, ?_, ?_, ?_, ?_⟩
  · simpa [Exploration.add] using hsize
  · simp [Exploration.add]
  · intro a r h
    obtain ⟨rfl, rfl⟩ := (hmem a r).1 h
    exact .refl a
  · intro a r h
    obtain ⟨rfl, rfl⟩ := (hmem a r).1 h
    exact Ratio.inLowestTerms_one
  · intro a r ha
    rw [ratio?_add _ _ _ hbound, hmem]
    by_cases hr : a = root
    · simp [hr, eq_comm]
    · simp [hr, Exploration.ratio?, hfresh a ha]
  · intro a ha
    have hr : a ≠ root := fun hr => ha (hr ▸ .refl a)
    rw [ratio?_add _ _ _ hbound, if_neg hr]
    rfl
  · intro M hM a r h
    obtain ⟨rfl, rfl⟩ := (hmem a r).1 h
    rw [Ratio.value_one, mul_one]

/-- The part around a root is explored completely. -/
theorem component_ok {ratios : Array (Option Ratio)} (hrates : g.RatesPositive)
    (hsize : ratios.size = g.actors.size) (hroot : root < g.actors.size)
    (hfresh : ∀ a, g.Linked root a → ratios[a]?.join = none)
    (h : component g g.incidence root ratios = .ok x) :
    IsPart g root (fun a => ratios[a]?.join) x := by
  obtain ⟨hx, hsettled⟩ := explore_ok hrates hroot (explored_start ratios hsize hroot hfresh)
    (fun j hj => absurd hj (Nat.not_lt_zero j)) h
  refine hx.isPart hrates fun a r ha => ?_
  obtain ⟨j, hj⟩ := Array.getElem?_of_mem ha
  refine hsettled j ?_ a r hj
  have hlt := (Array.getElem?_eq_some_iff.1 hj).1
  have hle := hx.length_found_le hroot
  omega

lemma component_error {ratios : Array (Option Ratio)} (hrates : g.RatesPositive)
    (hsize : ratios.size = g.actors.size) (hroot : root < g.actors.size)
    (hfresh : ∀ a, g.Linked root a → ratios[a]?.join = none) {f : Failure τ}
    (hf : f.kind = .inconsistentRates)
    (h : component g g.incidence root ratios = .error f) (M : Nat → Nat) :
    ¬ g.IsSolutionOn (g.Linked root) M :=
  explore_error hrates hroot hf (explored_start ratios hsize hroot hfresh) h M

end Balance

end Dataflow

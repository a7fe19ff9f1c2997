import Dataflow.Proofs.Balance.Excess
import Dataflow.Proofs.Balance.RepetitionVector

/-!
# When a repetition vector leaves the range

The least solution of the balance equations may consist of counters and still not be found, because
a number on the way to it is no counter.  The numbers on the way are the ratios to the first actor
of a part, which divide the counts, and the least common multiple of their denominators, which
divides the count of that actor; none of them is larger than a count.  Only the products from which
a ratio is made may be: they contain the excess of two rates, which is cancelled too late.

* `Balance.Passable`, **`Balance.exists_component_iff`** — a part that has a solution is explored
  exactly if every ratio in it can be computed.
* `Balance.Explored.exists_scaled` — the scaling is never what leaves the range.
* `Balance.solveBelow`, `Balance.exists_solveBelow_iff` — the parts one after another.
* `Graph.Cancels` — the products are counters.
* **`Graph.repetitionVector_range`** — when a repetition vector is found.
* **`Graph.threefold_refused`** — a small solution that is not found.
-/

namespace Dataflow

/-- No actor of its part comes before this one. -/
def Graph.IsFirst {τ : Type} (g : Graph τ) (root : Nat) : Prop := ∀ a, g.Linked root a → root ≤ a

namespace Balance

variable {τ : Type} {g : Graph τ} {a root : Nat} {r : Ratio} {n : Neighbour} {N : Nat → Nat}
  {before : Nat → Option Ratio} {x x' : Exploration} {t : Incidence} {f : Failure τ}

/-! ## Why an exploration stops -/

/-- A neighbour is refused if its ratio cannot be computed, or if it contradicts another. -/
lemma relate_eq_error (h : relate g root r x n = .error f) :
    (f.kind = .arithmeticRange ∧ ∀ s, r.scale n.mul n.div ≠ .ok s) ∨
      f.kind = .inconsistentRates := by
  rw [relate] at h
  split at h
  case h_1 error hscale =>
    obtain rfl := Except.error.inj h
    exact Or.inl ⟨rfl, fun s hs => by simp [hscale] at hs⟩
  case h_2 s hs =>
    split at h
    case h_1 => simp at h
    case h_2 known hknown =>
      split at h
      case isTrue => simp at h
      case isFalse =>
        obtain rfl := Except.error.inj h
        exact Or.inr rfl

/-- No other failure stops an exploration. -/
lemma kind_of_explore_eq_error : ∀ {steps i : Nat} {x : Exploration},
    explore g t root steps i x = .error f → f.kind = .arithmeticRange ∨ f.kind = .inconsistentRates
  | 0, i, x, h => by simp [explore] at h
  | steps + 1, i, x, h => by
      rw [explore] at h
      split at h
      case h_1 => simp at h
      case h_2 a r hi =>
        split at h
        case h_1 m hm => exact kind_of_explore_eq_error h
        case h_2 f' hm =>
          obtain rfl := Except.error.inj h
          obtain ⟨n, _, m, hn⟩ := exists_of_foldlM_eq_error hm
          exact (relate_eq_error hn).imp_left And.left

/-! ## Explorations that are not stopped -/

/-- Where the equations have a solution, a neighbour whose ratio can be computed is accepted. -/
lemma Explored.exists_relate (hx : Explored g root before x) (hrates : g.RatesPositive)
    (hN : g.IsSolutionOn (g.Linked root) N) (ha : (a, r) ∈ x.found)
    (hn : n ∈ neighbours g g.incidence a) (hs : ∃ s, r.scale n.mul n.div = .ok s) :
    ∃ x', relate g root r x n = .ok x' := by
  cases h : relate g root r x n with
  | ok x' => exact ⟨x', rfl⟩
  | error f =>
    rcases relate_eq_error h with ⟨_, hnone⟩ | hf
    · obtain ⟨s, hs⟩ := hs
      exact absurd hs (hnone s)
    · exact absurd hN (hx.not_isSolutionOn hrates ha hn h hf N)

lemma Explored.exists_look_all (hrates : g.RatesPositive) (hroot : root < g.actors.size)
    (hN : g.IsSolutionOn (g.Linked root) N) :
    ∀ {ns : List Neighbour} {x : Exploration}, Explored g root before x → (a, r) ∈ x.found →
      (∀ n ∈ ns, n ∈ neighbours g g.incidence a ∧ ∃ s, r.scale n.mul n.div = .ok s) →
      ∃ x', ns.foldlM (relate g root r) x = .ok x'
  | [], x, _, _, _ => ⟨x, rfl⟩
  | n :: ns, x, hx, ha, hns => by
      obtain ⟨⟨hn, hs⟩, hns⟩ := List.forall_mem_cons.1 hns
      obtain ⟨m, hm⟩ := hx.exists_relate hrates hN ha hn hs
      obtain ⟨hexplored, hgrows, _⟩ := hx.look hrates hroot ha hn hm
      obtain ⟨x', hx'⟩ := exists_look_all hrates hroot hN hexplored (mem_found_mono hgrows ha) hns
      exact ⟨x', by rw [List.foldlM_cons, hm]; exact hx'⟩

/-- The ratios of all neighbours in a part can be computed from those of the actors. -/
def Passable (g : Graph τ) (N : Nat → Nat) (root : Nat) : Prop :=
  ∀ a, g.Linked root a → ∀ n ∈ neighbours g g.incidence a,
    ∃ s, (Ratio.ofCounts (N a) (N root)).scale n.mul n.div = .ok s

/-- The ratios that are found are those of any solution. -/
lemma Explored.eq_ofCounts (hx : Explored g root before x) (hN : g.IsSolutionOn (g.Linked root) N)
    (ha : (a, r) ∈ x.found) : r = Ratio.ofCounts (N a) (N root) :=
  (hx.inLowestTerms a r ha).eq_ofCounts (hN.pos a (hx.linked a r ha)) (hN.pos root (.refl root))
    (hx.firings_eq N hN a r ha)

lemma exists_explore (hrates : g.RatesPositive) (hroot : root < g.actors.size)
    (hN : g.IsSolutionOn (g.Linked root) N) (hpass : Passable g N root) :
    ∀ {steps i : Nat} {x : Exploration}, Explored g root before x →
      ∃ x', explore g g.incidence root steps i x = .ok x'
  | 0, i, x, _ => ⟨x, rfl⟩
  | steps + 1, i, x, hx => by
      rw [explore]
      split
      case h_1 => exact ⟨x, rfl⟩
      case h_2 a r hi =>
        have ha := Array.mem_of_getElem? hi
        have hlook := Explored.exists_look_all hrates hroot hN hx ha fun n hn =>
          ⟨hn, hx.eq_ofCounts hN ha ▸ hpass a (hx.linked a r ha) n hn⟩
        obtain ⟨m, hm⟩ := hlook
        have hexplored := (Explored.look_all hrates hroot hx ha (fun n hn => hn) hm).1
        simp only [hm]
        exact exists_explore hrates hroot hN hpass hexplored

/-! ## What an exploration has computed -/

lemma grows_of_relate (h : relate g root r x n = .ok x') : x.found.toList <+: x'.found.toList := by
  obtain ⟨s, _, ⟨_, rfl⟩ | ⟨_, rfl⟩⟩ := relate_eq_ok h
  · simp [Exploration.add]
  · exact List.prefix_refl _

lemma grows_of_look_all {ns : List Neighbour} (h : ns.foldlM (relate g root r) x = .ok x') :
    x.found.toList <+: x'.found.toList :=
  foldlM_induction (P := fun m => x.found.toList <+: m.found.toList) h
    (fun _ _ _ _ hm hnext => hm.trans (grows_of_relate hnext)) (List.prefix_refl _)

lemma grows_of_explore : ∀ {steps i : Nat} {x : Exploration},
    explore g t root steps i x = .ok x' → x.found.toList <+: x'.found.toList
  | 0, i, x, h => by
      rw [explore] at h
      obtain rfl := Except.ok.inj h
      exact List.prefix_refl _
  | steps + 1, i, x, h => by
      rw [explore] at h
      split at h
      case h_1 =>
        obtain rfl := Except.ok.inj h
        exact List.prefix_refl _
      case h_2 a r hi =>
        split at h
        case h_2 => simp at h
        case h_1 m hm => exact (grows_of_look_all hm).trans (grows_of_explore h)

lemma scale_of_look_all : ∀ {ns : List Neighbour} {x : Exploration},
    ns.foldlM (relate g root r) x = .ok x' → ∀ n ∈ ns, ∃ s, r.scale n.mul n.div = .ok s
  | [], _, _ => by simp
  | n :: ns, x, h => by
      rw [List.foldlM_cons, bind_eq_ok] at h
      obtain ⟨m, hm, hrest⟩ := h
      obtain ⟨s, hs, _⟩ := relate_eq_ok hm
      exact List.forall_mem_cons.2 ⟨⟨s, hs⟩, scale_of_look_all hrest⟩

/-- The ratios of all neighbours of the actors that were looked at have been computed. -/
lemma scale_of_explore : ∀ {steps i : Nat} {x : Exploration},
    explore g t root steps i x = .ok x' → ∀ j, i ≤ j → j < i + steps → ∀ a r,
      x'.found[j]? = some (a, r) → ∀ n ∈ neighbours g t a, ∃ s, r.scale n.mul n.div = .ok s
  | 0, i, x, _, j, hij, hj => by omega
  | steps + 1, i, x, h, j, hij, hj => by
      intro a r hfound
      rw [explore] at h
      split at h
      case h_1 hnone =>
        obtain rfl := Except.ok.inj h
        have hle := Array.getElem?_eq_none_iff.1 hnone
        have hlt := (Array.getElem?_eq_some_iff.1 hfound).1
        omega
      case h_2 b s hi =>
        split at h
        case h_2 => simp at h
        case h_1 m hm =>
          rcases Nat.lt_or_eq_of_le hij with hlater | rfl
          · exact scale_of_explore h j hlater (by omega) a r hfound
          · obtain ⟨rest, hrest⟩ := (grows_of_look_all hm).trans (grows_of_explore h)
            rw [← Array.getElem?_toList] at hi hfound
            rw [← hrest, List.getElem?_append_left (List.getElem?_eq_some_iff.1 hi).1, hi] at hfound
            obtain ⟨rfl, rfl⟩ := Prod.mk.inj (Option.some.inj hfound)
            exact scale_of_look_all hm

/-- A part that has a solution is explored exactly if all its ratios can be computed. -/
theorem exists_component_iff {ratios : Array (Option Ratio)} (hrates : g.RatesPositive)
    (hsize : ratios.size = g.actors.size) (hroot : root < g.actors.size)
    (hfresh : ∀ a, g.Linked root a → ratios[a]?.join = none)
    (hN : g.IsSolutionOn (g.Linked root) N) :
    (∃ x, component g g.incidence root ratios = .ok x) ↔ Passable g N root := by
  constructor
  · rintro ⟨x, h⟩ a ha n hn
    have hx := component_ok hrates hsize hroot hfresh h
    obtain ⟨r, hr⟩ := hx.exists_mem a ha
    obtain ⟨j, hj⟩ := Array.getElem?_of_mem hr
    have hlt := (Array.getElem?_eq_some_iff.1 hj).1
    have hle := hx.length_found_le hroot
    rw [← hx.eq_ofCounts hN hr]
    exact scale_of_explore h j (Nat.zero_le j) (by omega) a r hj n hn
  · exact fun hpass => exists_explore hrates hroot hN hpass (explored_start ratios hsize hroot hfresh)

/-! ## Scaling a part -/

/-- The firings of an actor in any solution, without fractions. -/
lemma Explored.mul_den (hx : Explored g root before x) (hN : g.IsSolutionOn (g.Linked root) N)
    (hr : (a, r) ∈ x.found) : N a * r.den = r.num * N root := by
  have hden : (r.den : ℚ) ≠ 0 := Nat.cast_ne_zero.2 (hx.inLowestTerms a r hr).den_pos.ne'
  have hvalue := hx.firings_eq N hN a r hr
  rw [Ratio.value, mul_div_assoc', eq_div_iff hden, mul_comm (N root : ℚ)] at hvalue
  exact_mod_cast hvalue

/-- A part is scaled if it has a solution in range: no number on the way exceeds the firings in
it. -/
lemma Explored.exists_scaled (hx : Explored g root before x)
    (hN : g.IsSolutionOn (g.Linked root) N)
    (hbound : ∀ a, g.Linked root a → N a < Counter.bound) :
    ∃ part, scaled x.found.toList = .ok part := by
  have hroot := hN.pos root (.refl root)
  have hdens : ∀ v ∈ x.found.toList.map (fun c => c.2.den), v ∣ N root := by
    intro v hv
    obtain ⟨⟨a, r⟩, hr, rfl⟩ := List.mem_map.1 hv
    have hr := Array.mem_toList_iff.1 hr
    exact (hx.inLowestTerms a r hr).den_dvd (hx.firings_eq N hN a r hr)
  obtain ⟨unit, hunit⟩ :=
    Counter.exists_foldlM_lcm hroot (hbound root (.refl root)) (Nat.one_dvd _) hdens
  have hle : unit ≤ N root := Nat.le_of_dvd hroot ((Counter.lcmAll_dvd_iff hunit _).2 hdens)
  have hcounts : ∀ c ∈ x.found.toList,
      (Counter.mul "repetition count" c.2.num (unit / c.2.den)).map (fun n => (c.1, n)) =
        .ok (c.1, c.2.num * (unit / c.2.den)) := by
    rintro ⟨a, r⟩ hr
    have hr := Array.mem_toList_iff.1 hr
    have hden := (hx.inLowestTerms a r hr).den_pos
    have hcount : r.num * (unit / r.den) ≤ N a := by
      refine Nat.le_of_mul_le_mul_right ?_ hden
      calc r.num * (unit / r.den) * r.den = r.num * (unit / r.den * r.den) := Nat.mul_assoc _ _ _
        _ ≤ r.num * N root :=
          Nat.mul_le_mul_left _ (Nat.le_trans (Nat.div_mul_le_self _ _) hle)
        _ = N a * r.den := (hx.mul_den hN hr).symm
    have hlt := Nat.lt_of_le_of_lt hcount (hbound a (hx.linked a r hr))
    exact map_eq_ok.2 ⟨_, Counter.mul_eq_ok_iff.2 ⟨hlt, rfl⟩, rfl⟩
  refine ⟨_, bind_eq_ok.2 ⟨unit, hunit, bind_eq_ok.2 ⟨x.found.toList.map fun c =>
    (c.1, c.2.num * (unit / c.2.den)), mapM_eq_ok.2 ?_, rfl⟩⟩⟩
  rw [List.forall₂_map_right_iff, List.forall₂_same]
  exact hcounts

/-- All numbers of firings of a scaled part are counters. -/
lemma lt_bound_of_scaled {found : List (Nat × Ratio)} {part : List (Nat × Nat)}
    (h : scaled found = .ok part) : ∀ c ∈ part, c.2 < Counter.bound := by
  simp only [scaled, bind_eq_ok, pure_eq_ok, mapM_eq_ok] at h
  obtain ⟨unit, _, counts, hcounts, rfl⟩ := h
  have hlt : List.Forall₂ (fun count (_ : Nat × Ratio) => count.2 < Counter.bound ∧ True)
      counts found := by
    refine hcounts.flip.imp fun count entry hcount => ?_
    simp only [map_eq_ok, Counter.mul_eq_ok_iff] at hcount
    obtain ⟨_, ⟨hlt, rfl⟩, rfl⟩ := hcount
    exact ⟨hlt, trivial⟩
  intro c hc
  obtain ⟨count, hcount, rfl⟩ := List.mem_map.1 hc
  exact Nat.lt_of_le_of_lt (Nat.div_le_self _ _)
    (((List.forall₂_and_left _ _).1 hlt).1 count hcount)

/-! ## Parts in turn -/

variable {s s' : Solution}

/-- A part that was not explored before is added if its solution is in range, exactly if all its
ratios can be computed. -/
lemma Solved.exists_extend_iff (hs : Solved g s) (hrates : g.RatesPositive)
    (hroot : root < g.actors.size) (hunknown : ¬ s.Knows root)
    (hN : g.IsSolutionOn (g.Linked root) N)
    (hbound : ∀ a, g.Linked root a → N a < Counter.bound) :
    (∃ s', Balance.extend g g.incidence s root = .ok s') ↔ Passable g N root := by
  rw [extend_of_not_knows hunknown,
    ← exists_component_iff hrates hs.ratios_size hroot (hs.fresh hunknown) hN]
  constructor
  · rintro ⟨s', h⟩
    obtain ⟨x, hx, _⟩ := bind_eq_ok.1 h
    exact ⟨x, hx⟩
  · rintro ⟨x, h⟩
    have hx := component_ok hrates hs.ratios_size hroot (hs.fresh hunknown) h
    obtain ⟨part, hpart⟩ := hx.exists_scaled hN hbound
    exact ⟨_, bind_eq_ok.2 ⟨x, h, bind_eq_ok.2 ⟨part, mapError_eq_ok.2 hpart, rfl⟩⟩⟩

lemma kind_of_extend_eq_error (h : extend g t s root = .error f) :
    f.kind = .arithmeticRange ∨ f.kind = .inconsistentRates := by
  by_cases hknown : s.Knows root
  · simp [extend_of_knows hknown] at h
  · simp only [extend_of_not_knows hknown, bind_eq_error, mapError_eq_error, pure_ne_error,
      and_false, exists_false, or_false] at h
    rcases h with hcomponent | ⟨x, _, error, _, rfl⟩
    · exact kind_of_explore_eq_error hcomponent
    · exact Or.inl rfl

/-- A part is known once one of its actors has been looked at. -/
lemma Solved.knows_extend (hs : Solved g s) (hrates : g.RatesPositive) (hroot : root < g.actors.size)
    (h : Balance.extend g g.incidence s root = .ok s') (a : Nat) :
    s'.Knows a ↔ g.Linked root a ∨ s.Knows a := by
  by_cases hknown : s.Knows root
  · rw [extend_of_knows hknown] at h
    obtain rfl := Except.ok.inj h
    exact ⟨Or.inr, fun ha => ha.elim (fun ha => (Graph.Linked.iff hs.knows_iff ha).1 hknown) id⟩
  · simp only [extend_of_not_knows hknown, bind_eq_ok, mapError_eq_ok, pure_eq_ok] at h
    obtain ⟨x, hcomponent, part, _, rfl⟩ := h
    exact (component_ok hrates hs.ratios_size hroot (hs.fresh hknown) hcomponent).knows_iff

/-- The numbers of firings of the parts of the first actors. -/
def solveBelow (g : Graph τ) (n : Nat) : Except (Failure τ) Solution :=
  (List.range n).foldlM (extend g g.incidence)
    ⟨Array.replicate g.actors.size none, Array.replicate g.actors.size 0⟩

lemma solveBelow_succ_eq_ok {n : Nat} : solveBelow g (n + 1) = .ok s' ↔
    ∃ s, solveBelow g n = .ok s ∧ extend g g.incidence s n = .ok s' := by
  rw [solveBelow, List.range_succ, List.foldlM_append, bind_eq_ok]
  simp only [List.foldlM_cons, List.foldlM_nil, bind_pure, solveBelow]

/-- The parts of the first actors are known and no others. -/
lemma solved_of_solveBelow (hrates : g.RatesPositive) : ∀ {n : Nat} {s : Solution},
    n ≤ g.actors.size → solveBelow g n = .ok s →
      Solved g s ∧ ∀ a, s.Knows a ↔ ∃ b < n, g.Linked b a
  | 0, s, _, h => by
      obtain rfl := Except.ok.inj h
      exact ⟨solved_start, fun a => by simp [Solution.Knows, Array.getElem?_replicate, apply_ite]⟩
  | n + 1, s, hn, h => by
      obtain ⟨m, hm, hs⟩ := solveBelow_succ_eq_ok.1 h
      obtain ⟨hsolved, hknows⟩ := solved_of_solveBelow hrates (Nat.le_of_succ_le hn) hm
      refine ⟨(hsolved.extend hrates hn hs).1, fun a => ?_⟩
      rw [hsolved.knows_extend hrates hn hs, hknows]
      constructor
      · rintro (ha | ⟨b, hb, ha⟩)
        · exact ⟨n, Nat.lt_succ_self n, ha⟩
        · exact ⟨b, Nat.lt_succ_of_lt hb, ha⟩
      · rintro ⟨b, hb, ha⟩
        rcases Nat.lt_succ_iff_lt_or_eq.1 hb with hb | rfl
        · exact Or.inr ⟨b, hb, ha⟩
        · exact Or.inl ha

/-- Parts that have a solution in range are solved exactly if all ratios to their first actors can be
computed. -/
lemma exists_solveBelow_iff (hrates : g.RatesPositive)
    (hN : ∀ root < g.actors.size, g.IsSolutionOn (g.Linked root) N)
    (hbound : ∀ a < g.actors.size, N a < Counter.bound) : ∀ {n : Nat}, n ≤ g.actors.size →
      ((∃ s, solveBelow g n = .ok s) ↔ ∀ root < n, g.IsFirst root → Passable g N root)
  | 0, _ => by
      refine ⟨fun _ root hroot => absurd hroot (Nat.not_lt_zero root), fun _ => ⟨_, rfl⟩⟩
  | n + 1, hn => by
      have ih := exists_solveBelow_iff hrates hN hbound (Nat.le_of_succ_le hn)
      simp only [solveBelow_succ_eq_ok]
      rw [Nat.forall_lt_succ_right, ← ih]
      have hnext : ∀ s, solveBelow g n = .ok s →
          ((∃ s', extend g g.incidence s n = .ok s') ↔ (g.IsFirst n → Passable g N n)) := by
        intro s hs
        obtain ⟨hsolved, hknows⟩ := solved_of_solveBelow hrates (Nat.le_of_succ_le hn) hs
        by_cases hknown : s.Knows n
        · obtain ⟨b, hb, hlinked⟩ := (hknows n).1 hknown
          refine iff_of_true ⟨s, extend_of_knows hknown⟩ fun hfirst => ?_
          exact absurd (hfirst b hlinked.symm) (Nat.not_le_of_lt hb)
        · have hfirst : g.IsFirst n := by
            intro a ha
            by_contra hlt
            exact hknown ((hknows n).2 ⟨a, Nat.lt_of_not_le hlt, ha.symm⟩)
          rw [hsolved.exists_extend_iff hrates hn hknown (hN n hn) fun a ha =>
            hbound a (ha.lt_size hn)]
          exact ⟨fun h _ => h, fun h => h hfirst⟩
      constructor
      · rintro ⟨s', s, hs, hs'⟩
        exact ⟨⟨s, hs⟩, (hnext s hs).1 ⟨s', hs'⟩⟩
      · rintro ⟨⟨s, hs⟩, hpass⟩
        obtain ⟨s', hs'⟩ := (hnext s hs).2 hpass
        exact ⟨s', s, hs, hs'⟩

lemma forall_mem_write {P : Nat → Prop} : ∀ {part : List (Nat × Nat)} {counts : Array Nat},
    (∀ n ∈ counts, P n) → (∀ c ∈ part, P c.2) → ∀ n ∈ write counts part, P n
  | [], _, hcounts, _ => hcounts
  | c :: part, counts, hcounts, hpart => by
      obtain ⟨hc, hrest⟩ := List.forall_mem_cons.1 hpart
      have hwritten : ∀ n ∈ counts.setIfInBounds c.1 c.2, P n := by
        intro n hn
        rcases Array.mem_or_eq_of_mem_setIfInBounds hn with hn | rfl
        · exact hcounts n hn
        · exact hc
      have hall := forall_mem_write hwritten hrest
      exact hall

/-- All numbers of firings that are found are counters. -/
lemma lt_bound_of_solve (h : solve g = .ok s) : ∀ n ∈ s.counts, n < Counter.bound := by
  refine foldlM_induction (P := fun s => ∀ n ∈ s.counts, n < Counter.bound) h ?_ ?_
  · intro root _ m m' hm hnext
    by_cases hknown : m.Knows root
    · rw [extend_of_knows hknown] at hnext
      obtain rfl := Except.ok.inj hnext
      exact hm
    · simp only [extend_of_not_knows hknown, bind_eq_ok, mapError_eq_ok, pure_eq_ok] at hnext
      obtain ⟨x, _, part, hpart, rfl⟩ := hnext
      exact forall_mem_write hm (lt_bound_of_scaled hpart)
  · intro n hn
    obtain ⟨_, rfl⟩ := Array.mem_replicate.1 hn
    decide

lemma kind_of_solve_eq_error (h : solve g = .error f) :
    f.kind = .arithmeticRange ∨ f.kind = .inconsistentRates := by
  obtain ⟨root, _, s, hs⟩ := exists_of_foldlM_eq_error h
  exact kind_of_extend_eq_error hs

/-! ## The products on the way -/

/-- When the ratio of a neighbour of actor `a` is computed, in a part that is explored from `root`,
the two products are its lowest terms times the excess; they are counters. -/
def Fits (N : Nat → Nat) (root a : Nat) (n : Neighbour) : Prop :=
  let excess := (Ratio.ofCounts (N a) (N root)).excess n.mul n.div
  excess * (Ratio.ofCounts (N n.actor) (N root)).num < Counter.bound ∧
    excess * (Ratio.ofCounts (N n.actor) (N root)).den < Counter.bound

lemma exists_scale_iff_fits (hrates : g.RatesPositive) (hN : g.IsSolutionOn (g.Linked root) N)
    (ha : g.Linked root a) (hn : n ∈ neighbours g g.incidence a) :
    (∃ s, (Ratio.ofCounts (N a) (N root)).scale n.mul n.div = .ok s) ↔ Fits N root a n := by
  obtain ⟨hmul, hdiv⟩ := rates_pos_of_mem_neighbours hrates hn
  have hroot := hN.pos root (.refl root)
  have hactor := hN.pos n.actor (ha.trans (linked_of_mem_neighbours hn))
  refine Ratio.exists_scale_iff (Ratio.inLowestTerms_ofCounts (hN.pos a ha) hroot)
    (Ratio.inLowestTerms_ofCounts hactor hroot) hmul hdiv ?_
  rw [Ratio.value_ofCounts hactor, Ratio.value_ofCounts (hN.pos a ha),
    firings_neighbour hrates hN ha hn]
  ring

/-- The products are counters if the firings are, even multiplied with what the rates have in
common. -/
lemma fits_of_gcd {n : Neighbour} (hactor : n.mul.gcd n.div * N n.actor < Counter.bound)
    (hroot : n.mul.gcd n.div * N root < Counter.bound) (hmul : 0 < n.mul) : Fits N root a n := by
  have hexcess : (Ratio.ofCounts (N a) (N root)).excess n.mul n.div ≤ n.mul.gcd n.div :=
    Nat.le_of_dvd (Nat.gcd_pos_of_pos_left _ hmul) (Ratio.excess_dvd_gcd _ _ _)
  exact ⟨Nat.lt_of_le_of_lt (Nat.mul_le_mul hexcess (Nat.div_le_self _ _)) hactor,
    Nat.lt_of_le_of_lt (Nat.mul_le_mul hexcess (Nat.div_le_self _ _)) hroot⟩

end Balance

namespace Graph

variable {τ : Type} {g : Graph τ} {N M : Nat → Nat}

/-- Along every edge, in both directions, the products on the way are counters. -/
def Cancels (g : Graph τ) (N : Nat → Nat) : Prop :=
  ∀ root < g.actors.size, g.IsFirst root → ∀ e ∈ g.edges, g.Linked root e.source →
    Balance.Fits N root e.source ⟨e.target, e.production, e.consumption⟩ ∧
      Balance.Fits N root e.target ⟨e.source, e.consumption, e.production⟩

lemma cancels_iff (hrates : g.RatesPositive)
    (hN : ∀ root < g.actors.size, g.IsSolutionOn (g.Linked root) N) :
    g.Cancels N ↔ ∀ root < g.actors.size, g.IsFirst root → Balance.Passable g N root := by
  refine forall₂_congr fun root hroot => imp_congr_right fun _ => ?_
  constructor
  · intro h a ha n hn
    rw [Balance.exists_scale_iff_fits hrates (hN root hroot) ha hn]
    obtain ⟨e, he, ⟨rfl, rfl⟩ | ⟨rfl, rfl⟩⟩ := Balance.mem_neighbours.1 hn
    · exact (h e he ha).1
    · exact (h e he ((linked_iff_of_edge he).2 ha)).2
  · intro h e he hsource
    have htarget := (linked_iff_of_edge he).1 hsource
    have hforward := Balance.mem_neighbours.2 ⟨e, he, Or.inl ⟨rfl, rfl⟩⟩
    have hbackward := Balance.mem_neighbours.2 ⟨e, he, Or.inr ⟨rfl, rfl⟩⟩
    exact ⟨(Balance.exists_scale_iff_fits hrates (hN root hroot) hsource hforward).1
        (h _ hsource _ hforward),
      (Balance.exists_scale_iff_fits hrates (hN root hroot) htarget hbackward).1
        (h _ htarget _ hbackward)⟩

lemma cancels_of_gcd (hrates : g.RatesPositive)
    (h : ∀ e ∈ g.edges, ∀ a, g.Linked e.source a →
      e.production.gcd e.consumption * N a < Counter.bound) : g.Cancels N := by
  intro root _ _ e he hsource
  have htarget := linked_of_edge he
  obtain ⟨hp, hc⟩ := hrates e he
  have hroot := h e he root hsource.symm
  refine ⟨Balance.fits_of_gcd (h e he _ htarget) hroot hp, Balance.fits_of_gcd ?_ ?_ hc⟩
  · rw [Nat.gcd_comm]
    exact h e he _ (.refl _)
  · rw [Nat.gcd_comm]
    exact hroot

/-- The counts that are found are the least ones, and they are counters. -/
lemma getElem?_of_repetitionVector {counts : List Nat} (h : g.repetitionVector = .ok counts)
    (hN : ∀ root < g.actors.size, g.IsLeastOn (g.Linked root) N) :
    ∀ a < g.actors.size, counts[a]? = some (N a) ∧ N a < Counter.bound := by
  intro a ha
  obtain ⟨hlength, hleast⟩ := isLeastOn_of_repetitionVector h
  obtain ⟨_, s, hs, rfl⟩ := repetitionVector_eq_ok.1 h
  have hbound : a < s.counts.toList.length := hlength.symm ▸ ha
  have hcount : s.counts.toList[a] = N a := by
    have hunique := (hN a ha).unique (hleast a ha) (.refl a)
    rwa [List.getElem?_eq_getElem hbound, Option.getD_some] at hunique
  refine ⟨by rw [List.getElem?_eq_getElem hbound, hcount], ?_⟩
  rw [← hcount]
  exact Balance.lt_bound_of_solve hs _ (Array.mem_toList_iff.1 (List.getElem_mem hbound))

lemma exists_repetitionVector_iff (hrates : g.RatesPositive) :
    (∃ counts, g.repetitionVector = .ok counts) ↔ ∃ s, Balance.solve g = .ok s := by
  simp only [repetitionVector_eq_ok]
  exact ⟨fun ⟨_, _, s, hs, _⟩ => ⟨s, hs⟩, fun ⟨s, hs⟩ => ⟨_, hrates, s, hs, rfl⟩⟩

lemma solve_eq_error (hrates : g.RatesPositive) {f : Failure τ}
    (h : g.repetitionVector = .error f) : Balance.solve g = .error f := by
  rw [repetitionVector, zeroRateEdge?_eq_none_iff.2 hrates] at h
  rcases bind_eq_error.1 h with h | ⟨s, _, h⟩
  · exact h
  · simp at h

/-- **The range of a repetition vector.**  Where the rates are positive and the balance equations
have a solution, every part has a least one, and the only reason not to find it is that a number is
too large.  It is found exactly if its counts are counters and, along every edge, so are the two
products that are formed before what the rates have in common is cancelled.  The second condition is
idle if the counts remain counters when they are multiplied with the greatest common divisor of the
rates, and so for edges whose rates are coprime. -/
theorem repetitionVector_range (hrates : g.RatesPositive)
    (hM : g.IsSolutionOn (· < g.actors.size) M) :
    ∃ N, (∀ root < g.actors.size, g.IsLeastOn (g.Linked root) N) ∧
      (∀ counts, g.repetitionVector = .ok counts → ∀ a < g.actors.size, counts[a]? = some (N a)) ∧
      ((∃ counts, g.repetitionVector = .ok counts) ↔
        (∀ a < g.actors.size, N a < Counter.bound) ∧ g.Cancels N) ∧
      ((∀ a < g.actors.size, N a < Counter.bound) →
        (∀ e ∈ g.edges, ∀ a, g.Linked e.source a →
          e.production.gcd e.consumption * N a < Counter.bound) →
        ∃ counts, g.repetitionVector = .ok counts) ∧
      ∀ f, g.repetitionVector = .error f → f.kind = .arithmeticRange := by
  obtain ⟨N, hN⟩ := exists_isLeastOn hM hrates
  have hsolution := fun root hroot => (hN root hroot).toIsSolutionOn
  have hfound : (∀ a < g.actors.size, N a < Counter.bound) →
      ((∃ counts, g.repetitionVector = .ok counts) ↔ g.Cancels N) := by
    intro hbound
    rw [exists_repetitionVector_iff hrates, cancels_iff hrates hsolution]
    exact Balance.exists_solveBelow_iff hrates hsolution hbound le_rfl
  refine ⟨N, hN, fun counts h a ha => (getElem?_of_repetitionVector h hN a ha).1, ?_, ?_, ?_⟩
  · constructor
    · rintro ⟨counts, h⟩
      have hbound := fun a ha => (getElem?_of_repetitionVector h hN a ha).2
      exact ⟨hbound, (hfound hbound).1 ⟨counts, h⟩⟩
    · exact fun ⟨hbound, hcancels⟩ => (hfound hbound).2 hcancels
  · exact fun hbound hgcd => (hfound hbound).2 (cancels_of_gcd hrates hgcd)
  · intro f h
    have hsolve := solve_eq_error hrates h
    refine (Balance.kind_of_solve_eq_error hsolve).resolve_right fun hf => ?_
    exact Balance.solve_error hrates hsolve hf M hM

/-- Three actors in a row, of which the second fires three times as often as the first and the third
as often as the second; along the last edge each firing puts in and takes out `rate` tokens. -/
def threefold (rate : Nat) : Graph ℚ where
  name := "threefold"
  actors := #[.atomic "X" 1 1, .atomic "Y" 1 1, .atomic "Z" 1 1]
  edges := #[numberedEdge 0 0 0 1 3 1 0, numberedEdge 0 0 1 2 rate rate 0]
  closed := by simp [numberedEdge]

/-- One firing of the first actor and three of each of the others. -/
def threefoldCounts (a : Nat) : Nat := if a = 0 then 1 else 3

lemma ratesPositive_threefold {rate : Nat} (hrate : 0 < rate) :
    (threefold rate).RatesPositive := by
  intro e he
  simp only [threefold, List.mem_toArray, List.mem_cons, List.not_mem_nil, or_false] at he
  rcases he with rfl | rfl
  · exact ⟨by decide, by decide⟩
  · exact ⟨hrate, hrate⟩

lemma isLeastOn_threefold {rate : Nat} (hrate : 0 < rate) :
    ∀ root < 3, (threefold rate).IsLeastOn ((threefold rate).Linked root) threefoldCounts := by
  intro root hroot
  have hxy : numberedEdge 0 0 0 1 3 1 0 ∈ (threefold rate).edges := by simp [threefold]
  have hyz : numberedEdge 0 0 1 2 rate rate 0 ∈ (threefold rate).edges := by simp [threefold]
  have hfirst : ∀ a < 3, (threefold rate).Linked 0 a := by
    intro a ha
    interval_cases a
    · exact .refl 0
    · exact linked_of_edge hxy
    · exact (linked_of_edge hxy).trans (linked_of_edge hyz)
  have hall : ∀ a < 3, (threefold rate).Linked root a :=
    fun a ha => (hfirst root hroot).symm.trans (hfirst a ha)
  refine ⟨⟨fun a _ => ?_, fun e he _ => ?_⟩, fun M hM a ha => ?_⟩
  · rw [threefoldCounts]
    split <;> decide
  · simp only [threefold, List.mem_toArray, List.mem_cons, List.not_mem_nil, or_false] at he
    rcases he with rfl | rfl <;> rfl
  · have hx := hM.pos 0 (hall 0 (by decide))
    have hy : 3 * M 0 = 1 * M 1 := hM.balances _ hxy (hall 0 (by decide))
    have hz : rate * M 1 = rate * M 2 := hM.balances _ hyz (hall 1 (by decide))
    have hsame := Nat.eq_of_mul_eq_mul_left hrate hz
    have hbound : a < 3 := ha.lt_size hroot
    rw [threefoldCounts]
    split
    case isTrue h => rwa [h]
    case isFalse h =>
      have hcases : a = 1 ∨ a = 2 := by omega
      rcases hcases with rfl | rfl <;> omega

/-- With rates of `2 ^ 62` the products are still counters. -/
theorem threefold_found :
    (threefold (1 <<< 62)).RatesPositive ∧
      (threefold (1 <<< 62)).IsSolutionOn (· < 3) threefoldCounts ∧
      (threefold (1 <<< 62)).repetitionVector = .ok [1, 3, 3] ∧
      ∃ N, N 0 = 1 ∧ N 1 = 3 ∧ N 2 = 3 ∧ (threefold (1 <<< 62)).Cancels N := by
  have hpos : 0 < 1 <<< 62 := by decide
  have hrates := ratesPositive_threefold hpos
  have hleast := isLeastOn_threefold hpos
  have hsolution : (threefold (1 <<< 62)).IsSolutionOn (· < 3) threefoldCounts :=
    ⟨fun a ha => (hleast a ha).pos a (.refl a),
      fun e he hsource => (hleast _ hsource).balances e he (.refl _)⟩
  have hcounts : (threefold (1 <<< 62)).repetitionVector = .ok [1, 3, 3] := by cbv
  obtain ⟨N, _, hvalues, hfound, _⟩ := repetitionVector_range hrates hsolution
  have hvalue := hvalues _ hcounts
  refine ⟨hrates, hsolution, hcounts, N, ?_, ?_, ?_, (hfound.1 ⟨_, hcounts⟩).2⟩
  · exact (Option.some.inj (hvalue 0 (by decide))).symm
  · exact (Option.some.inj (hvalue 1 (by decide))).symm
  · exact (Option.some.inj (hvalue 2 (by decide))).symm

/-- One, three and three firings are the least solution, but with rates of `2 ^ 63` the ratio of the
third actor is refused: it is multiplied with the common factor of the rates before this is
cancelled. -/
theorem threefold_refused :
    (threefold (1 <<< 63)).RatesPositive ∧
      (∀ root < 3,
        (threefold (1 <<< 63)).IsLeastOn ((threefold (1 <<< 63)).Linked root) threefoldCounts) ∧
      (∀ a < 3, threefoldCounts a < Counter.bound) ∧
      (threefold (1 <<< 63)).repetitionVector =
        .error (.range (.product "firing ratio" 3 (1 <<< 63))) :=
  ⟨ratesPositive_threefold (by decide), isLeastOn_threefold (by decide), by decide, by cbv⟩

end Graph

end Dataflow

import Dataflow.Proofs.Balance.Scaling
import Dataflow.Proofs.Clock.Exact

/-!
# The repetition vector

The parts of a graph are explored one after another, each from the first of its actors.  What is
known at any time is the least solution of every part that has been explored, and nothing of the
others.

* `Balance.Solved` — this invariant.
* `Balance.Solved.extend`, `Balance.Solved.extend_error` — a part is added, or has no solution.
* `Balance.solve_ok`, `Balance.solve_error` — the same for all parts.
* `Graph.repetitionVector_congr` — what the repetition vector depends on.
* **`Graph.repetitionVector_isLeast`** — the repetition vector in full.
-/

namespace Dataflow

namespace Balance

variable {τ : Type} {g : Graph τ} {a n root : Nat} {s s' : Solution}

/-! ## Parts of the solution -/

/-- Has the part of an actor been explored? -/
def Solution.Knows (s : Solution) (a : Nat) : Prop := s.ratios[a]?.join ≠ none

/-- The number of firings of an actor. -/
def Solution.firings (s : Solution) (a : Nat) : Nat := s.counts[a]?.getD 0

/-- The numbers of firings of all parts that have been explored are their least solutions. -/
structure Solved (g : Graph τ) (s : Solution) : Prop where
  ratios_size : s.ratios.size = g.actors.size
  counts_size : s.counts.size = g.actors.size
  knows_iff : ∀ e ∈ g.edges, s.Knows e.source ↔ s.Knows e.target
  isLeastOn : ∀ a, s.Knows a → g.IsLeastOn (g.Linked a) s.firings

lemma Solved.not_knows (hs : Solved g s) (hroot : ¬ s.Knows root) (h : g.Linked root a) :
    ¬ s.Knows a :=
  fun ha => hroot ((Graph.Linked.iff (P := s.Knows) hs.knows_iff h).2 ha)

lemma Solved.fresh (hs : Solved g s) (hroot : ¬ s.Knows root) (a : Nat) (h : g.Linked root a) :
    s.ratios[a]?.join = none :=
  not_not.1 (hs.not_knows hroot h)

section Writing

variable {part : List (Nat × Nat)}

/-- Writes the numbers of firings of a part. -/
def write (counts : Array Nat) (part : List (Nat × Nat)) : Array Nat :=
  part.foldl (fun counts (a, n) => counts.setIfInBounds a n) counts

@[simp] lemma size_write (counts : Array Nat) : (write counts part).size = counts.size := by
  induction part generalizing counts with
  | nil => rfl
  | cons c part ih => exact (ih _).trans Array.size_setIfInBounds

lemma getElem?_write_of_notMem (counts : Array Nat) (ha : a ∉ part.map Prod.fst) :
    (write counts part)[a]? = counts[a]? := by
  induction part generalizing counts with
  | nil => rfl
  | cons c part ih =>
    rw [List.map_cons, List.mem_cons, not_or] at ha
    refine (ih (counts.setIfInBounds c.1 c.2) ha.2).trans ?_
    exact Array.getElem?_setIfInBounds_ne (Ne.symm ha.1)

lemma getElem?_write_of_mem {counts : Array Nat} (hnodup : (part.map Prod.fst).Nodup)
    (h : (a, n) ∈ part) (ha : a < counts.size) : (write counts part)[a]? = some n := by
  induction part generalizing counts with
  | nil => simp at h
  | cons c part ih =>
    rw [List.map_cons, List.nodup_cons] at hnodup
    rcases List.mem_cons.1 h with rfl | h
    · exact (getElem?_write_of_notMem _ hnodup.1).trans (Array.getElem?_setIfInBounds_self_of_lt ha)
    · exact ih hnodup.2 h (by simpa using ha)

end Writing

/-! ## Adding parts -/

variable {t : Incidence} {f : Failure τ}

lemma extend_of_knows (h : s.Knows root) : extend g t s root = .ok s := by
  unfold Balance.extend
  split
  case h_1 => rfl
  case h_2 ratios counts hnone => exact absurd hnone h

lemma extend_of_not_knows (h : ¬ s.Knows root) :
    extend g t s root = do
      let x ← component g t root s.ratios
      let part ← (scaled x.found.toList).mapError .range
      return ⟨x.ratios, write s.counts part⟩ := by
  unfold Balance.extend
  split
  case h_1 r hsome => exact absurd (by simp [Solution.Knows, hsome]) h
  case h_2 => rfl

section

variable {x : Exploration} {part : List (Nat × Nat)}

lemma IsPart.knows_iff {counts : Array Nat}
    (hx : IsPart g root (fun a => s.ratios[a]?.join) x) :
    Solution.Knows ⟨x.ratios, counts⟩ a ↔ g.Linked root a ∨ s.Knows a := by
  by_cases ha : g.Linked root a
  · obtain ⟨r, hr⟩ := hx.exists_mem a ha
    have hsome := (hx.ratio?_eq_some_iff a r ha).2 hr
    rw [Exploration.ratio?] at hsome
    simp [Solution.Knows, hsome, ha]
  · have hsame := hx.ratio?_of_not_linked a ha
    rw [Exploration.ratio?] at hsame
    simp [Solution.Knows, hsame, ha]

lemma Solved.add (hs : Solved g s) (hroot : root < g.actors.size)
    (hx : IsPart g root (fun a => s.ratios[a]?.join) x)
    (hpart : scaled x.found.toList = .ok part) :
    Solved g ⟨x.ratios, write s.counts part⟩ := by
  have hkeys := map_fst_of_scaled hpart
  have hlinked : ∀ b, b ∈ part.map Prod.fst → g.Linked root b := by
    intro b hb
    rw [hkeys] at hb
    obtain ⟨⟨b, r⟩, hr, rfl⟩ := List.mem_map.1 hb
    exact hx.linked b r (Array.mem_toList_iff.1 hr)
  refine ⟨hx.size_eq, (size_write _).trans hs.counts_size, fun e he => ?_, fun a ha => ?_⟩
  · rw [hx.knows_iff, hx.knows_iff, hs.knows_iff e he, Graph.linked_iff_of_edge he]
  · by_cases haroot : g.Linked root a
    · rw [← haroot.part_eq]
      refine hx.isLeastOn hpart fun b n hb => ?_
      have hbound : b < s.counts.size :=
        hs.counts_size ▸ (hlinked b (List.mem_map_of_mem hb)).lt_size hroot
      rw [Solution.firings, getElem?_write_of_mem (hkeys ▸ hx.nodup) hb hbound]
      rfl
    · have hold := hs.isLeastOn a ((hx.knows_iff.1 ha).resolve_left haroot)
      refine hold.congr (fun e he => (Graph.linked_iff_of_edge he).1) fun b hb => ?_
      have hother : b ∉ part.map Prod.fst := fun hmem => haroot ((hlinked b hmem).trans hb.symm)
      rw [Solution.firings, getElem?_write_of_notMem s.counts hother]
      rfl

end

/-- Adding a part keeps the invariant, and the part of the root is known after that. -/
theorem Solved.extend (hs : Solved g s) (hrates : g.RatesPositive) (hroot : root < g.actors.size)
    (h : extend g g.incidence s root = .ok s') :
    Solved g s' ∧ s'.Knows root ∧ ∀ a, s.Knows a → s'.Knows a := by
  by_cases hknown : s.Knows root
  · rw [extend_of_knows hknown] at h
    obtain rfl := Except.ok.inj h
    exact ⟨hs, hknown, fun _ ha => ha⟩
  · simp only [extend_of_not_knows hknown, bind_eq_ok, mapError_eq_ok, pure_eq_ok] at h
    obtain ⟨x, hcomponent, part, hpart, rfl⟩ := h
    have hx := component_ok hrates hs.ratios_size hroot (hs.fresh hknown) hcomponent
    refine ⟨hs.add hroot hx hpart, ?_, fun a ha => ?_⟩
    · exact hx.knows_iff.2 (Or.inl (.refl root))
    · exact hx.knows_iff.2 (Or.inr ha)

/-- Where two different ratios are demanded of one actor, the part of the root has no solution. -/
theorem Solved.extend_error (hs : Solved g s) (hrates : g.RatesPositive)
    (hroot : root < g.actors.size) (h : Balance.extend g g.incidence s root = .error f)
    (hf : f.kind = .inconsistentRates) (M : Nat → Nat) : ¬ g.IsSolutionOn (g.Linked root) M := by
  by_cases hknown : s.Knows root
  · simp [extend_of_knows hknown] at h
  · simp only [extend_of_not_knows hknown, bind_eq_error, mapError_eq_error, pure_ne_error,
      and_false, exists_false, or_false] at h
    rcases h with hcomponent | ⟨x, _, error, _, rfl⟩
    · exact component_error hrates hs.ratios_size hroot (hs.fresh hknown) hf hcomponent M
    · -- a number left the range of the counters, which is a failure of another kind
      simp [Failure.kind] at hf

/-! ## All parts -/

lemma solved_start :
    Solved g ⟨Array.replicate g.actors.size none, Array.replicate g.actors.size 0⟩ := by
  have hknows : ∀ a, ¬ Solution.Knows
      ⟨Array.replicate g.actors.size none, Array.replicate g.actors.size 0⟩ a := by
    intro a
    simp [Solution.Knows, Array.getElem?_replicate, apply_ite]
  refine ⟨Array.size_replicate, Array.size_replicate, ?_, ?_⟩
  · exact fun e _ => iff_of_false (hknows _) (hknows _)
  · exact fun a ha => absurd ha (hknows a)

lemma Solved.extend_all (hrates : g.RatesPositive) :
    ∀ {roots : List Nat} {s s' : Solution}, Solved g s → (∀ root ∈ roots, root < g.actors.size) →
      roots.foldlM (Balance.extend g g.incidence) s = .ok s' →
      Solved g s' ∧ (∀ a, s.Knows a → s'.Knows a) ∧ ∀ root ∈ roots, s'.Knows root
  | [], s, s', hs, _, h => by
      rw [List.foldlM_nil, pure_eq_ok] at h
      subst h
      exact ⟨hs, fun _ ha => ha, by simp⟩
  | root :: roots, s, s', hs, hin, h => by
      rw [List.foldlM_cons, bind_eq_ok] at h
      obtain ⟨m, hm, hrest⟩ := h
      obtain ⟨hroot, hin⟩ := List.forall_mem_cons.1 hin
      obtain ⟨hsolved, hknown, hmono⟩ := hs.extend hrates hroot hm
      obtain ⟨hsolved', hmono', hall⟩ := extend_all hrates hsolved hin hrest
      exact ⟨hsolved', fun a ha => hmono' a (hmono a ha),
        List.forall_mem_cons.2 ⟨hmono' root hknown, hall⟩⟩

lemma Solved.extend_all_error (hrates : g.RatesPositive) (hf : f.kind = .inconsistentRates) :
    ∀ {roots : List Nat} {s : Solution}, Solved g s → (∀ root ∈ roots, root < g.actors.size) →
      roots.foldlM (Balance.extend g g.incidence) s = .error f →
      ∃ root < g.actors.size, ∀ M, ¬ g.IsSolutionOn (g.Linked root) M
  | [], s, _, _, h => by simp at h
  | root :: roots, s, hs, hin, h => by
      obtain ⟨hroot, hin⟩ := List.forall_mem_cons.1 hin
      rw [List.foldlM_cons, bind_eq_error] at h
      rcases h with hfirst | ⟨m, hm, hrest⟩
      · exact ⟨root, hroot, hs.extend_error hrates hroot hfirst hf⟩
      · exact extend_all_error hrates hf (hs.extend hrates hroot hm).1 hin hrest

/-- All parts are solved, each with its least solution. -/
theorem solve_ok (hrates : g.RatesPositive) (h : solve g = .ok s) :
    s.counts.size = g.actors.size ∧
      ∀ root < g.actors.size, g.IsLeastOn (g.Linked root) s.firings := by
  obtain ⟨hs, _, hall⟩ :=
    Solved.extend_all hrates solved_start (fun _ hroot => List.mem_range.1 hroot) h
  exact ⟨hs.counts_size, fun root hroot => hs.isLeastOn root (hall root (List.mem_range.2 hroot))⟩

/-- Where two different ratios are demanded of one actor, the graph has no solution. -/
theorem solve_error (hrates : g.RatesPositive) (h : solve g = .error f)
    (hf : f.kind = .inconsistentRates) (M : Nat → Nat) :
    ¬ g.IsSolutionOn (· < g.actors.size) M := by
  intro hM
  obtain ⟨root, hroot, hnone⟩ :=
    Solved.extend_all_error hrates hf solved_start (fun _ hroot => List.mem_range.1 hroot) h
  exact hnone M (hM.mono fun a ha => ha.lt_size hroot)

end Balance

/-! ## The repetition vector -/

namespace Graph

variable {τ : Type} {g h : Graph τ}

lemma zeroRateEdge?_eq_none_iff : g.zeroRateEdge? = none ↔ g.RatesPositive := by
  simp only [zeroRateEdge?, Array.find?_eq_none, RatesPositive, Bool.or_eq_true, beq_iff_eq]
  grind

lemma repetitionVector_eq_ok {counts : List Nat} :
    g.repetitionVector = .ok counts ↔
      g.RatesPositive ∧ ∃ s, Balance.solve g = .ok s ∧ s.counts.toList = counts := by
  rw [← zeroRateEdge?_eq_none_iff, repetitionVector]
  cases g.zeroRateEdge? with
  | some e => simp
  | none => simp only [bind_eq_ok, pure_eq_ok, true_and]

lemma repetitionVector_eq_error {f : Failure τ} (h : g.repetitionVector = .error f)
    (hf : f.kind = .inconsistentRates) : g.RatesPositive ∧ Balance.solve g = .error f := by
  rw [← zeroRateEdge?_eq_none_iff]
  rw [repetitionVector] at h
  split at h
  case h_1 =>
    obtain rfl := Except.error.inj h
    simp [Failure.kind] at hf
  case h_2 hnone =>
    rw [bind_eq_error] at h
    exact ⟨hnone, h.resolve_right (by simp)⟩

/-- The repetition vector depends on the edges, and its failures on the names. -/
theorem repetitionVector_congr (hname : h.name = g.name)
    (hnames : ∀ a, h.actorName a = g.actorName a) (hsize : h.actors.size = g.actors.size)
    (hedges : h.edges = g.edges) : h.repetitionVector = g.repetitionVector := by
  have hrows : h.rowsBelow = g.rowsBelow := by
    funext side n
    simp only [rowsBelow, hsize, hedges]
  have hincidence : h.incidence = g.incidence := by
    simp only [incidence, hrows, hedges]
  have hneighbours : Balance.neighbours h = Balance.neighbours g := by
    funext t a
    simp only [Balance.neighbours, hedges]
  have hrelate : Balance.relate h = Balance.relate g := by
    funext root r x n
    simp only [Balance.relate, hname, hnames]
  have hexplore : ∀ t root steps i x,
      Balance.explore h t root steps i x = Balance.explore g t root steps i x := by
    intro t root steps
    induction steps with
    | zero => exact fun _ _ => rfl
    | succ steps ih =>
      intro i x
      simp only [Balance.explore, hneighbours, hrelate, ih]
  have hextend : Balance.extend h = Balance.extend g := by
    funext t s root
    simp only [Balance.extend, Balance.component, hsize, hexplore]
  simp only [repetitionVector, zeroRateEdge?, hedges, hnames, hname, Balance.solve, hsize,
    hincidence, hextend]

/-- The counts that are found solve each part, and least. -/
lemma isLeastOn_of_repetitionVector {counts : List Nat} (h : g.repetitionVector = .ok counts) :
    counts.length = g.actors.size ∧
      ∀ root < g.actors.size, g.IsLeastOn (g.Linked root) fun a => counts[a]?.getD 0 := by
  obtain ⟨hrates, s, hs, rfl⟩ := repetitionVector_eq_ok.1 h
  obtain ⟨hsize, hleast⟩ := Balance.solve_ok hrates hs
  have hfirings : s.firings = fun a => s.counts.toList[a]?.getD 0 := by
    funext a
    rw [Balance.Solution.firings, Array.getElem?_toList]
  exact ⟨hsize, hfirings ▸ hleast⟩

lemma repetitionVector_updateRepetitions (g : Graph τ) (repetitions : Nat → Nat) :
    (g.updateActors fun i a => { a with repetitions := repetitions i }).repetitionVector =
      g.repetitionVector := by
  refine repetitionVector_congr rfl (fun a => ?_) (by simp [updateActors]) rfl
  simp only [actorName, updateActors, Array.getElem?_mapIdx, Option.map_map]
  rfl

/-- **The repetition vector.**  What is found for a graph has a positive count for each actor that
balances every edge, and in each part no positive numbers of firings that balance the part are
less for any actor of it; an actor without edges fires once.  A graph is refused for inconsistent
rates only if no positive numbers of firings balance all its edges, and where there are none no
counts are found.  The repetition counts that the actors have do not matter. -/
theorem repetitionVector_isLeast (g : Graph τ) :
    (∀ counts, g.repetitionVector = .ok counts →
      counts.length = g.actors.size ∧ (∀ n ∈ counts, 1 ≤ n) ∧
        (∀ e ∈ g.edges, e.Balances fun a => counts[a]?.getD 0) ∧
        (∀ root < g.actors.size, ∀ M, g.IsSolutionOn (g.Linked root) M →
          ∀ a, g.Linked root a → counts[a]?.getD 0 ≤ M a) ∧
        ∀ a < g.actors.size, (∀ e ∈ g.edges, e.source ≠ a ∧ e.target ≠ a) →
          counts[a]? = some 1) ∧
      (∀ f, g.repetitionVector = .error f → f.kind = .inconsistentRates →
        ∀ M, ¬ g.IsSolutionOn (· < g.actors.size) M) ∧
      ((∀ M, ¬ g.IsSolutionOn (· < g.actors.size) M) →
        ∀ counts, g.repetitionVector ≠ .ok counts) ∧
      ∀ repetitions : Nat → Nat,
        (g.updateActors fun i a => { a with repetitions := repetitions i }).repetitionVector =
          g.repetitionVector := by
  refine ⟨fun counts h => ?_, fun f h hf => ?_, fun hnone counts h => ?_,
    repetitionVector_updateRepetitions g⟩
  · obtain ⟨hlength, hleast⟩ := isLeastOn_of_repetitionVector h
    have hpos : ∀ a < g.actors.size, 0 < counts[a]?.getD 0 :=
      fun a ha => (hleast a ha).pos a (.refl a)
    refine ⟨hlength, fun n hn => ?_, fun e he => ?_, fun root hroot => ?_, fun a ha halone => ?_⟩
    · obtain ⟨a, ha, rfl⟩ := List.getElem_of_mem hn
      exact Nat.succ_le_of_lt (by simpa [ha] using hpos a (hlength ▸ ha))
    · exact (hleast _ (g.closed e he).1).balances e he (.refl _)
    · exact (hleast root hroot).least
    · have hone := (hleast a ha).eq_one halone
      have hbound : a < counts.length := hlength ▸ ha
      simpa [hbound] using hone
  · obtain ⟨hrates, hsolve⟩ := repetitionVector_eq_error h hf
    exact Balance.solve_error hrates hsolve hf
  · obtain ⟨_, hleast⟩ := isLeastOn_of_repetitionVector h
    refine hnone (fun a => counts[a]?.getD 0) ⟨fun a ha => ?_, fun e he hsource => ?_⟩
    · exact (hleast a ha).pos a (.refl a)
    · exact (hleast _ hsource).balances e he (.refl _)

/-- Three actors in a circle, the first two with a parallel edge, two actors of which one has a
loop, and an actor without edges; the edge that closes the circle puts in `back` tokens. -/
def severalParts (back : Nat) : Graph ℚ where
  name := "parts"
  actors := #[.atomic "A" 1 1, .atomic "B" 1 1, .atomic "C" 1 1, .atomic "D" 1 1, .atomic "E" 1 1,
    .atomic "F" 7 1]
  edges := #[numberedEdge 0 0 0 1 2 3 0, numberedEdge 1 1 0 1 4 6 0, numberedEdge 0 0 1 2 1 2 0,
    numberedEdge 0 0 2 0 back 1 0, numberedEdge 0 0 3 4 4 6 0, numberedEdge 1 0 3 3 5 5 1]
  closed := by simp [numberedEdge]

/-- The circle is balanced by three, two and one firings and by no fewer, if its last edge puts in
three tokens; if it puts in four, nothing balances the graph. -/
theorem severalParts_isLeast :
    (severalParts 3).repetitionVector = .ok [3, 2, 1, 3, 2, 1] ∧
      (∀ M, (severalParts 3).IsSolutionOn ((severalParts 3).Linked 0) M → 3 ≤ M 0) ∧
      ∀ M, ¬ (severalParts 4).IsSolutionOn (· < 6) M := by
  obtain ⟨hok, _⟩ := repetitionVector_isLeast (severalParts 3)
  obtain ⟨_, herror, _⟩ := repetitionVector_isLeast (severalParts 4)
  have hcounts : (severalParts 3).repetitionVector = .ok [3, 2, 1, 3, 2, 1] := by cbv
  obtain ⟨_, _, _, hleast, _⟩ := hok _ hcounts
  refine ⟨hcounts, fun M hM => hleast 0 (by decide) M hM 0 (.refl 0), ?_⟩
  exact herror (.inconsistent "parts" "C" (1, 4) (1, 3) "A") (by cbv) rfl

end Graph

end Dataflow

import Dataflow.Balance
import Dataflow.Proofs.Clock.Exact
import Dataflow.Proofs.Expansion.Coalescing

/-!
# First in, first out

In every iteration an edge sends its tokens in the same order.  The homogeneous expansion has an
edge for each of them, and its delay says how many iterations later the token is read: counted
through all iterations, the firing that reads a token is the one that first-in first-out order
assigns to it, behind the tokens that are there from the start.

* `Edge.reader_add_iteration` — an iteration later, the readers are those of the next iteration.
* **`Graph.expand_single_fifo`** — the edges of the homogeneous expansion name the right firings.
-/

namespace Dataflow

section Lists

variable {α β : Type} {f : α × Nat → List β} {key : β → Option Nat}

lemma filter_flatMap_of_lt {b : Nat} (hkey : ∀ p, ∀ x ∈ f p, key x = some p.2) {l : List α}
    {k : Nat} (hb : b < k) : ((l.zipIdx k).flatMap f).filter (key · == some b) = [] := by
  rw [List.filter_eq_nil_iff]
  intro x hx
  obtain ⟨p, hp, hx⟩ := List.mem_flatMap.1 hx
  have hk := List.le_snd_of_mem_zipIdx hp
  rw [hkey p x hx]
  simp only [beq_iff_eq, Option.some.injEq]
  omega

lemma filter_flatMap_zipIdx (hkey : ∀ p, ∀ x ∈ f p, key x = some p.2) :
    ∀ {l : List α} {k b : Nat} {a : α}, l[b]? = some a →
      ((l.zipIdx k).flatMap f).filter (key · == some (k + b)) = f (a, k + b)
  | [], k, b, a, h => by simp at h
  | a' :: l, k, 0, a, h => by
      rw [List.getElem?_cons_zero, Option.some.injEq] at h
      subst h
      have hfirst : (f (a', k)).filter (key · == some k) = f (a', k) := by
        rw [List.filter_eq_self]
        intro x hx
        simp [hkey _ x hx]
      rw [Nat.add_zero, List.zipIdx_cons, List.flatMap_cons, List.filter_append, hfirst,
        filter_flatMap_of_lt hkey (Nat.lt_succ_self k), List.append_nil]
  | a' :: l, k, b + 1, a, h => by
      rw [List.getElem?_cons_succ] at h
      have ih := filter_flatMap_zipIdx hkey (k := k + 1) h
      have hfirst : (f (a', k)).filter (key · == some (k + (b + 1))) = [] := by
        rw [List.filter_eq_nil_iff]
        intro x hx
        simp [hkey _ x hx]
      rw [List.zipIdx_cons, List.flatMap_cons, List.filter_append, hfirst, List.nil_append,
        show k + (b + 1) = k + 1 + b by omega, ih]

end Lists

/-- An iteration later, the readers of a balanced edge are those of the next iteration. -/
lemma Edge.reader_add_iteration {e : Edge} {firings : Nat → Nat}
    (hbalanced : e.Balances firings) (hc : 0 < e.consumption) (q n : Nat) :
    (e.delay + q * e.production * firings e.source + n) / e.consumption =
      q * firings e.target + e.reader n := by
  have htokens : q * e.production * firings e.source =
      e.consumption * (q * firings e.target) := by
    rw [Nat.mul_assoc, hbalanced]
    exact Nat.mul_left_comm _ _ _
  calc (e.delay + q * e.production * firings e.source + n) / e.consumption
      = (e.delay + n + e.consumption * (q * firings e.target)) / e.consumption := by
        rw [htokens, Nat.add_right_comm]
    _ = e.reader n + q * firings e.target := Nat.add_mul_div_left _ _ hc
    _ = q * firings e.target + e.reader n := Nat.add_comm _ _

namespace Graph

variable {τ : Type} {g h : Graph τ} {b : Nat} {e : Edge}

lemma filter_tokenArcs (he : g.edges[b]? = some e) :
    (Expansion.tokenArcs g).filter (·.base == some b) = Expansion.edgeArcs g b e := by
  have hkey : ∀ p : Edge × Nat, ∀ x ∈ Expansion.edgeArcs g p.2 p.1, x.base = some p.2 := by
    intro p x hx
    obtain ⟨n, _, rfl⟩ := List.mem_map.1 hx
    rfl
  have hfilter := filter_flatMap_zipIdx hkey (k := 0) (Array.getElem?_toList.trans he)
  rw [Nat.zero_add] at hfilter
  exact hfilter

variable [Clock τ]

/-- **First in, first out.**  The homogeneous expansion of a balanced graph holds an edge for every
token that an edge sends in an iteration, in the order in which they are sent.  The edge for place
`n` leaves the instance that sends the token, and enters the instance that reads it: with its delay,
the firing of the target in iteration `q + delay` is the one that first-in first-out order assigns
to the token of iteration `q`. -/
theorem expand_single_fifo (hbalanced : g.Balanced) (hh : g.expand .single = .ok h)
    (he : g.edges[b]? = some e) :
    (h.edges.toList.filter (·.base == some b)).length = e.production * g.repetitions e.source ∧
      ∀ n < e.production * g.repetitions e.source,
        ∃ e' j, (h.edges.toList.filter (·.base == some b))[n]? = some e' ∧
          e'.production = 1 ∧ e'.consumption = 1 ∧
          g.IsInstance h e'.source e.source (n / e.production) ∧
          g.IsInstance h e'.target e.target j ∧
          ∀ q, (q + e'.delay) * g.repetitions e.target + j =
            (e.delay + q * e.production * g.repetitions e.source + n) / e.consumption := by
  have hh := expanded_of_expand hh
  have hmem := Array.mem_of_getElem? he
  have hc := (hh.wellFormed.edges_wellFormed e hmem).consumption_pos
  have harcs : (h.edges.toList.filter (·.base == some b)).map Edge.arc =
      Expansion.edgeArcs g b e := by
    rw [← filter_tokenArcs he, ← hh.map_arc_single, List.filter_map]
    rfl
  refine ⟨by simpa [Expansion.edgeArcs] using congrArg List.length harcs, fun n hn => ?_⟩
  have hplace : ((h.edges.toList.filter (·.base == some b)).map Edge.arc)[n]? =
      some (Expansion.tokenArc g b e n) := by
    rw [harcs]
    simp [Expansion.edgeArcs, hn]
  rw [List.getElem?_map, Option.map_eq_some_iff] at hplace
  obtain ⟨e', he', harc⟩ := hplace
  have hin : e' ∈ h.edges :=
    Array.mem_toList_iff.1 (List.mem_filter.1 (List.mem_of_getElem? he')).1
  have hp := hh.production_eq_one hin
  have hsource : e'.source = Expansion.firstInstance g e.source + n / e.production :=
    congrArg Arc.source harc
  have htarget : e'.target =
      Expansion.firstInstance g e.target + e.reader n % g.repetitions e.target :=
    congrArg Arc.target harc
  have hlag : e'.delay = e.reader n / g.repetitions e.target := by
    have := congrArg Arc.lag harc
    rwa [Edge.arc, hp, Nat.div_one] at this
  have hreaders := hh.wellFormed.repetitions_pos (g.closed e hmem).2
  refine ⟨e', e.reader n % g.repetitions e.target, he', hp,
    (hh.uniform hin).consumption_eq.trans hp, ?_, ?_, fun q => ?_⟩
  · rw [hsource]
    exact Expansion.isInstance_firstInstance hh.actors (Nat.div_lt_of_lt_mul hn)
  · rw [htarget]
    exact Expansion.isInstance_firstInstance hh.actors (Nat.mod_lt _ hreaders)
  · rw [Edge.reader_add_iteration (hbalanced e hmem) hc, hlag, Nat.add_mul, Nat.add_assoc,
      Nat.div_add_mod']

lemma balanced_handshake (back : Nat) : (handshake back).Balanced := by
  intro e he
  simp only [handshake, List.mem_toArray, List.mem_cons, List.not_mem_nil, or_false] at he
  rcases he with rfl | rfl <;> rfl

lemma balanced_parallelPair (xy yx : Nat) : (parallelPair xy yx).Balanced := by
  intro e he
  simp only [parallelPair, List.mem_toArray, List.mem_cons, List.not_mem_nil, or_false] at he
  rcases he with rfl | rfl | rfl <;> rfl

/-- The ninth token of the second edge finds four tokens there, and is read in the next
iteration. -/
theorem parallelPair_ninth_token :
    (parallelPair 4 6).Balanced ∧ ∃ h, (parallelPair 4 6).expand .single = .ok h ∧
      ∃ e' j, (h.edges.toList.filter (·.base == some 1))[8]? = some e' ∧
        (parallelPair 4 6).IsInstance h e'.source 0 1 ∧
        (parallelPair 4 6).IsInstance h e'.target 1 j ∧
        ∀ q, (q + e'.delay) * 3 + j = (4 + q * 6 * 2 + 8) / 4 := by
  have hbalanced := balanced_parallelPair 4 6
  obtain ⟨h, hh, _⟩ := exists_of_any_ok (x := (parallelPair 4 6).expand .single)
    (p := fun h => h.edges.size == 24) (by cbv)
  obtain ⟨e', j, he', _, _, hsource, htarget, hreads⟩ :=
    (expand_single_fifo hbalanced hh (b := 1) rfl).2 8 (by decide)
  exact ⟨hbalanced, h, hh, e', j, he', hsource, htarget, hreads⟩

end Graph

end Dataflow

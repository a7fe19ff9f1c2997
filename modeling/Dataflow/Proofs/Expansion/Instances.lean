import Dataflow.Expansion
import Dataflow.Proofs.Attempt
import Mathlib.Algebra.GroupWithZero.Nat

/-!
# The numbers of the instances

Instances are numbered actor by actor: the instance of actor `a` for its firing `i` has the number
`firstInstance g a + i`.  These numbers are the actors of an expansion, and each of them belongs to
one actor and one firing.

* `Graph.IsInstance` — an actor of an expansion is the instance for a firing.
* `Expansion.isInstance_firstInstance` — it has the number that the expansion computes.
* **`Expansion.exists_instance`**, **`Expansion.firstInstance_inj`** — every number is that of
  exactly one firing.
-/

namespace Dataflow

section Lists

variable {α : Type}

/-- A member of a concatenation, found by the list it comes from. -/
lemma getElem?_flatten_take {i : Nat} {l : List α} : ∀ {L : List (List α)} {a : Nat},
    L[a]? = some l → i < l.length →
      L.flatten[((L.take a).map List.length).sum + i]? = l[i]?
  | [], a, h, _ => by simp at h
  | l' :: L, 0, h, hi => by
      rw [List.getElem?_cons_zero, Option.some.injEq] at h
      subst h
      simp [List.getElem?_append_left hi]
  | l' :: L, a + 1, h, hi => by
      rw [List.getElem?_cons_succ] at h
      rw [List.flatten_cons, List.take_succ_cons, List.map_cons, List.sum_cons, Nat.add_assoc,
        List.getElem?_append_right (Nat.le_add_right _ _), Nat.add_sub_cancel_left]
      exact getElem?_flatten_take h hi

/-- Every place in a concatenation is a place in one of the lists. -/
lemma exists_of_lt_length_flatten {x : Nat} : ∀ {L : List (List α)}, x < L.flatten.length →
    ∃ a l i, L[a]? = some l ∧ i < l.length ∧ x = ((L.take a).map List.length).sum + i
  | [], h => by simp at h
  | l :: L, h => by
      by_cases hl : x < l.length
      · exact ⟨0, l, x, rfl, hl, by simp⟩
      · rw [List.flatten_cons, List.length_append] at h
        obtain ⟨a, l', i, hL, hi, hx⟩ := exists_of_lt_length_flatten (x := x - l.length) (L := L)
          (by omega)
        refine ⟨a + 1, l', i, hL, hi, ?_⟩
        rw [List.take_succ_cons, List.map_cons, List.sum_cons]
        omega

end Lists

namespace Graph

variable {τ : Type} {g : Graph τ}

/-- Actor number `x` of `h` is the instance of actor number `a` of `g` for its firing `i`, counted
from zero. -/
def IsInstance (g h : Graph τ) (x a i : Nat) : Prop :=
  ∃ actor, g.actors[a]? = some actor ∧ i < actor.repetitions ∧
    h.actors[x]? = some (actor.instance a i)

lemma IsInstance.lt_size {h : Graph τ} {x a i : Nat} (hx : g.IsInstance h x a i) :
    x < h.actors.size := by
  obtain ⟨actor, _, _, hx⟩ := hx
  exact (Array.getElem?_eq_some_iff.1 hx).1

lemma IsInstance.base_lt_size {h : Graph τ} {x a i : Nat} (hx : g.IsInstance h x a i) :
    a < g.actors.size := by
  obtain ⟨actor, ha, _⟩ := hx
  exact (Array.getElem?_eq_some_iff.1 ha).1

lemma IsInstance.repetitions {h : Graph τ} {x a i : Nat} (hx : g.IsInstance h x a i) :
    h.repetitions x = 1 := by
  obtain ⟨actor, _, _, hx⟩ := hx
  simp [Graph.repetitions, hx, Actor.instance]

lemma IsInstance.lt_repetitions {h : Graph τ} {x a i : Nat} (hx : g.IsInstance h x a i) :
    i < g.repetitions a := by
  obtain ⟨actor, ha, hi, _⟩ := hx
  simpa [Graph.repetitions, ha] using hi

lemma exists_actor {a i : Nat} (h : i < g.repetitions a) :
    ∃ actor, g.actors[a]? = some actor ∧ i < actor.repetitions := by
  rw [repetitions] at h
  cases ha : g.actors[a]? with
  | none => simp [ha] at h
  | some actor => exact ⟨actor, rfl, by simpa [ha] using h⟩

lemma lt_size_of_lt_repetitions {a i : Nat} (h : i < g.repetitions a) : a < g.actors.size := by
  obtain ⟨actor, ha, _⟩ := exists_actor h
  exact (Array.getElem?_eq_some_iff.1 ha).1

lemma repetitions_of_getElem? {a : Nat} {actor : Actor τ} (h : g.actors[a]? = some actor) :
    g.repetitions a = actor.repetitions := by
  simp [repetitions, h]

end Graph

namespace Expansion

variable {τ : Type} {g h : Graph τ}

/-- The number of the first instance of an actor. -/
def firstInstance (g : Graph τ) (a : Nat) : Nat :=
  ((g.actors.toList.take a).map Actor.repetitions).sum

lemma numberInstances_take {actors : List (Actor τ)} {n : Nat} (hn : n ≤ actors.length) :
    numberInstances (actors.take n) (#[], 0) =
      ((Array.range n).map fun a => ((actors.take a).map Actor.repetitions).sum,
        ((actors.take n).map Actor.repetitions).sum) := by
  induction n with
  | zero => simp [numberInstances]
  | succ n ih =>
    have h := ih (Nat.le_of_succ_le hn)
    rw [numberInstances] at h ⊢
    rw [List.take_succ_eq_append_getElem hn, List.foldl_append, h]
    simp [Array.range_succ, -List.take_append_getElem]

/-- The first instances of all actors are found in one walk over the actors. -/
lemma firstInstances_eq {g : Graph τ} :
    firstInstances g = (Array.range g.actors.size).map (firstInstance g) := by
  have h := numberInstances_take (Nat.le_refl g.actors.toList.length)
  rw [List.take_length] at h
  simp [firstInstances, h, firstInstance]

/-- The instances of an actor. -/
def instancesOf (base : Nat) (a : Actor τ) : List (Actor τ) :=
  (List.range a.repetitions).map (a.instance base)

lemma toList_instances (g : Graph τ) :
    (instances g).toList = (g.actors.toList.mapIdx instancesOf).flatten := by
  rw [instances, Array.toList_flatten]
  congr 1
  refine List.ext_getElem? fun i => ?_
  cases hi : g.actors[i]? <;> simp [hi, instancesOf]

lemma sum_length_take (g : Graph τ) (a : Nat) :
    (((g.actors.toList.mapIdx instancesOf).take a).map List.length).sum = firstInstance g a := by
  have hlength : ((g.actors.toList.mapIdx instancesOf).take a).map List.length =
      (g.actors.toList.take a).map Actor.repetitions := by
    rw [List.map_take, List.map_take]
    congr 1
    refine List.ext_getElem? fun i => ?_
    cases hi : g.actors[i]? <;> simp [hi, instancesOf]
  rw [hlength, firstInstance]

/-- The instance for a firing has the number that the expansion computes for it. -/
theorem isInstance_firstInstance (hactors : h.actors = instances g) {a i : Nat}
    (hi : i < g.repetitions a) : g.IsInstance h (firstInstance g a + i) a i := by
  obtain ⟨actor, ha, hlt⟩ := Graph.exists_actor hi
  refine ⟨actor, ha, hlt, ?_⟩
  have hrow : (g.actors.toList.mapIdx instancesOf)[a]? = some (instancesOf a actor) := by
    simp [ha]
  rw [hactors, ← Array.getElem?_toList, toList_instances, ← sum_length_take,
    getElem?_flatten_take hrow (by simpa [instancesOf] using hlt)]
  simp [instancesOf, hlt]

/-- Every actor of an expansion is the instance for some firing. -/
theorem exists_instance {x : Nat} (hx : x < (instances g).size) :
    ∃ a i, i < g.repetitions a ∧ x = firstInstance g a + i := by
  rw [← Array.length_toList, toList_instances] at hx
  obtain ⟨a, l, i, hl, hi, hxi⟩ := exists_of_lt_length_flatten hx
  rw [List.getElem?_mapIdx, Option.map_eq_some_iff] at hl
  obtain ⟨actor, ha, rfl⟩ := hl
  rw [Array.getElem?_toList] at ha
  refine ⟨a, i, ?_, by rw [hxi, sum_length_take]⟩
  rw [Graph.repetitions_of_getElem? ha]
  simpa [instancesOf] using hi

lemma exists_isInstance (hactors : h.actors = instances g) {x : Nat} (hx : x < h.actors.size) :
    ∃ a i, x = firstInstance g a + i ∧ g.IsInstance h x a i := by
  rw [hactors] at hx
  obtain ⟨a, i, hi, rfl⟩ := exists_instance hx
  exact ⟨a, i, rfl, isInstance_firstInstance hactors hi⟩

/-- Every actor of an expansion is an instance of an actor of the graph. -/
lemma exists_of_mem_instances (hactors : h.actors = instances g) {x : Actor τ}
    (hx : x ∈ h.actors) : ∃ (base i : Nat) (a : Actor τ), g.actors[base]? = some a ∧
      x = a.instance base i := by
  obtain ⟨n, hn⟩ := Array.getElem?_of_mem hx
  obtain ⟨base, i, _, a, ha, _, hxi⟩ :=
    exists_isInstance hactors (Array.getElem?_eq_some_iff.1 hn).1
  exact ⟨base, i, a, ha, Option.some.inj (hn.symm.trans hxi)⟩

lemma firstInstance_succ (g : Graph τ) (a : Nat) :
    firstInstance g (a + 1) = firstInstance g a + g.repetitions a := by
  by_cases ha : a < g.actors.size
  · rw [firstInstance, List.take_succ_eq_append_getElem (by simpa using ha)]
    simp [firstInstance, Graph.repetitions, ha]
  · have ha' : g.actors.size ≤ a := Nat.le_of_not_lt ha
    simp [firstInstance, Graph.repetitions, ha', List.take_of_length_le, Nat.le_succ_of_le]

lemma firstInstance_add_le {a b : Nat} (hab : a < b) :
    firstInstance g a + g.repetitions a ≤ firstInstance g b := by
  induction b with
  | zero => omega
  | succ b ih =>
    rw [firstInstance_succ]
    rcases Nat.lt_or_eq_of_le (Nat.le_of_lt_succ hab) with h | rfl
    · exact Nat.le_add_right_of_le (ih h)
    · exact Nat.le_refl _

/-- The number of an instance determines its actor and its firing. -/
theorem firstInstance_inj {a b i j : Nat} (hi : i < g.repetitions a) (hj : j < g.repetitions b)
    (heq : firstInstance g a + i = firstInstance g b + j) : a = b ∧ i = j := by
  rcases Nat.lt_trichotomy a b with hab | rfl | hab
  · have := firstInstance_add_le (g := g) hab
    omega
  · exact ⟨rfl, by omega⟩
  · have := firstInstance_add_le (g := g) hab
    omega

end Expansion

end Dataflow

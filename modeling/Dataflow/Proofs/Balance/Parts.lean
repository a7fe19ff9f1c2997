import Dataflow.Balance
import Dataflow.Proofs.Circuit

/-!
# Solutions of the balance equations

The balance equations relate the actors that edges connect.  A graph falls into parts that no edge
joins, and its equations are solved on each part separately.

* `Graph.Linked` — actors of one part.
* `Graph.IsSolutionOn` — positive numbers of firings that balance a part.
* **`Graph.IsLeastOn`** — the least such numbers.
* `Graph.IsSolutionOn.mul_eq`, **`Graph.exists_isLeastOn`** — solutions of a part stand in one ratio,
  so one of them is the least.
-/

namespace Dataflow

namespace Graph

variable {τ : Type} {g : Graph τ} {a b : Nat}

/-- Actors that edges connect, in whatever direction these are followed. -/
def Linked (g : Graph τ) (a b : Nat) : Prop := Relation.EqvGen g.Joins a b

/-- Positive numbers of firings for the actors of a part that balance its edges. -/
structure IsSolutionOn (g : Graph τ) (part : Nat → Prop) (firings : Nat → Nat) : Prop where
  pos : ∀ a, part a → 0 < firings a
  balances : ∀ e ∈ g.edges, part e.source → e.Balances firings

/-- Both rates of every edge are positive. -/
def RatesPositive (g : Graph τ) : Prop := ∀ e ∈ g.edges, 0 < e.production ∧ 0 < e.consumption

lemma Linked.refl (a : Nat) : g.Linked a a := Relation.EqvGen.refl a

lemma Linked.symm (h : g.Linked a b) : g.Linked b a := Relation.EqvGen.symm _ _ h

lemma Linked.trans {c : Nat} (h : g.Linked a b) (h' : g.Linked b c) : g.Linked a c :=
  Relation.EqvGen.trans _ _ _ h h'

lemma linked_of_edge {e : Edge} (he : e ∈ g.edges) : g.Linked e.source e.target :=
  .rel _ _ ⟨e, he, rfl, rfl⟩

lemma linked_iff_of_edge {e : Edge} (he : e ∈ g.edges) :
    g.Linked a e.source ↔ g.Linked a e.target :=
  ⟨fun h => h.trans (linked_of_edge he), fun h => h.trans (linked_of_edge he).symm⟩

lemma Linked.part_eq (h : g.Linked a b) : g.Linked a = g.Linked b :=
  funext fun _ => propext ⟨h.symm.trans, h.trans⟩

/-- A property that no edge leaves or enters holds for all actors of a part or for none. -/
lemma Linked.iff {P : Nat → Prop} (hP : ∀ e ∈ g.edges, P e.source ↔ P e.target)
    (h : g.Linked a b) : P a ↔ P b := by
  induction h with
  | rel a b hjoins =>
    obtain ⟨e, he, rfl, rfl⟩ := hjoins
    exact hP e he
  | refl a => exact Iff.rfl
  | symm a b _ ih => exact ih.symm
  | trans a b c _ _ ihab ihbc => exact ihab.trans ihbc

lemma Linked.lt_size (h : g.Linked a b) (ha : a < g.actors.size) : b < g.actors.size := by
  refine (Linked.iff (P := (· < g.actors.size)) ?_ h).1 ha
  exact fun e he => iff_of_true (g.closed e he).1 (g.closed e he).2

lemma IsSolutionOn.mono {part part' : Nat → Prop} {M : Nat → Nat} (hM : g.IsSolutionOn part M)
    (h : ∀ a, part' a → part a) : g.IsSolutionOn part' M :=
  ⟨fun a ha => hM.pos a (h a ha), fun e he hsource => hM.balances e he (h _ hsource)⟩

/-- The least positive numbers of firings that balance a part. -/
structure IsLeastOn (g : Graph τ) (part : Nat → Prop) (firings : Nat → Nat) : Prop
    extends g.IsSolutionOn part firings where
  least : ∀ M, g.IsSolutionOn part M → ∀ a, part a → firings a ≤ M a

/-- Only the firings of the part matter. -/
lemma IsLeastOn.congr {part : Nat → Prop} {N N' : Nat → Nat} (hN : g.IsLeastOn part N)
    (hclosed : ∀ e ∈ g.edges, part e.source → part e.target) (h : ∀ a, part a → N' a = N a) :
    g.IsLeastOn part N' where
  pos a ha := by
    rw [h a ha]
    exact hN.pos a ha
  balances e he hsource := by
    rw [Edge.Balances, h _ hsource, h _ (hclosed e he hsource)]
    exact hN.balances e he hsource
  least M hM a ha := by
    rw [h a ha]
    exact hN.least M hM a ha

lemma IsLeastOn.unique {part : Nat → Prop} {N N' : Nat → Nat} (hN : g.IsLeastOn part N)
    (hN' : g.IsLeastOn part N') (ha : part a) : N' a = N a :=
  Nat.le_antisymm (hN'.least N hN.toIsSolutionOn a ha) (hN.least N' hN'.toIsSolutionOn a ha)

/-- An actor without edges fires once. -/
lemma IsLeastOn.eq_one {N : Nat → Nat} (hN : g.IsLeastOn (g.Linked a) N)
    (ha : ∀ e ∈ g.edges, e.source ≠ a ∧ e.target ≠ a) : N a = 1 := by
  have hends : ∀ e ∈ g.edges, e.source = a ↔ e.target = a :=
    fun e he => iff_of_false (ha e he).1 (ha e he).2
  have hones : g.IsSolutionOn (g.Linked a) fun _ => 1 := by
    refine ⟨fun _ _ => Nat.one_pos, fun e he hsource => ?_⟩
    have hself : a = a ↔ e.source = a := Linked.iff (P := (· = a)) hends hsource
    exact absurd (hself.1 rfl) (ha e he).1
  exact Nat.le_antisymm (hN.least _ hones a (.refl a)) (hN.pos a (.refl a))

/-! ## There is a least solution -/

section Least

variable {M N : Nat → Nat} {root : Nat}

/-- Two solutions of a part stand in one ratio. -/
lemma IsSolutionOn.mul_eq (hM : g.IsSolutionOn (g.Linked root) M)
    (hN : g.IsSolutionOn (g.Linked root) N) (hrates : g.RatesPositive) (ha : g.Linked root a) :
    M a * N root = N a * M root := by
  have hedge : ∀ e ∈ g.edges, (g.Linked root e.source → M e.source * N root = N e.source * M root) ↔
      (g.Linked root e.target → M e.target * N root = N e.target * M root) := by
    intro e he
    rw [linked_iff_of_edge he]
    refine imp_congr_right fun htarget => ?_
    have hsource := (linked_iff_of_edge he).2 htarget
    obtain ⟨hp, hc⟩ := hrates e he
    have hbalancesM : e.production * M e.source = e.consumption * M e.target :=
      hM.balances e he hsource
    have hbalancesN : e.production * N e.source = e.consumption * N e.target :=
      hN.balances e he hsource
    rw [← Nat.mul_right_inj hp.ne', ← Nat.mul_assoc, ← Nat.mul_assoc, hbalancesM, hbalancesN,
      Nat.mul_assoc, Nat.mul_assoc, Nat.mul_right_inj hc.ne']
  refine (Linked.iff (P := fun a => g.Linked root a → M a * N root = N a * M root) hedge ha).1 ?_ ha
  exact fun _ => Nat.mul_comm _ _

/-- Where a part has a solution, the one with the fewest firings of an actor is the least. -/
lemma IsSolutionOn.exists_least (hM : g.IsSolutionOn (g.Linked root) M)
    (hrates : g.RatesPositive) : ∃ N, g.IsLeastOn (g.Linked root) N := by
  classical
  have hsome : ∃ n N, g.IsSolutionOn (g.Linked root) N ∧ N root = n := ⟨M root, M, hM, rfl⟩
  obtain ⟨N, hN, hroot⟩ := Nat.find_spec hsome
  refine ⟨N, hN, fun M' hM' a ha => ?_⟩
  have hfewest : N root ≤ M' root := hroot ▸ Nat.find_min' hsome ⟨M', hM', rfl⟩
  refine Nat.le_of_mul_le_mul_right ?_ (hM'.pos root (.refl root))
  calc N a * M' root = M' a * N root := hN.mul_eq hM' hrates ha
    _ ≤ M' a * M' root := Nat.mul_le_mul_left _ hfewest

/-- Where the balance equations have a solution, all parts have a least one. -/
theorem exists_isLeastOn (hM : g.IsSolutionOn (· < g.actors.size) M) (hrates : g.RatesPositive) :
    ∃ N, ∀ root < g.actors.size, g.IsLeastOn (g.Linked root) N := by
  have hparts : ∀ root : Fin g.actors.size, ∃ N, g.IsLeastOn (g.Linked root) N :=
    fun root => (hM.mono fun _ ha => ha.lt_size root.isLt).exists_least hrates
  choose N hN using hparts
  refine ⟨fun a => if ha : a < g.actors.size then N ⟨a, ha⟩ a else 0, fun root hroot => ?_⟩
  refine (hN ⟨root, hroot⟩).congr (fun e he => (linked_iff_of_edge he).1) fun a ha => ?_
  have hbound := ha.lt_size hroot
  have hleast : g.IsLeastOn (g.Linked root) (N ⟨a, hbound⟩) := ha.part_eq ▸ hN ⟨a, hbound⟩
  rw [dif_pos hbound, (hN ⟨root, hroot⟩).unique hleast ha]

end Least

end Graph

end Dataflow

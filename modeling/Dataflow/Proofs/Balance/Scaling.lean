import Dataflow.Proofs.Balance.Exploration
import Dataflow.Proofs.Counter
import Mathlib.Algebra.Order.Field.Basic
import Mathlib.Tactic.Ring

/-!
# The least numbers of firings of a part

The ratios of a part are scaled to whole numbers of firings.  In a solution the firings of the root
are a multiple of every denominator, and so of the least common multiple of all of them; hence no
solution has fewer firings than the scaled ratios.

* `Balance.scaled_eq_ok` — the numbers that the scaling computes.
* `Balance.Scales` — whole numbers that stand in given ratios and are the least such numbers.
* **`Balance.IsPart.isLeastOn`** — the scaled ratios of a part are its least solution.
-/

namespace Dataflow.Balance

variable {τ : Type} {g : Graph τ} {a root : Nat} {r : Ratio}

/-! ## What the scaling computes -/

lemma foldl_gcd_dvd : ∀ (counts : List (Nat × Nat)) (d : Nat),
    counts.foldl (fun d (_, n) => n.gcd d) d ∣ d ∧
      ∀ c ∈ counts, counts.foldl (fun d (_, n) => n.gcd d) d ∣ c.2
  | [], d => by simp
  | c :: counts, d => by
      obtain ⟨hfirst, hrest⟩ := foldl_gcd_dvd counts (c.2.gcd d)
      rw [List.foldl_cons, List.forall_mem_cons]
      exact ⟨hfirst.trans (Nat.gcd_dvd_right _ _), hfirst.trans (Nat.gcd_dvd_left _ _), hrest⟩

/-- The scaling multiplies every ratio with the least common multiple of the denominators, and
divides by a common divisor. -/
lemma scaled_eq_ok {found : List (Nat × Ratio)} {part : List (Nat × Nat)}
    (h : scaled found = .ok part) :
    ∃ unit common, Counter.lcmAll (found.map fun (_, r) => r.den) = .ok unit ∧
      part = found.map (fun (a, r) => (a, r.num * (unit / r.den) / common)) ∧
      ∀ a r, (a, r) ∈ found → common ∣ r.num * (unit / r.den) := by
  simp only [scaled, bind_eq_ok, pure_eq_ok, mapM_eq_ok] at h
  obtain ⟨unit, hunit, counts, hcounts, rfl⟩ := h
  obtain rfl : found.map (fun (a, r) => (a, r.num * (unit / r.den))) = counts := by
    rw [← List.forall₂_eq_eq_eq, List.forall₂_map_left_iff]
    refine hcounts.imp fun entry count hcount => ?_
    simp only [map_eq_ok, Counter.mul_eq_ok_iff] at hcount
    obtain ⟨_, ⟨_, rfl⟩, rfl⟩ := hcount
    rfl
  refine ⟨unit, _, hunit, List.map_map, fun a r hmem => ?_⟩
  exact (foldl_gcd_dvd _ 0).2 _ (List.mem_map.2 ⟨(a, r), hmem, rfl⟩)

lemma map_fst_of_scaled {found : List (Nat × Ratio)} {part : List (Nat × Nat)}
    (h : scaled found = .ok part) : part.map Prod.fst = found.map Prod.fst := by
  obtain ⟨unit, common, _, rfl, _⟩ := scaled_eq_ok h
  simp

/-! ## Whole numbers in given ratios -/

/-- The whole numbers of a part stand in the ratios that were found, by a factor `q` for which no
smaller whole number clears all denominators. -/
structure Scales (found : List (Nat × Ratio)) (part : List (Nat × Nat)) (q : ℚ) : Prop where
  pos : 0 < q
  exists_ratio : ∀ a n, (a, n) ∈ part → ∃ r, (a, r) ∈ found ∧ (n : ℚ) = q * r.value
  le : ∀ m : Nat, 0 < m → (∀ a r, (a, r) ∈ found → r.den ∣ m) → q ≤ m

lemma exists_scales {found : List (Nat × Ratio)} {part : List (Nat × Nat)}
    (hlowest : ∀ a r, (a, r) ∈ found → r.InLowestTerms) (hne : found ≠ [])
    (h : scaled found = .ok part) : ∃ q, Scales found part q := by
  obtain ⟨unit, common, hunit, rfl, hcommon⟩ := scaled_eq_ok h
  have hdvd : ∀ a r, (a, r) ∈ found → r.den ∣ unit := fun a r hmem =>
    Counter.dvd_lcmAll hunit (List.mem_map.2 ⟨(a, r), hmem, rfl⟩)
  have hunitpos : 0 < unit := by
    refine Counter.lcmAll_pos hunit fun v hv => ?_
    obtain ⟨⟨a, r⟩, hmem, rfl⟩ := List.mem_map.1 hv
    exact (hlowest a r hmem).den_pos
  have hcommonpos : 0 < common := by
    obtain ⟨⟨a, r⟩, hmem⟩ := List.exists_mem_of_ne_nil found hne
    refine Nat.pos_of_dvd_of_pos (hcommon a r hmem) (Nat.mul_pos (hlowest a r hmem).num_pos ?_)
    exact Nat.div_pos (Nat.le_of_dvd hunitpos (hdvd a r hmem)) (hlowest a r hmem).den_pos
  have hone : (1 : ℚ) ≤ common := by exact_mod_cast hcommonpos
  refine ⟨unit / common, ?_, ?_, ?_⟩
  · exact div_pos (Nat.cast_pos.2 hunitpos) (Nat.cast_pos.2 hcommonpos)
  · intro a n hmem
    obtain ⟨⟨b, r⟩, hr, hbn⟩ := List.mem_map.1 hmem
    obtain ⟨rfl, rfl⟩ := Prod.mk.inj hbn
    refine ⟨r, hr, ?_⟩
    rw [Nat.cast_div_charZero (hcommon b r hr), Nat.cast_mul,
      Nat.cast_div_charZero (hdvd b r hr), Ratio.value]
    ring
  · intro m hm hmul
    have hle : unit ≤ m := by
      refine Nat.le_of_dvd hm ((Counter.lcmAll_dvd_iff hunit m).2 fun v hv => ?_)
      obtain ⟨⟨a, r⟩, hmem, rfl⟩ := List.mem_map.1 hv
      exact hmul a r hmem
    calc (unit : ℚ) / common ≤ unit := div_le_self (Nat.cast_nonneg unit) hone
      _ ≤ m := by exact_mod_cast hle

/-- **The scaled ratios of a part are its least solution.** -/
theorem IsPart.isLeastOn {before : Nat → Option Ratio} {x : Exploration}
    {part : List (Nat × Nat)} {N : Nat → Nat} (hx : IsPart g root before x)
    (h : scaled x.found.toList = .ok part) (hN : ∀ a n, (a, n) ∈ part → N a = n) :
    g.IsLeastOn (g.Linked root) N := by
  have hne : x.found.toList ≠ [] := List.ne_nil_of_mem (Array.mem_toList_iff.2 hx.root_mem)
  have hlowest : ∀ a r, (a, r) ∈ x.found.toList → r.InLowestTerms :=
    fun a r hr => hx.inLowestTerms a r (Array.mem_toList_iff.1 hr)
  obtain ⟨q, hq⟩ := exists_scales hlowest hne h
  have hvalue : ∀ a, g.Linked root a → ∃ r, (a, r) ∈ x.found ∧ (N a : ℚ) = q * r.value := by
    intro a ha
    obtain ⟨r, hr⟩ := hx.exists_mem a ha
    have hkey : a ∈ part.map Prod.fst := by
      rw [map_fst_of_scaled h]
      exact List.mem_map.2 ⟨(a, r), Array.mem_toList_iff.2 hr, rfl⟩
    obtain ⟨⟨a, n⟩, hmem, rfl⟩ := List.mem_map.1 hkey
    obtain ⟨s, hs, hn⟩ := hq.exists_ratio a n hmem
    exact ⟨s, Array.mem_toList_iff.1 hs, by rw [hN a n hmem, hn]⟩
  refine ⟨⟨fun a ha => ?_, fun e he hsource => ?_⟩, fun M hM a ha => ?_⟩
  · obtain ⟨r, hr, hn⟩ := hvalue a ha
    have hpos : (0 : ℚ) < N a := hn ▸ mul_pos hq.pos (hx.inLowestTerms a r hr).value_pos
    exact_mod_cast hpos
  · obtain ⟨r, hr, hsourceN⟩ := hvalue _ hsource
    obtain ⟨s, hs, htargetN⟩ := hvalue _ (hsource.trans (Graph.linked_of_edge he))
    have hbalances : (e.production * N e.source : ℚ) = e.consumption * N e.target := by
      rw [hsourceN, htargetN, mul_left_comm, hx.balances e he r s hr hs, mul_left_comm]
    exact_mod_cast hbalances
  · obtain ⟨r, hr, hn⟩ := hvalue a ha
    have hdens : ∀ b s, (b, s) ∈ x.found.toList → s.den ∣ M root := by
      intro b s hs
      have hs := Array.mem_toList_iff.1 hs
      exact (hx.inLowestTerms b s hs).den_dvd (hx.firings_eq M hM b s hs)
    have hle : q ≤ M root := hq.le (M root) (hM.pos root (.refl root)) hdens
    have hcounts : (N a : ℚ) ≤ M a := by
      rw [hn, hx.firings_eq M hM a r hr]
      exact mul_le_mul_of_nonneg_right hle (hx.inLowestTerms a r hr).value_pos.le
    exact_mod_cast hcounts

end Dataflow.Balance

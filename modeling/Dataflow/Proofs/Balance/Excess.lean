import Dataflow.Proofs.Balance.Ratio
import Mathlib.Data.Nat.GCD.Basic

/-!
# What scaling does not cancel

A ratio is scaled by two rates.  Each rate is first freed of the factors that it shares with the
opposite number of the ratio, then the products are formed, and only then is the rest cancelled.
This rest, the *excess*, is what the two rates have in common themselves; both products are larger
than the lowest terms by it.

* `Ratio.ofCounts` — the ratio of two numbers of firings.
* `Ratio.excess` — the common factor that is left when the products are formed.
* **`Ratio.exists_scale_iff`** — the scaling is refused exactly if the excess takes one of the lowest
  terms out of the range.
-/

namespace Dataflow.Ratio

variable {r s : Ratio} {a b mul div : Nat}

/-- The ratio of two numbers of firings. -/
def ofCounts (a b : Nat) : Ratio := ⟨a / a.gcd b, b / a.gcd b⟩

lemma inLowestTerms_ofCounts (ha : 0 < a) (hb : 0 < b) : (ofCounts a b).InLowestTerms where
  num_pos := Nat.div_pos (Nat.gcd_le_left _ ha) (Nat.gcd_pos_of_pos_left _ ha)
  den_pos := Nat.div_pos (Nat.gcd_le_right _ hb) (Nat.gcd_pos_of_pos_left _ ha)
  coprime := Nat.coprime_div_gcd_div_gcd (Nat.gcd_pos_of_pos_left _ ha)

lemma value_ofCounts (ha : 0 < a) : (ofCounts a b).value = a / b :=
  value_div (Nat.gcd_dvd_left a b) (Nat.gcd_dvd_right a b) (Nat.gcd_pos_of_pos_left b ha)

/-- In lowest terms, the ratio of two numbers of firings is the one that is computed from them. -/
lemma InLowestTerms.eq_ofCounts (hr : r.InLowestTerms) (ha : 0 < a) (hb : 0 < b)
    (h : (a : ℚ) = b * r.value) : r = ofCounts a b := by
  have hne : (b : ℚ) ≠ 0 := Nat.cast_ne_zero.2 hb.ne'
  refine hr.eq_of_value_eq (inLowestTerms_ofCounts ha hb) ?_
  rw [value_ofCounts ha, h, mul_div_cancel_left₀ _ hne]

/-- What two rates still have in common when each is freed of the factors that it shares with the
opposite number of a ratio. -/
def excess (r : Ratio) (mul div : Nat) : Nat := (mul / mul.gcd r.den).gcd (div / r.num.gcd div)

lemma excess_dvd_gcd (r : Ratio) (mul div : Nat) : r.excess mul div ∣ mul.gcd div := by
  refine Nat.dvd_gcd ?_ ?_
  · exact (Nat.gcd_dvd_left _ _).trans (Nat.div_dvd_of_dvd (Nat.gcd_dvd_left _ _))
  · exact (Nat.gcd_dvd_right _ _).trans (Nat.div_dvd_of_dvd (Nat.gcd_dvd_right _ _))

/-- Two products have in common what their second factors have, if no other pair of factors has
anything in common. -/
lemma gcd_mul_mul {num den : Nat} (hterms : num.Coprime den) (hnum : num.Coprime div)
    (hden : den.Coprime mul) : (num * mul).gcd (den * div) = mul.gcd div :=
  calc (num * mul).gcd (den * div)
      = mul.gcd (den * div) := (hterms.mul_right hnum).gcd_mul_left_cancel mul
    _ = mul.gcd div := hden.gcd_mul_left_cancel_right div

/-- Two numbers are the lowest terms of their ratio times what they have in common. -/
lemma InLowestTerms.eq_gcd_mul (hs : s.InLowestTerms) (ha : 0 < a) (hb : 0 < b)
    (h : (a : ℚ) / b = s.value) : a = a.gcd b * s.num ∧ b = a.gcd b * s.den := by
  have hne : (b : ℚ) ≠ 0 := Nat.cast_ne_zero.2 hb.ne'
  obtain rfl := hs.eq_ofCounts ha hb (by rw [← h, mul_div_cancel₀ _ hne])
  exact ⟨(Nat.mul_div_cancel' (Nat.gcd_dvd_left a b)).symm,
    (Nat.mul_div_cancel' (Nat.gcd_dvd_right a b)).symm⟩

/-- The two products that scaling forms are the lowest terms times the excess. -/
lemma products_eq (hr : r.InLowestTerms) (hs : s.InLowestTerms) (hmul : 0 < mul) (hdiv : 0 < div)
    (hvalue : s.value = r.value * mul / div) :
    r.num / r.num.gcd div * (mul / mul.gcd r.den) = r.excess mul div * s.num ∧
      r.den / mul.gcd r.den * (div / r.num.gcd div) = r.excess mul div * s.den := by
  have hacross := Nat.gcd_pos_of_pos_left div hr.num_pos
  have hagainst := Nat.gcd_pos_of_pos_left r.den hmul
  have hterms : (r.num / r.num.gcd div).Coprime (r.den / mul.gcd r.den) :=
    (hr.coprime.coprime_dvd_left (Nat.div_dvd_of_dvd (Nat.gcd_dvd_left _ _))).coprime_dvd_right
      (Nat.div_dvd_of_dvd (Nat.gcd_dvd_right _ _))
  have hgcd := gcd_mul_mul hterms (Nat.coprime_div_gcd_div_gcd hacross)
    (Nat.coprime_div_gcd_div_gcd hagainst).symm
  rw [excess, ← hgcd]
  refine hs.eq_gcd_mul (Nat.mul_pos ?_ ?_) (Nat.mul_pos ?_ ?_) ?_
  · exact Nat.div_pos (Nat.gcd_le_left _ hr.num_pos) hacross
  · exact Nat.div_pos (Nat.gcd_le_left _ hmul) hagainst
  · exact Nat.div_pos (Nat.gcd_le_right _ hr.den_pos) hagainst
  · exact Nat.div_pos (Nat.gcd_le_right _ hdiv) hacross
  · rw [div_products hr hmul, hvalue]

/-- Scaling is refused exactly if the excess takes one of the lowest terms out of the range. -/
theorem exists_scale_iff (hr : r.InLowestTerms) (hs : s.InLowestTerms) (hmul : 0 < mul)
    (hdiv : 0 < div) (hvalue : s.value = r.value * mul / div) :
    (∃ t, r.scale mul div = .ok t) ↔
      r.excess mul div * s.num < Counter.bound ∧ r.excess mul div * s.den < Counter.bound := by
  obtain ⟨hnum, hden⟩ := products_eq hr hs hmul hdiv hvalue
  simp only [scale, bind_eq_ok, pure_eq_ok, Counter.mul_eq_ok_iff, hnum, hden]
  constructor
  · rintro ⟨_, _, ⟨hnum, _⟩, _, ⟨hden, _⟩, _⟩
    exact ⟨hnum, hden⟩
  · rintro ⟨hnum, hden⟩
    exact ⟨_, _, ⟨hnum, rfl⟩, _, ⟨hden, rfl⟩, rfl⟩

end Dataflow.Ratio

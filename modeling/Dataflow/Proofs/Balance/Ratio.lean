import Dataflow.Balance.Ratio
import Dataflow.Proofs.Attempt
import Mathlib.Algebra.Order.Field.Rat
import Mathlib.Data.Nat.Cast.Field
import Mathlib.Data.Rat.Lemmas
import Mathlib.Tactic.FieldSimp

/-!
# The value of a firing ratio

A firing ratio stands for a rational number, and in lowest terms there is only one ratio for each.
So ratios can be compared by their two numbers, which is what the search for contradicting edges
does.

* `Ratio.value`, `Ratio.InLowestTerms` — the number, and the form that makes it unique.
* **`Ratio.scale_eq_ok`** — scaling multiplies the value and stays in lowest terms.
-/

namespace Dataflow.Ratio

/-- The number that a ratio stands for. -/
def value (r : Ratio) : ℚ := r.num / r.den

/-- Is the ratio positive and without common factors? -/
structure InLowestTerms (r : Ratio) : Prop where
  num_pos : 0 < r.num
  den_pos : 0 < r.den
  coprime : r.num.Coprime r.den

variable {r s : Ratio}

@[simp] lemma value_one : one.value = 1 := by
  simp [value, one]

lemma inLowestTerms_one : one.InLowestTerms := ⟨Nat.one_pos, Nat.one_pos, Nat.coprime_one_left 1⟩

lemma InLowestTerms.value_pos (hr : r.InLowestTerms) : 0 < r.value :=
  div_pos (Nat.cast_pos.2 hr.num_pos) (Nat.cast_pos.2 hr.den_pos)

/-- In lowest terms there is only one ratio for each number. -/
lemma InLowestTerms.eq_of_value_eq (hr : r.InLowestTerms) (hs : s.InLowestTerms)
    (h : r.value = s.value) : r = s := by
  have hratios : ((r.num : ℤ) : ℚ) / (r.den : ℤ) = ((s.num : ℤ) : ℚ) / (s.den : ℤ) := by
    simpa [value] using h
  obtain ⟨hnum, hden⟩ := Rat.div_int_inj (Int.natCast_pos.2 hr.den_pos)
    (Int.natCast_pos.2 hs.den_pos) (by simpa using hr.coprime) (by simpa using hs.coprime) hratios
  cases r
  cases s
  exact congrArg₂ Ratio.mk (Int.ofNat_inj.1 hnum) (Int.ofNat_inj.1 hden)

/-- Where a whole number of firings times the ratio is whole again, the denominator divides it. -/
lemma InLowestTerms.den_dvd (hr : r.InLowestTerms) {m n : Nat} (h : (n : ℚ) = m * r.value) :
    r.den ∣ m := by
  have hden : (r.den : ℚ) ≠ 0 := Nat.cast_ne_zero.2 hr.den_pos.ne'
  have hcross : n * r.den = m * r.num := by
    rw [value, mul_div_assoc', eq_div_iff hden] at h
    exact_mod_cast h
  exact hr.coprime.symm.dvd_of_dvd_mul_right ⟨n, by rw [← hcross, Nat.mul_comm]⟩

/-- Common factors that are divided out do not change the value. -/
lemma value_div {a b k : Nat} (ha : k ∣ a) (hb : k ∣ b) (hk : 0 < k) :
    value ⟨a / k, b / k⟩ = a / b := by
  rw [value, Nat.cast_div_charZero ha, Nat.cast_div_charZero hb,
    div_div_div_cancel_right₀ (Nat.cast_ne_zero.2 hk.ne')]

/-- The two products that scaling forms stand in the scaled ratio. -/
lemma div_products {mul div : Nat} (hr : r.InLowestTerms) (hmul : 0 < mul) :
    ((r.num / r.num.gcd div * (mul / mul.gcd r.den) : ℕ) : ℚ) /
        (r.den / mul.gcd r.den * (div / r.num.gcd div) : ℕ) = r.value * mul / div := by
  have hacross : ((r.num.gcd div : ℕ) : ℚ) ≠ 0 :=
    Nat.cast_ne_zero.2 (Nat.gcd_pos_of_pos_left div hr.num_pos).ne'
  have hagainst : ((mul.gcd r.den : ℕ) : ℚ) ≠ 0 :=
    Nat.cast_ne_zero.2 (Nat.gcd_pos_of_pos_left r.den hmul).ne'
  rw [value, Nat.cast_mul, Nat.cast_mul, Nat.cast_div_charZero (Nat.gcd_dvd_left r.num div),
    Nat.cast_div_charZero (Nat.gcd_dvd_left mul r.den),
    Nat.cast_div_charZero (Nat.gcd_dvd_right mul r.den),
    Nat.cast_div_charZero (Nat.gcd_dvd_right r.num div)]
  field_simp

/-- Scaling multiplies the value, and the result is in lowest terms. -/
theorem scale_eq_ok {mul div : Nat} (hr : r.InLowestTerms) (hmul : 0 < mul) (hdiv : 0 < div)
    (h : r.scale mul div = .ok s) : s.InLowestTerms ∧ s.value = r.value * mul / div := by
  have hacross := Nat.gcd_pos_of_pos_left div hr.num_pos
  have hagainst := Nat.gcd_pos_of_pos_left r.den hmul
  simp only [scale, bind_eq_ok, pure_eq_ok, Counter.mul_eq_ok_iff] at h
  obtain ⟨num, ⟨_, hnum⟩, den, ⟨_, hden⟩, rfl⟩ := h
  have hnumpos : 0 < num := by
    rw [hnum]
    exact Nat.mul_pos (Nat.div_pos (Nat.gcd_le_left _ hr.num_pos) hacross)
      (Nat.div_pos (Nat.gcd_le_left _ hmul) hagainst)
  have hdenpos : 0 < den := by
    rw [hden]
    exact Nat.mul_pos (Nat.div_pos (Nat.gcd_le_right _ hr.den_pos) hagainst)
      (Nat.div_pos (Nat.gcd_le_right _ hdiv) hacross)
  have hcommon := Nat.gcd_pos_of_pos_left den hnumpos
  refine ⟨⟨?_, ?_, Nat.coprime_div_gcd_div_gcd hcommon⟩, ?_⟩
  · exact Nat.div_pos (Nat.gcd_le_left _ hnumpos) hcommon
  · exact Nat.div_pos (Nat.gcd_le_right _ hdenpos) hcommon
  · rw [value_div (Nat.gcd_dvd_left _ _) (Nat.gcd_dvd_right _ _) hcommon, hnum, hden,
      div_products hr hmul]

end Dataflow.Ratio

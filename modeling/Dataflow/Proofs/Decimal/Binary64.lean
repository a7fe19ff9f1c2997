import Dataflow.Counter
import Dataflow.Decimal.Binary64
import Mathlib.Algebra.Order.Field.Power
import Mathlib.Tactic.LinearCombination
import Mathlib.Tactic.Linarith
import Mathlib.Tactic.Positivity
import Mathlib.Tactic.Ring

/-!
# Counters as doubles

A counter has up to sixty-four binary digits and a double holds fifty-three of them.  A counter that
is turned into a double is scaled to a fraction between `2 ^ 52` and `2 ^ 53` units and rounded
there, so that the double is off by half a unit at most.

* `Binary64.value?` — the number that a finite word stands for.
* `Binary64.Approximates` — a word stands for a natural up to one part in `2 ^ 53`.
* `Binary64.roundHalfEven_bounds` — rounding moves a quotient by a half at most.
* `Binary64.significand_bounds`, `Binary64.significand_error` — the significand of a counter has its
  digits and is off by half a unit at most.
* `Binary64.value?_decode` — a rounded significand gives the right word also where it carries into
  the exponent.
* **`Binary64.nearest_approximates`** — the word for a counter approximates it.
-/

namespace Dataflow.Binary64

/-- The number that a finite word stands for. -/
def value? : Binary64 → Option ℚ
  | .finite negative significand exponent =>
    some ((if negative then -1 else 1) * significand * 2 ^ exponent)
  | .infinite _ | .nan => none

/-- What a word stands for differs from a natural by one part in `2 ^ 53` at most. -/
def Approximates (bits n : Nat) : Prop :=
  ∃ x : ℚ, (decode bits).value? = some x ∧ |x - n| * 2 ^ 53 ≤ n

lemma fractions_eq : fractions = 4503599627370496 := by decide

/-! ## Rounding -/

lemma roundHalfEven_bounds (num : Nat) {den : Nat} (hden : 0 < den) :
    2 * num ≤ 2 * (den * roundHalfEven num den) + den ∧
      2 * (den * roundHalfEven num den) ≤ 2 * num + den := by
  have hsplit := Nat.div_add_mod num den
  have hmod := Nat.mod_lt num hden
  have hsucc : den * (num / den + 1) = den * (num / den) + den := Nat.mul_succ den (num / den)
  simp only [roundHalfEven]
  split_ifs <;> constructor <;> omega

lemma abs_roundHalfEven_le (num : Nat) {den : Nat} (hden : 0 < den) :
    |2 * ((den : ℚ) * roundHalfEven num den) - 2 * num| ≤ den := by
  obtain ⟨hbelow, habove⟩ := roundHalfEven_bounds num hden
  have hbelow : (2 : ℚ) * num ≤ 2 * (den * roundHalfEven num den) + den := by exact_mod_cast hbelow
  have habove : (2 : ℚ) * (den * roundHalfEven num den) ≤ 2 * num + den := by exact_mod_cast habove
  exact abs_le.2 ⟨by linarith, by linarith⟩

/-- The quotient is rounded within the naturals that it is between. -/
lemma le_roundHalfEven_le {num den low high : Nat} (hden : 0 < den) (hlow : low * den ≤ num)
    (hhigh : num < high * den) : low ≤ roundHalfEven num den ∧ roundHalfEven num den ≤ high := by
  have hfloor := (Nat.le_div_iff_mul_le hden).2 hlow
  have hceil := (Nat.div_lt_iff_lt_mul hden).2 hhigh
  simp only [roundHalfEven]
  split_ifs <;> constructor <;> omega

/-! ## Units -/

lemma snd_inUnits_pos (num : Nat) {den : Nat} (hden : 0 < den) (exponent : Int) :
    0 < (inUnits num den exponent).2 := by
  rw [inUnits]
  split_ifs
  · exact Nat.shiftLeft_pos_iff.2 hden
  · exact hden

/-- A fraction in other units is the same number. -/
lemma inUnits_eq (num den : Nat) (exponent : Int) :
    ((inUnits num den exponent).1 : ℚ) * den * 2 ^ exponent =
      num * (inUnits num den exponent).2 := by
  rw [inUnits]
  split_ifs with h
  · obtain ⟨k, rfl⟩ := Int.eq_ofNat_of_zero_le h
    simp [Nat.shiftLeft_eq, mul_assoc]
  · obtain ⟨k, hk⟩ := Int.eq_ofNat_of_zero_le (a := -exponent) (by omega)
    obtain rfl : exponent = -(k : Int) := by omega
    have hpow : (2 : ℚ) ^ k ≠ 0 := by positivity
    simp only [neg_neg, Int.toNat_natCast, Nat.shiftLeft_eq, Nat.cast_mul, Nat.cast_pow,
      Nat.cast_ofNat, zpow_neg, zpow_natCast]
    rw [mul_right_comm, mul_inv_cancel_right₀ hpow]

/-! ## Counters in their units -/

section Counters

variable {n : Nat}

/-- The exponent of the unit for a positive natural. -/
def counterExponent (n : Nat) : Int := (n.log2 : Int) - 52

/-- A positive natural in its unit. -/
def counterUnits (n : Nat) : Nat × Nat := inUnits n 1 (counterExponent n)

/-- A positive natural in its unit, rounded. -/
def significand (n : Nat) : Nat := roundHalfEven (counterUnits n).1 (counterUnits n).2

lemma snd_counterUnits_pos (n : Nat) : 0 < (counterUnits n).2 :=
  snd_inUnits_pos n Nat.one_pos (counterExponent n)

lemma counterUnits_eq (n : Nat) :
    ((counterUnits n).1 : ℚ) * 2 ^ counterExponent n = n * (counterUnits n).2 := by
  simpa [counterUnits] using inUnits_eq n 1 (counterExponent n)

lemma two_pow_log2 (n : Nat) : (2 : ℚ) ^ n.log2 = fractions * 2 ^ counterExponent n := by
  have hfractions : (fractions : ℚ) = 2 ^ (52 : Int) := by norm_num [fractions, Nat.shiftLeft_eq]
  rw [hfractions, ← zpow_add₀ two_ne_zero, counterExponent, add_sub_cancel, zpow_natCast]

/-- A positive natural has fifty-three digits in its unit. -/
lemma counterUnits_bounds (hn : 0 < n) :
    fractions * (counterUnits n).2 ≤ (counterUnits n).1 ∧
      (counterUnits n).1 < 2 * fractions * (counterUnits n).2 := by
  have heq := counterUnits_eq n
  have hden : (0 : ℚ) < (counterUnits n).2 := Nat.cast_pos.2 (snd_counterUnits_pos n)
  generalize counterUnits n = u at heq hden ⊢
  have hpos : (0 : ℚ) < 2 ^ counterExponent n := by positivity
  have hlow : (2 : ℚ) ^ n.log2 ≤ n := by exact_mod_cast Nat.log2_self_le hn.ne'
  have hhigh : (n : ℚ) < 2 * 2 ^ n.log2 := by
    rw [← pow_succ']
    exact_mod_cast Nat.lt_log2_self
  rw [two_pow_log2] at hlow hhigh
  constructor
  · have : (fractions : ℚ) * u.2 * 2 ^ counterExponent n ≤ u.1 * 2 ^ counterExponent n := by
      rw [heq, mul_right_comm]
      exact mul_le_mul_of_nonneg_right hlow hden.le
    exact_mod_cast le_of_mul_le_mul_right this hpos
  · have : (u.1 : ℚ) * 2 ^ counterExponent n < 2 * fractions * u.2 * 2 ^ counterExponent n := by
      rw [heq, mul_right_comm, mul_assoc 2]
      exact mul_lt_mul_of_pos_right hhigh hden
    exact_mod_cast lt_of_mul_lt_mul_right this hpos.le

lemma significand_bounds (hn : 0 < n) : fractions ≤ significand n ∧ significand n ≤ 2 * fractions :=
  le_roundHalfEven_le (snd_counterUnits_pos n) (counterUnits_bounds hn).1 (counterUnits_bounds hn).2

/-- The rounded significand is off by half a unit at most. -/
lemma significand_error (n : Nat) :
    2 * |(significand n : ℚ) * 2 ^ counterExponent n - n| ≤ 2 ^ counterExponent n := by
  have heq := counterUnits_eq n
  have hden : (0 : ℚ) < (counterUnits n).2 := Nat.cast_pos.2 (snd_counterUnits_pos n)
  have herror := abs_roundHalfEven_le (counterUnits n).1 (snd_counterUnits_pos n)
  rw [← significand] at herror
  generalize counterUnits n = u at heq hden herror
  have hpos : (0 : ℚ) < 2 ^ counterExponent n := by positivity
  have hscaled : 2 * (significand n * 2 ^ counterExponent n - n) * u.2 =
      (2 * (u.2 * significand n) - 2 * u.1) * (2 : ℚ) ^ counterExponent n := by
    linear_combination 2 * heq
  refine le_of_mul_le_mul_right ?_ hden
  calc 2 * |(significand n : ℚ) * 2 ^ counterExponent n - n| * u.2
      = |2 * ((significand n : ℚ) * 2 ^ counterExponent n - n) * u.2| := by
        rw [abs_mul, abs_mul, abs_two, abs_of_pos hden]
    _ = |2 * ((u.2 : ℚ) * significand n) - 2 * u.1| * 2 ^ counterExponent n := by
        rw [hscaled, abs_mul, abs_of_pos hpos]
    _ ≤ u.2 * 2 ^ counterExponent n := mul_le_mul_of_nonneg_right herror hpos.le
    _ = 2 ^ counterExponent n * u.2 := mul_comm _ _

lemma unitExponent_one (hn : 0 < n) : unitExponent n 1 = counterExponent n := by
  have hguess : (n.log2 : Int) - (Nat.log2 1 : Nat) - 52 = counterExponent n := by
    have hone : Nat.log2 1 = 0 := by decide
    simp [counterExponent, hone]
  have hdigits : ¬ (counterUnits n).1 / (counterUnits n).2 < fractions := by
    rw [not_lt, Nat.le_div_iff_mul_le (snd_counterUnits_pos n)]
    exact (counterUnits_bounds hn).1
  rw [counterUnits] at hdigits
  simp only [unitExponent, hguess, if_neg hdigits]
  rw [counterExponent, max_eq_left (by omega)]

/-- The word for a counter is put together from its exponent and its significand. -/
lemma nearest_one (hn : 0 < n) (hlog : n.log2 < 64) :
    nearest n 1 = (n.log2 + 1022) * fractions + significand n := by
  have hbiased : (counterExponent n + 1074).toNat = n.log2 + 1022 := by
    rw [counterExponent]
    omega
  simp only [nearest, if_neg hn.ne', unitExponent_one hn, hbiased, infinityBits]
  refine min_eq_left ?_
  change (n.log2 + 1022) * fractions + significand n ≤ 2047 * fractions
  have hhigh := (significand_bounds hn).2
  rw [fractions_eq] at hhigh ⊢
  omega

end Counters

/-! ## Words -/

/-- A biased exponent and a significand are put together by adding them.  If rounding has reached
the next power of two, the significand carries into the exponent. -/
lemma value?_decode {biased r : Nat} (hbiased : biased < 2045) (hlow : fractions ≤ r)
    (hhigh : r ≤ 2 * fractions) :
    (decode (biased * fractions + r)).value? = some ((r : ℚ) * 2 ^ ((biased : Int) - 1074)) := by
  rw [fractions_eq] at hlow hhigh
  have hsign : (biased * fractions + r) >>> 63 % 2 = 0 := by
    rw [Nat.shiftRight_eq_div_pow, fractions_eq]
    omega
  rcases Nat.lt_or_eq_of_le hhigh with hr | hr
  · have hexponent : (biased * fractions + r) / fractions % (1 <<< 11) = biased + 1 := by
      rw [fractions_eq, Nat.one_shiftLeft]
      omega
    have hfraction : fractions + (biased * fractions + r) % fractions = r := by
      rw [fractions_eq]
      omega
    have hunit : ((biased + 1 : Nat) : Int) - 1075 = biased - 1074 := by omega
    simp only [decode, hsign, hexponent, hfraction, hunit]
    rw [if_neg (by omega), if_neg (by omega)]
    simp [value?]
  · have hexponent : (biased * fractions + r) / fractions % (1 <<< 11) = biased + 2 := by
      rw [fractions_eq, Nat.one_shiftLeft]
      omega
    have hfraction : (biased * fractions + r) % fractions = 0 := by
      rw [fractions_eq]
      omega
    have hunit : ((biased + 2 : Nat) : Int) - 1075 = biased - 1074 + 1 := by omega
    simp only [decode, hsign, hexponent, hfraction, hunit]
    rw [if_neg (by omega), if_neg (by omega)]
    simp [value?, hr, fractions_eq, zpow_add_one₀]
    ring

/-- **Counters as doubles.**  The word that is found for a counter approximates it. -/
theorem nearest_approximates {n : Nat} (hn : n < Counter.bound) : Approximates (nearest n 1) n := by
  rcases Nat.eq_zero_or_pos n with rfl | hpos
  · have hzero : decode (nearest 0 1) = .finite false 0 (-1074) := by decide +kernel
    exact ⟨0, by simp [hzero, value?], by simp⟩
  have hlog : n.log2 < 64 := by
    rw [Nat.log2_lt hpos.ne']
    exact hn
  obtain ⟨hlow, hhigh⟩ := significand_bounds hpos
  have hunit : ((n.log2 + 1022 : Nat) : Int) - 1074 = counterExponent n := by
    rw [counterExponent]
    omega
  refine ⟨_, by rw [nearest_one hpos hlog, value?_decode (by omega) hlow hhigh, hunit], ?_⟩
  have hle : (2 : ℚ) ^ n.log2 ≤ n := by exact_mod_cast Nat.log2_self_le hpos.ne'
  calc |(significand n : ℚ) * 2 ^ counterExponent n - n| * 2 ^ 53
      = 2 * |(significand n : ℚ) * 2 ^ counterExponent n - n| * fractions := by
        rw [fractions_eq]
        push_cast
        ring
    _ ≤ 2 ^ counterExponent n * fractions :=
        mul_le_mul_of_nonneg_right (significand_error n) (Nat.cast_nonneg _)
    _ = 2 ^ n.log2 := by rw [two_pow_log2, mul_comm]
    _ ≤ n := hle

end Dataflow.Binary64

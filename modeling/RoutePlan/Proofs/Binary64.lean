import Mathlib.Algebra.Order.Field.Rat
import Mathlib.Algebra.Order.Field.Power
import Mathlib.Tactic.FieldSimp
import Mathlib.Tactic.Linarith
import Mathlib.Tactic.NormNum
import Mathlib.Tactic.Positivity
import Mathlib.Tactic.Ring
import RoutePlan.Binary64

/-!
Rounding to floating-point numbers. A quotient is rounded by at most half a unit in the last of its
53 bits, and it has no floating-point number exactly from half a unit past the largest one on.
-/
namespace RoutePlan.Binary64

def magnitude (x : Binary64) : ℚ := x.mantissa * 2 ^ x.exponent

/-- Half a unit past the largest number. -/
def overflowBound : ℚ := (2 ^ 54 - 1) * 2 ^ 970

/-! ### Rounding to a whole number -/

/-- A whole number at most one half away, and an even one where another is as near. -/
structure NearestEven (x : ℚ) (n : Nat) : Prop where
  upper : x ≤ n + 1 / 2
  lower : n - 1 / 2 ≤ x
  tie : x = n + 1 / 2 ∨ x = n - 1 / 2 → n % 2 = 0

theorem nearestEven_div (num : Nat) {den : Nat} (positive : 0 < den) :
    NearestEven (num / den) (divNearestEven num den) := by
  have split := Nat.div_add_mod num den
  have small := Nat.mod_lt num positive
  have rational : (num : ℚ) / den = (num / den : Nat) + (num % den : Nat) / den := by
    field_simp
    exact_mod_cast split.symm
  rw [rational]
  unfold divNearestEven
  generalize num / den = low at *
  generalize num % den = rest at *
  have positive' : (0 : ℚ) < den := by exact_mod_cast positive
  dsimp only
  split
  · rename_i less
    have below : (rest : ℚ) / den < 1 / 2 := by
      rw [div_lt_div_iff₀ positive' (by norm_num)]
      exact_mod_cast (by omega : rest * 2 < 1 * den)
    have least : 0 ≤ (rest : ℚ) / den := by positivity
    refine ⟨by linarith, by linarith, ?_⟩
    intro even
    rcases even with high | low <;> linarith
  · split
    · rename_i notLess more
      have above : 1 / 2 < (rest : ℚ) / den := by
        rw [div_lt_div_iff₀ (by norm_num) positive']
        exact_mod_cast (by omega : 1 * den < rest * 2)
      have most : (rest : ℚ) / den < 1 := by
        rw [div_lt_one positive']
        exact_mod_cast small
      have next : ((low + 1 : Nat) : ℚ) = low + 1 := by push_cast; rfl
      refine ⟨by linarith, by linarith, ?_⟩
      intro even
      rcases even with high | low <;> linarith
    · rename_i notLess notMore
      have half : (rest : ℚ) / den = 1 / 2 := by
        rw [div_eq_div_iff positive'.ne' (by norm_num)]
        exact_mod_cast (by omega : rest * 2 = 1 * den)
      have parity : ((low % 2 : Nat) : ℚ) = 0 ∨ ((low % 2 : Nat) : ℚ) = 1 := by
        rcases Nat.mod_two_eq_zero_or_one low with even | odd
        · exact .inl (by rw [even]; norm_num)
        · exact .inr (by rw [odd]; norm_num)
      have sum : ((low + low % 2 : Nat) : ℚ) = low + (low % 2 : Nat) := by push_cast; rfl
      rw [half]
      refine ⟨?_, ?_, fun _ => by omega⟩
      · rcases parity with even | odd <;> linarith
      · rcases parity with even | odd <;> linarith

theorem NearestEven.le_iff_of_even {x : ℚ} {n : Nat} (nearest : NearestEven x n) {m : Nat}
    (even : m % 2 = 0) : m ≤ n ↔ m - 1 / 2 ≤ x := by
  constructor
  · intro reached
    have reached' : (m : ℚ) ≤ n := by exact_mod_cast reached
    linarith [nearest.lower]
  · intro near
    by_contra missed
    have missed' : (n : ℚ) + 1 ≤ m := by exact_mod_cast (by omega : n + 1 ≤ m)
    have same : (n : ℚ) + 1 = m := by linarith [nearest.upper]
    have next : n + 1 = m := by exact_mod_cast same
    have tied := nearest.tie (.inl (by linarith [nearest.upper]))
    omega

theorem NearestEven.le_iff_of_odd {x : ℚ} {n : Nat} (nearest : NearestEven x n) {m : Nat}
    (odd : m % 2 = 1) : m ≤ n ↔ m - 1 / 2 < x := by
  constructor
  · intro reached
    have reached' : (m : ℚ) ≤ n := by exact_mod_cast reached
    by_contra far
    have same : (m : ℚ) = n := by linarith [nearest.lower]
    have next : m = n := by exact_mod_cast same
    have tied := nearest.tie (.inr (by linarith [nearest.lower]))
    omega
  · intro near
    by_contra missed
    have missed' : (n : ℚ) + 1 ≤ m := by exact_mod_cast (by omega : n + 1 ≤ m)
    linarith [nearest.upper]

/-! ### The exponent -/

theorem two_zpow_eq (e : Int) : (2 : ℚ) ^ e = 2 ^ e.toNat / 2 ^ (-e).toNat := by
  rcases Int.le_total 0 e with nonneg | neg
  · obtain ⟨n, rfl⟩ := Int.eq_ofNat_of_zero_le nonneg
    simp
  · obtain ⟨n, same⟩ := Int.eq_ofNat_of_zero_le (Int.neg_nonneg.mpr neg)
    obtain rfl : e = -n := by omega
    simp

theorem shifted_quotient (num den : Nat) (e : Int) :
    ((num * Nat.pow 2 (-e).toNat : Nat) : ℚ) / (den * Nat.pow 2 e.toNat : Nat) =
      num / den / 2 ^ e := by
  rw [two_zpow_eq]
  push_cast [Nat.pow_eq]
  field_simp

theorem log2_bounds {n : Nat} (positive : 0 < n) :
    (2 : ℚ) ^ n.log2 ≤ n ∧ (n : ℚ) < 2 * 2 ^ n.log2 := by
  have least := Nat.log2_self_le positive.ne'
  have most : n < 2 ^ (n.log2 + 1) := Nat.lt_log2_self
  rw [Nat.pow_succ'] at most
  exact ⟨by exact_mod_cast least, by exact_mod_cast most⟩

theorem exponentFor_bounds {num den : Nat} (positive : 0 < num) (positive' : 0 < den) :
    (num : ℚ) / den < 2 ^ 53 * 2 ^ exponentFor num den ∧
      (exponentFor num den = leastExponent ∨
        2 ^ 52 * 2 ^ exponentFor num den ≤ (num : ℚ) / den) := by
  obtain ⟨leastNum, mostNum⟩ := log2_bounds positive
  obtain ⟨leastDen, mostDen⟩ := log2_bounds positive'
  have denPositive : (0 : ℚ) < den := by exact_mod_cast positive'
  unfold exponentFor
  dsimp only
  generalize sameGuess : (num.log2 : Int) - den.log2 - 53 = guess
  have unitPositive : (0 : ℚ) < 2 ^ guess := by positivity
  have unit : (2 : ℚ) ^ num.log2 = 2 ^ guess * 2 ^ 53 * 2 ^ den.log2 := by
    have sum : (num.log2 : Int) = guess + 53 + den.log2 := by omega
    rw [← zpow_natCast, sum, zpow_add₀ two_ne_zero, zpow_add₀ two_ne_zero, zpow_natCast]
    rfl
  have above : 2 ^ 52 * 2 ^ guess < (num : ℚ) / den := by
    rw [lt_div_iff₀ denPositive]
    calc 2 ^ 52 * 2 ^ guess * (den : ℚ) < 2 ^ 52 * 2 ^ guess * (2 * 2 ^ den.log2) := by gcongr
      _ = 2 ^ num.log2 := by rw [unit]; ring
      _ ≤ num := leastNum
  have below : (num : ℚ) / den < 2 ^ 54 * 2 ^ guess := by
    rw [div_lt_iff₀ denPositive]
    calc (num : ℚ) < 2 * 2 ^ num.log2 := mostNum
      _ = 2 ^ 54 * 2 ^ guess * 2 ^ den.log2 := by rw [unit]; ring
      _ ≤ 2 ^ 54 * 2 ^ guess * den := by gcongr
  have tooSmall : mantissaBound * den * Nat.pow 2 guess.toNat ≤ num * Nat.pow 2 (-guess).toNat ↔
      2 ^ 53 * 2 ^ guess ≤ (num : ℚ) / den := by
    have scale : 0 < den * Nat.pow 2 guess.toNat := Nat.mul_pos positive' (Nat.two_pow_pos _)
    have scale' : (0 : ℚ) < (den * Nat.pow 2 guess.toNat : Nat) := by exact_mod_cast scale
    rw [← le_div_iff₀ unitPositive, ← shifted_quotient, le_div_iff₀ scale', Nat.mul_assoc]
    exact_mod_cast Iff.rfl
  have filled : ∀ found, found = (if mantissaBound * den * Nat.pow 2 guess.toNat ≤
        num * Nat.pow 2 (-guess).toNat then guess + 1 else guess) →
      2 ^ 52 * 2 ^ found ≤ (num : ℚ) / den ∧ (num : ℚ) / den < 2 ^ 53 * 2 ^ found := by
    intro found same
    split at same
    · rename_i reached
      rw [same, zpow_add_one₀ two_ne_zero]
      exact ⟨by linarith [tooSmall.mp reached], by linarith⟩
    · rename_i missed
      rw [same]
      exact ⟨above.le, not_le.mp (mt tooSmall.mpr missed)⟩
  obtain ⟨atLeast, less⟩ := filled _ rfl
  generalize (if mantissaBound * den * Nat.pow 2 guess.toNat ≤
    num * Nat.pow 2 (-guess).toNat then guess + 1 else guess) = found at *
  rcases Int.le_total leastExponent found with inside | under
  · rw [Int.max_eq_right inside]
    exact ⟨less, .inr atLeast⟩
  · rw [Int.max_eq_left under]
    refine ⟨less.trans_le ?_, .inl rfl⟩
    gcongr
    exact one_le_two

/-! ### The rounded quotient -/

/-- The mantissa and the exponent that a positive quotient is rounded to. -/
structure Rounding (x : ℚ) (exponent : Int) (mantissa : Nat) : Prop where
  nearest : NearestEven (x / 2 ^ exponent) mantissa
  less : x < 2 ^ 53 * 2 ^ exponent
  filled : exponent = leastExponent ∨ 2 ^ 52 * 2 ^ exponent ≤ x

theorem rounding {num den : Nat} (positive : 0 < num) (positive' : 0 < den) :
    Rounding (num / den) (exponentFor num den)
      (divNearestEven (num * Nat.pow 2 (-exponentFor num den).toNat)
        (den * Nat.pow 2 (exponentFor num den).toNat)) where
  nearest := by
    rw [← shifted_quotient]
    exact nearestEven_div _ (Nat.mul_pos positive' (Nat.two_pow_pos _))
  less := (exponentFor_bounds positive positive').1
  filled := (exponentFor_bounds positive positive').2

theorem Rounding.mantissa_le {x : ℚ} {exponent : Int} {mantissa : Nat}
    (rounding : Rounding x exponent mantissa) : mantissa ≤ mantissaBound := by
  by_contra above
  have reached : mantissaBound + 1 ≤ mantissa := by omega
  rw [rounding.nearest.le_iff_of_odd rfl, lt_div_iff₀ (by positivity)] at reached
  have unit : (0 : ℚ) < 2 ^ exponent := by positivity
  have bound : ((mantissaBound + 1 : Nat) : ℚ) = 2 ^ 53 + 1 := by norm_num [mantissaBound]
  rw [bound] at reached
  linarith [rounding.less]

/-- The mantissa overflows its 53 bits, and the exponent with it, from half a unit past the largest
number on. -/
theorem Rounding.overflows_iff {x : ℚ} {exponent : Int} {mantissa : Nat}
    (rounding : Rounding x exponent mantissa) :
    greatestExponent < (if mantissa = mantissaBound then exponent + 1 else exponent) ↔
      overflowBound ≤ x := by
  have full : mantissa = mantissaBound ↔ 2 ^ 53 - 1 / 2 ≤ x / 2 ^ exponent := by
    have reached := rounding.nearest.le_iff_of_even (m := mantissaBound) rfl
    have bound : (mantissaBound : ℚ) = 2 ^ 53 := by norm_num [mantissaBound]
    rw [bound] at reached
    rw [← reached]
    have := rounding.mantissa_le
    omega
  rcases Int.lt_trichotomy exponent greatestExponent with below | same | above
  · have small : x < overflowBound := by
      have power : (2 : ℚ) ^ exponent ≤ 2 ^ (970 : Int) := by
        gcongr
        · exact one_le_two
        · exact Int.lt_add_one_iff.mp below
      calc x < 2 ^ 53 * 2 ^ exponent := rounding.less
        _ ≤ 2 ^ 53 * 2 ^ (970 : Int) := by gcongr
        _ < (2 ^ 54 - 1) * 2 ^ (970 : Int) := by gcongr; norm_num
        _ = overflowBound := rfl
    have inside :
        ¬ greatestExponent < if mantissa = mantissaBound then exponent + 1 else exponent := by
      split <;> omega
    exact iff_of_false inside (not_le.mpr small)
  · have unit : (2 : ℚ) ^ exponent = 2 * 2 ^ 970 := by
      rw [same, ← pow_succ']
      rfl
    have full' : overflowBound ≤ x ↔ mantissa = mantissaBound := by
      have scaled (u : ℚ) : (2 ^ 53 - 1 / 2) * (2 * u) = (2 ^ 54 - 1) * u := by ring
      rw [full, unit, le_div_iff₀ (by positivity), overflowBound, scaled]
    rw [full', same]
    split
    · rename_i whole
      exact iff_of_true (Int.lt_add_one_of_le (Int.le_refl _)) whole
    · rename_i part
      exact iff_of_false (Int.lt_irrefl _) part
  · have large : overflowBound ≤ x := by
      have notLeast : exponent ≠ leastExponent := by
        intro least
        rw [least] at above
        contradiction
      have power : (2 : ℚ) ^ (972 : Int) ≤ 2 ^ exponent := by
        gcongr
        · exact one_le_two
        · exact Int.add_one_le_iff.mpr above
      calc overflowBound ≤ 2 ^ 54 * 2 ^ 970 := by rw [overflowBound]; gcongr; norm_num
        _ = 2 ^ 52 * 2 ^ (972 : Int) := by
          rw [← pow_add]
          exact pow_add 2 52 972
        _ ≤ 2 ^ 52 * 2 ^ exponent := by gcongr
        _ ≤ x := rounding.filled.resolve_left notLeast
    have outside :
        greatestExponent < if mantissa = mantissaBound then exponent + 1 else exponent := by
      split <;> omega
    exact iff_of_true outside large

theorem ofRatio?_cases (negative : Bool) {num den : Nat} (positive : 0 < num)
    (positive' : 0 < den) :
    ∃ exponent mantissa, Rounding ((num : ℚ) / den) exponent mantissa ∧
      ofRatio? negative num den =
        if overflowBound ≤ (num : ℚ) / den then none
        else some (if mantissa = mantissaBound then ⟨negative, mantissa / 2, exponent + 1⟩
          else ⟨negative, mantissa, exponent⟩) := by
  have rounded := rounding positive positive'
  refine ⟨_, _, rounded, ?_⟩
  rw [ofRatio?, if_neg positive.ne']
  dsimp only
  rw [apply_ite Binary64.exponent]
  exact if_congr rounded.overflows_iff rfl rfl

theorem ofRatio?_eq_none_iff (negative : Bool) (num : Nat) {den : Nat} (positive : 0 < den) :
    ofRatio? negative num den = none ↔ overflowBound ≤ (num : ℚ) / den := by
  rcases Nat.eq_zero_or_pos num with zero | positive'
  · subst zero
    have small : ¬ overflowBound ≤ ((0 : Nat) : ℚ) / den := by
      rw [Nat.cast_zero, zero_div, not_le, overflowBound]
      have : (1 : ℚ) < 2 ^ 54 := by norm_num
      have := sub_pos.mpr this
      positivity
    exact iff_of_false (by simp [ofRatio?]) small
  · obtain ⟨exponent, mantissa, -, rounded⟩ := ofRatio?_cases negative positive' positive
    rw [rounded]
    simp

theorem magnitude_ofRatio? {negative : Bool} {num den : Nat} {x : Binary64} (positive : 0 < num)
    (positive' : 0 < den) (found : ofRatio? negative num den = some x) :
    ∃ exponent mantissa, Rounding ((num : ℚ) / den) exponent mantissa ∧
      x.magnitude = mantissa * 2 ^ exponent := by
  obtain ⟨exponent, mantissa, rounded, same⟩ := ofRatio?_cases negative positive positive'
  refine ⟨exponent, mantissa, rounded, ?_⟩
  rw [found] at same
  split at same
  · cases same
  · obtain rfl := Option.some.inj same
    split
    · rename_i full
      -- Half of the full mantissa goes with the next exponent.
      have half : ((mantissaBound / 2 : Nat) : ℚ) * 2 = (mantissaBound : Nat) := by
        norm_num [mantissaBound]
      rw [full, magnitude, zpow_add_one₀ two_ne_zero, mul_comm ((2 : ℚ) ^ exponent), ← mul_assoc,
        half]
    · rfl

theorem Rounding.filled_of_one_le {x : ℚ} {exponent : Int} {mantissa : Nat}
    (rounding : Rounding x exponent mantissa) (least : 1 ≤ x) : 2 ^ 52 * 2 ^ exponent ≤ x := by
  refine rounding.filled.resolve_left ?_
  intro small
  have power : (2 : ℚ) ^ exponent ≤ 2 ^ (-53 : Int) := by
    rw [small]
    gcongr
    · exact one_le_two
    · decide
  have unit : (2 : ℚ) ^ 53 * 2 ^ (-53 : Int) = 1 := by norm_num
  have less := rounding.less
  linarith

theorem magnitude_error {negative : Bool} {num den : Nat} {x : Binary64} (positive : 0 < den)
    (least : den ≤ num) (found : ofRatio? negative num den = some x) :
    |x.magnitude - num / den| ≤ num / den / 2 ^ 53 := by
  have positive' : (0 : ℚ) < den := by exact_mod_cast positive
  have least' : 1 ≤ (num : ℚ) / den := by
    rw [le_div_iff₀ positive', one_mul]
    exact_mod_cast least
  obtain ⟨exponent, mantissa, rounded, same⟩ :=
    magnitude_ofRatio? (positive.trans_le least) positive found
  rw [same]
  generalize (num : ℚ) / den = q at *
  have filled := rounded.filled_of_one_le least'
  have unit : (0 : ℚ) < 2 ^ exponent := by positivity
  have upper := rounded.nearest.upper
  have lower := rounded.nearest.lower
  rw [div_le_iff₀ unit] at upper
  rw [le_div_iff₀ unit] at lower
  have half : (2 : ℚ) ^ exponent / 2 ≤ q / 2 ^ 53 := by
    rw [le_div_iff₀ (by positivity)]
    linarith
  rw [abs_le]
  constructor <;> linarith

/-! ### Naturals and products -/

theorem magnitude_error_ofNat {n : Nat} {x : Binary64} (positive : 0 < n)
    (found : ofNat? n = some x) : |x.magnitude - n| ≤ n / 2 ^ 53 := by
  simpa using magnitude_error Nat.one_pos positive found

theorem ofNat?_eq_none_iff (n : Nat) : ofNat? n = none ↔ overflowBound ≤ n := by
  rw [ofNat?, ofRatio?_eq_none_iff _ _ Nat.one_pos, Nat.cast_one, div_one]

theorem magnitude_ofNat_of_64_bits {n : Nat} {x : Binary64} (least : 2 ^ 63 ≤ n) (most : n < 2 ^ 64)
    (found : ofNat? n = some x) :
    ∃ mantissa, NearestEven ((n : ℚ) / 2 ^ 11) mantissa ∧ x.magnitude = mantissa * 2 ^ 11 := by
  obtain ⟨exponent, mantissa, rounded, same⟩ :=
    magnitude_ofRatio? (by omega) Nat.one_pos found
  rw [Nat.cast_one, div_one] at rounded
  have least' : (2 : ℚ) ^ 53 * 2 ^ (10 : Int) ≤ n := by exact_mod_cast least
  have most' : (n : ℚ) < 2 ^ 52 * 2 ^ (12 : Int) := by exact_mod_cast most
  have filled := rounded.filled_of_one_le (by exact_mod_cast (by omega : 1 ≤ n))
  have above : (2 : ℚ) ^ (10 : Int) < 2 ^ exponent := by linarith [rounded.less]
  have below : (2 : ℚ) ^ exponent < 2 ^ (12 : Int) := by linarith
  rw [zpow_lt_zpow_iff_right₀ one_lt_two] at above below
  obtain rfl : exponent = 11 := by omega
  exact ⟨mantissa, rounded.nearest, same⟩

theorem quotient_eq_magnitude (x : Binary64) : (x.numerator : ℚ) / x.denominator = x.magnitude := by
  rw [numerator, denominator, magnitude, two_zpow_eq]
  push_cast [Nat.pow_eq]
  rw [mul_div_assoc]

theorem mul?_eq_none_iff (x y : Binary64) :
    x.mul? y = none ↔ overflowBound ≤ x.magnitude * y.magnitude := by
  have positive : 0 < x.denominator * y.denominator :=
    Nat.mul_pos (Nat.two_pow_pos _) (Nat.two_pow_pos _)
  rw [mul?, ofRatio?_eq_none_iff _ _ positive, ← quotient_eq_magnitude, ← quotient_eq_magnitude,
    div_mul_div_comm]
  push_cast
  rfl

end RoutePlan.Binary64

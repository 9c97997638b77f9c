import Mathlib.Data.List.Induction
import Mathlib.Data.List.TakeWhile
import RoutePlan.Json.Numeral
import RoutePlan.Proofs.Binary64
import RoutePlan.Proofs.Text

/-!
Integers as JSON writes them. Each is read as a numeral without point and exponent: as the integer
it is where 64 bits hold it, as a floating-point number beyond them, and not at all from the bound
on at which reading overflows.
-/
namespace RoutePlan.Json

structure WholeDigits (digits : Text) : Prop where
  nonempty : digits ≠ []
  isDigit : ∀ c ∈ digits, c.isDigit
  noLeadingZero : digits.head? = some '0' → digits = ['0']

/-- The texts `-?(0|[1-9][0-9]*)`, each with the integer that it spells. -/
inductive IntegerText : Text → Int → Prop where
  | plain {digits : Text} (whole : WholeDigits digits) :
      IntegerText digits (Nat.ofDigitChars 10 digits 0)
  | minus {digits : Text} (whole : WholeDigits digits) :
      IntegerText ('-' :: digits) (-(Nat.ofDigitChars 10 digits 0 : Nat))

/-! ### Digits -/

theorem ofDigitChars_lt {digits : Text} (isDigit : ∀ c ∈ digits, c.isDigit) :
    Nat.ofDigitChars 10 digits 0 < 10 ^ digits.length := by
  induction digits with
  | nil => simp
  | cons c rest ih =>
    have first := Text.digit_lt (isDigit c List.mem_cons_self)
    have following := ih fun d member => isDigit d (List.mem_cons_of_mem c member)
    rw [Nat.ofDigitChars_cons, Nat.ofDigitChars_eq_ofDigitChars_zero, List.length_cons,
      Nat.pow_succ, Nat.mul_zero, Nat.zero_add]
    generalize c.toNat - '0'.toNat = d at *
    have most := Nat.mul_le_mul_left (10 ^ rest.length) (Nat.le_of_lt_succ first)
    omega

theorem wholeDigits_ofNat (n : Nat) : WholeDigits (Text.ofNat n) where
  nonempty := Nat.toDigits_ne_nil
  isDigit _ member := Nat.isDigit_of_mem_toDigits (by decide) (by decide) member
  noLeadingZero := by
    induction n using Nat.strongRecOn with
    | ind n ih =>
      intro zero
      rw [Text.ofNat, Nat.toDigits_eq_if (by decide)] at zero ⊢
      split at zero
      · rename_i small
        rw [if_pos small]
        simpa using zero
      · rename_i large
        rw [List.head?_append_of_ne_nil _ Nat.toDigits_ne_nil] at zero
        have front := ih (n / 10) (by omega) zero
        have spelled := congrArg (Nat.ofDigitChars 10 · 0) front
        simp only [Text.ofNat, Nat.ofDigitChars_ten_toDigits] at spelled
        have : Nat.ofDigitChars 10 ['0'] 0 = 0 := rfl
        omega

theorem WholeDigits.ofNat_spelled {digits : Text} (whole : WholeDigits digits) :
    Text.ofNat (Nat.ofDigitChars 10 digits 0) = digits := by
  obtain ⟨nonempty, isDigit, noLeadingZero⟩ := whole
  induction digits using List.reverseRecOn with
  | nil => contradiction
  | append_singleton front c ih =>
    have digit := isDigit c (by simp)
    have last : Nat.toDigits 10 (c.toNat - '0'.toNat) = [c] := by
      rw [Nat.toDigits_of_lt_base (Text.digit_lt digit), Text.digitChar_of_isDigit digit]
    rw [Nat.ofDigitChars_append, Nat.ofDigitChars_cons, Nat.ofDigitChars_nil]
    by_cases alone : front = []
    · subst alone
      rw [Nat.ofDigitChars_nil, Nat.mul_zero, Nat.zero_add]
      exact last
    · have noZero : front.head? ≠ some '0' := by
        intro zero
        have whole := noLeadingZero (by rw [List.head?_append_of_ne_nil _ alone, zero])
        have lengths := congrArg List.length whole
        have positive := List.length_pos_iff.mpr alone
        rw [List.length_append, List.length_singleton, List.length_singleton] at lengths
        omega
      have spelled := ih alone (fun d member => isDigit d (by simp [member]))
        (fun zero => absurd zero noZero)
      have positive : 0 < Nat.ofDigitChars 10 front 0 := by
        by_contra zero
        rw [Nat.eq_zero_of_not_pos zero] at spelled
        exact noZero (by rw [← spelled]; rfl)
      rw [Text.ofNat, ← Nat.toDigits_append_toDigits (by decide) positive (Text.digit_lt digit),
        last, ← Text.ofNat, spelled]

theorem integerText_ofInt (i : Int) : IntegerText (Text.ofInt i) i := by
  have whole := wholeDigits_ofNat i.natAbs
  have spelled : Nat.ofDigitChars 10 (Text.ofNat i.natAbs) 0 = i.natAbs :=
    Nat.ofDigitChars_ten_toDigits
  unfold Text.ofInt
  split
  · rename_i negative
    have value := IntegerText.minus whole
    rw [spelled] at value
    rwa [show -(i.natAbs : Int) = i by omega] at value
  · rename_i nonneg
    have value := IntegerText.plain whole
    rw [spelled] at value
    rwa [show (i.natAbs : Int) = i by omega] at value

theorem IntegerText.ofInt_eq {d : Text} {value : Int} (integer : IntegerText d value)
    (signed : d ≠ "-0".toList) : Text.ofInt value = d := by
  cases integer with
  | plain whole =>
    rw [Text.ofInt, if_neg (by omega), Int.natAbs_natCast, whole.ofNat_spelled]
  | @minus digits whole =>
    have positive : Nat.ofDigitChars 10 digits 0 ≠ 0 := by
      intro zero
      have spelled := whole.ofNat_spelled
      rw [zero] at spelled
      exact signed (by rw [← spelled]; rfl)
    rw [Text.ofInt, if_pos (by omega), Int.natAbs_neg, Int.natAbs_natCast, whole.ofNat_spelled]

theorem IntegerText.ne_nil {d : Text} {value : Int} (integer : IntegerText d value) : d ≠ [] := by
  cases integer with
  | plain whole => exact whole.nonempty
  | minus whole => exact List.cons_ne_nil _ _

theorem IntegerText.isDigit_or_minus {d : Text} {value : Int} (integer : IntegerText d value) :
    ∀ c ∈ d, c.isDigit ∨ c = '-' := by
  intro c member
  cases integer with
  | plain whole => exact .inl (whole.isDigit c member)
  | minus whole =>
    rcases List.mem_cons.mp member with minus | digit
    · exact .inr minus
    · exact .inl (whole.isDigit c digit)

/-! ### Too large for a floating-point number -/

namespace Numeral

def withZeros (digits zeros : Nat) : Nat := digits * Nat.pow 10 zeros

/-- Integers are read as floating-point numbers below this magnitude only. Reading rounds the first
twenty digits and then the product with the power of ten, so that the bound is lower than that of
the numbers themselves. -/
def unreadableFrom : Nat := withZeros 17976931348623156225 289

/-- A run of digits as its first digits and their number of followers, which are no more than a
word of 64 bits makes necessary. -/
structure Leading (value significand dropped : Nat) : Prop where
  rest : ∃ rest < 10 ^ dropped, value = significand * 10 ^ dropped + rest
  isWord : significand < wordBound
  full : 0 < dropped → wordBound ≤ 10 * significand + 9

theorem absorb_splits (digits : Text) (isDigit : ∀ c ∈ digits, c.isDigit) {significand : Nat}
    (isWord : significand < wordBound) :
    ∃ kept dropped, digits = kept ++ dropped ∧
      absorb significand digits = (Nat.ofDigitChars 10 kept significand, dropped.length) ∧
      Nat.ofDigitChars 10 kept significand < wordBound ∧
      (0 < dropped.length → wordBound ≤ 10 * Nat.ofDigitChars 10 kept significand + 9) := by
  induction digits generalizing significand with
  | nil => exact ⟨[], [], rfl, rfl, isWord, nofun⟩
  | cons c rest ih =>
    have small := Text.digit_lt (isDigit c List.mem_cons_self)
    unfold absorb
    dsimp only
    split
    · rename_i grown
      obtain ⟨kept, dropped, split, read, inside, full⟩ :=
        ih (fun d member => isDigit d (List.mem_cons_of_mem c member)) grown
      refine ⟨c :: kept, dropped, by rw [split, List.cons_append], read, inside, full⟩
    · rename_i stops
      refine ⟨[], c :: rest, rfl, rfl, isWord, fun _ => ?_⟩
      rw [Nat.ofDigitChars_nil]
      omega

theorem leading_absorb {digits : Text} (isDigit : ∀ c ∈ digits, c.isDigit) :
    ∃ significand dropped, absorb 0 digits = (significand, dropped) ∧
      Leading (Nat.ofDigitChars 10 digits 0) significand dropped := by
  obtain ⟨kept, dropped, split, read, isWord, full⟩ :=
    absorb_splits digits isDigit (by decide : 0 < wordBound)
  refine ⟨_, _, read, ⟨Nat.ofDigitChars 10 dropped 0, ?_, ?_⟩, isWord, full⟩
  · exact ofDigitChars_lt fun c member => isDigit c (by simp [split, member])
  · rw [split, Nat.ofDigitChars_append, Nat.ofDigitChars_eq_ofDigitChars_zero, Nat.mul_comm]

theorem float?_integer (negative : Bool) {digits : Text} {significand dropped : Nat}
    (read : absorb 0 digits = (significand, dropped)) :
    float? ⟨negative, digits, none, none⟩ =
      (scale? significand dropped).map fun x => if negative then x.neg else x := by
  unfold float?
  simp only [read, Option.getD_none, absorb, List.length_nil, Nat.sub_self, Nat.cast_zero,
    Int.sub_zero, Int.add_zero, Nat.not_lt_zero, Bool.false_eq_true, if_false]
  cases scale? significand dropped <;> rfl

theorem overflowBound_range :
    17976931348623158079 * 10 ^ 289 ≤ Binary64.overflowBound ∧
      Binary64.overflowBound < 17976931348623158080 * 10 ^ 289 := by
  have least : 17976931348623158079 * Nat.pow 10 289 ≤ (Nat.pow 2 54 - 1) * Nat.pow 2 970 := by
    decide +kernel
  have most : (Nat.pow 2 54 - 1) * Nat.pow 2 970 < 17976931348623158080 * Nat.pow 10 289 := by
    decide +kernel
  have bound : Binary64.overflowBound = ((Nat.pow 2 54 - 1) * Nat.pow 2 970 : Nat) := by
    simp only [Binary64.overflowBound, Nat.cast_mul, Nat.cast_sub (by decide : 1 ≤ Nat.pow 2 54),
      Nat.pow_eq, Nat.cast_pow, Nat.cast_ofNat, Nat.cast_one]
  have unit : (10 : ℚ) ^ 289 = (Nat.pow 10 289 : Nat) := by
    simp only [Nat.pow_eq, Nat.cast_pow, Nat.cast_ofNat]
  rw [bound, unit]
  generalize (Nat.pow 2 54 - 1) * Nat.pow 2 970 = bound at *
  generalize Nat.pow 10 289 = unit at *
  constructor
  · exact_mod_cast least
  · exact_mod_cast most

theorem power?_of_le {k : Nat} (inside : k ≤ greatestPower) :
    ∃ p, power? k = some p ∧ |p.magnitude - 10 ^ k| ≤ 10 ^ k / 2 ^ 53 := by
  have cast : ((Nat.pow 10 k : Nat) : ℚ) = 10 ^ k := Nat.cast_pow 10 k
  have small : (10 : ℚ) ^ k < Binary64.overflowBound := by
    calc (10 : ℚ) ^ k ≤ 10 ^ (19 + 289) := pow_le_pow_right₀ (by norm_num) inside
      _ = 10 ^ 19 * 10 ^ 289 := pow_add 10 19 289
      _ < 17976931348623158079 * 10 ^ 289 := by gcongr; norm_num
      _ ≤ Binary64.overflowBound := overflowBound_range.1
  cases found : power? k with
  | none =>
    have overflows := (Binary64.ofNat?_eq_none_iff _).mp found
    rw [cast] at overflows
    exact absurd overflows (not_le.mpr small)
  | some p =>
    have error := Binary64.magnitude_error_ofNat (n := Nat.pow 10 k) (Nat.pow_pos (by decide)) found
    rw [cast] at error
    exact ⟨p, rfl, error⟩

theorem product_bounds {n : Nat} {t : ℚ} {x p : Binary64} (positive : 0 ≤ t)
    (read : |x.magnitude - n| ≤ n / 2 ^ 53) (scaled : |p.magnitude - t| ≤ t / 2 ^ 53) :
    (1 - 1 / 2 ^ 53) ^ 2 * (n * t) ≤ x.magnitude * p.magnitude ∧
      x.magnitude * p.magnitude ≤ (1 + 1 / 2 ^ 53) ^ 2 * (n * t) := by
  rw [abs_le] at read scaled
  have nonneg : (0 : ℚ) ≤ n := Nat.cast_nonneg n
  have lower : n * (1 - 1 / 2 ^ 53) ≤ x.magnitude := by linarith
  have upper : x.magnitude ≤ n * (1 + 1 / 2 ^ 53) := by linarith
  have lower' : t * (1 - 1 / 2 ^ 53) ≤ p.magnitude := by linarith
  have upper' : p.magnitude ≤ t * (1 + 1 / 2 ^ 53) := by linarith
  have shrinks : (0 : ℚ) ≤ 1 - 1 / 2 ^ 53 := by norm_num
  constructor
  · calc (1 - 1 / 2 ^ 53) ^ 2 * (n * t) = n * (1 - 1 / 2 ^ 53) * (t * (1 - 1 / 2 ^ 53)) := by ring
      _ ≤ x.magnitude * p.magnitude := by gcongr; linarith
  · calc x.magnitude * p.magnitude ≤ n * (1 + 1 / 2 ^ 53) * (t * (1 + 1 / 2 ^ 53)) := by
          gcongr
          linarith [mul_nonneg positive shrinks]
      _ = (1 + 1 / 2 ^ 53) ^ 2 * (n * t) := by ring

theorem power?_289 : power? 289 = some ⟨false, 4621297602213964, 908⟩ := by decide +kernel

theorem mantissa_range :
    8777798510069900 * (2 ^ 11 * (4621297602213964 * 2 ^ 908)) < Binary64.overflowBound ∧
      Binary64.overflowBound ≤ 8777798510069901 * (2 ^ 11 * (4621297602213964 * 2 ^ 908)) := by
  have most : 8777798510069900 * (2 ^ 11 * 4621297602213964) < ((2 : ℚ) ^ 54 - 1) * 2 ^ 62 := by
    norm_num
  have least : ((2 : ℚ) ^ 54 - 1) * 2 ^ 62 ≤ 8777798510069901 * (2 ^ 11 * 4621297602213964) := by
    norm_num
  have split : (2 : ℚ) ^ 970 = 2 ^ 62 * 2 ^ 908 := pow_add 2 62 908
  have positive : (0 : ℚ) < 2 ^ 908 := by positivity
  rw [Binary64.overflowBound, split]
  generalize (2 : ℚ) ^ 908 = unit at *
  constructor
  · calc 8777798510069900 * (2 ^ 11 * (4621297602213964 * unit)) =
          8777798510069900 * (2 ^ 11 * 4621297602213964) * unit := by ring
      _ < (2 ^ 54 - 1) * 2 ^ 62 * unit := mul_lt_mul_of_pos_right most positive
      _ = (2 ^ 54 - 1) * (2 ^ 62 * unit) := by ring
  · calc (2 ^ 54 - 1) * (2 ^ 62 * unit) = (2 ^ 54 - 1) * 2 ^ 62 * unit := by ring
      _ ≤ 8777798510069901 * (2 ^ 11 * 4621297602213964) * unit :=
        mul_le_mul_of_nonneg_right least positive.le
      _ = 8777798510069901 * (2 ^ 11 * (4621297602213964 * unit)) := by ring

theorem overflows_with_twenty_digits {n : Nat} {x p : Binary64} (large : 2 ^ 63 ≤ n)
    (isWord : n < wordBound) (read : Binary64.ofNat? n = some x) (scaled : power? 289 = some p) :
    Binary64.overflowBound ≤ x.magnitude * p.magnitude ↔ 17976931348623156225 ≤ n := by
  obtain ⟨mantissa, nearest, rounded⟩ := Binary64.magnitude_ofNat_of_64_bits large isWord read
  obtain rfl := Option.some.inj (power?_289.symm.trans scaled)
  obtain ⟨below, reaches⟩ := mantissa_range
  have positive : (0 : ℚ) < 2 ^ 11 * (4621297602213964 * 2 ^ 908) := by positivity
  have product : x.magnitude * Binary64.magnitude ⟨false, 4621297602213964, 908⟩ =
      mantissa * (2 ^ 11 * (4621297602213964 * 2 ^ 908)) := by
    rw [rounded, Binary64.magnitude, mul_assoc]
    rfl
  rw [product]
  generalize (2 : ℚ) ^ 11 * (4621297602213964 * 2 ^ 908) = unit at *
  have overflows : Binary64.overflowBound ≤ mantissa * unit ↔ 8777798510069901 ≤ mantissa := by
    constructor
    · intro reached
      by_contra short
      have short' : (mantissa : ℚ) ≤ 8777798510069900 := by
        exact_mod_cast (by omega : mantissa ≤ 8777798510069900)
      linarith [mul_le_mul_of_nonneg_right short' positive.le]
    · intro long
      have long' : (8777798510069901 : ℚ) ≤ mantissa := by exact_mod_cast long
      linarith [mul_le_mul_of_nonneg_right long' positive.le]
  have odd := nearest.le_iff_of_odd (m := 8777798510069901) rfl
  have half : (((8777798510069901 : Nat) : ℚ) - 1 / 2) * 2 ^ 11 = (17976931348623156224 : Nat) := by
    norm_num
  rw [overflows, odd, lt_div_iff₀ (by positivity), half, Nat.cast_lt]
  omega

theorem Leading.le_iff {value significand dropped : Nat}
    (leading : Leading value significand dropped) (first followers : Nat)
    (fills : wordBound ≤ 10 * first) (fits : first + 9 ≤ wordBound) :
    withZeros first followers ≤ value ↔
      followers < dropped ∨ dropped = followers ∧ first ≤ significand := by
  obtain ⟨⟨rest, less, split⟩, isWord, full⟩ := leading
  have step {m n : Nat} (fewer : m < n) : 10 ^ m * 10 ≤ 10 ^ n := by
    rw [← Nat.pow_succ]
    exact Nat.pow_le_pow_right (by decide) fewer
  subst split
  rw [withZeros, Nat.pow_eq]
  rcases Nat.lt_trichotomy dropped followers with fewer | same | more
  · have front : (significand + 1) * 10 ^ dropped ≤ first * 10 ^ followers :=
      calc (significand + 1) * 10 ^ dropped ≤ 10 * first * 10 ^ dropped :=
            Nat.mul_le_mul_right _ (isWord.trans_le fills)
        _ = first * (10 ^ dropped * 10) := by ring
        _ ≤ first * 10 ^ followers := Nat.mul_le_mul_left _ (step fewer)
    rw [Nat.succ_mul] at front
    omega
  · subst same
    generalize 10 ^ dropped = unit at *
    constructor
    · intro reached
      by_contra short
      have front := Nat.mul_le_mul_right unit (by omega : significand + 1 ≤ first)
      rw [Nat.add_mul] at front
      omega
    · intro long
      have front := Nat.mul_le_mul_right unit (by omega : first ≤ significand)
      omega
  · have front : first * 10 ^ followers ≤ significand * 10 ^ dropped :=
      calc first * 10 ^ followers ≤ 10 * significand * 10 ^ followers :=
            Nat.mul_le_mul_right _ (by omega)
        _ = significand * (10 ^ followers * 10) := by ring
        _ ≤ significand * 10 ^ dropped := Nat.mul_le_mul_left _ (step more)
    omega

theorem Leading.unreadable_iff {value significand dropped : Nat}
    (leading : Leading value significand dropped) :
    unreadableFrom ≤ value ↔
      289 < dropped ∨ dropped = 289 ∧ 17976931348623156225 ≤ significand := by
  rw [unreadableFrom]
  exact leading.le_iff 17976931348623156225 289 (by decide) (by decide)

theorem Leading.overflows_iff {value significand dropped : Nat}
    (leading : Leading value significand dropped) {x p : Binary64} (positive : 0 < significand)
    (read : Binary64.ofNat? significand = some x) (scaled : power? dropped = some p)
    (error : |p.magnitude - 10 ^ dropped| ≤ 10 ^ dropped / 2 ^ 53) :
    Binary64.overflowBound ≤ x.magnitude * p.magnitude ↔
      289 < dropped ∨ dropped = 289 ∧ 17976931348623156225 ≤ significand := by
  obtain ⟨-, isWord, full⟩ := leading
  obtain ⟨lower, upper⟩ := product_bounds (by positivity)
    (Binary64.magnitude_error_ofNat positive read) error
  obtain ⟨leastBound, mostBound⟩ := overflowBound_range
  have unit : (0 : ℚ) < 10 ^ 289 := by positivity
  have grows {m n : Nat} (less : m < n) : (10 : ℚ) ^ m * 10 ≤ 10 ^ n := by
    rw [← pow_succ]
    exact pow_le_pow_right₀ (by norm_num) less
  rw [wordBound] at full
  -- One digit fewer or more decides by size alone. With just as many the rounded mantissa decides.
  rcases Nat.lt_trichotomy dropped 289 with fewer | same | more
  · have smaller := grows fewer
    have word : (significand : ℚ) ≤ 2 ^ 64 := by exact_mod_cast isWord.le
    have product := mul_le_mul_of_nonneg_right word (by positivity : (0 : ℚ) ≤ 10 ^ dropped)
    have inside : x.magnitude * p.magnitude < Binary64.overflowBound := by
      generalize (10 : ℚ) ^ dropped = scale at *
      generalize (10 : ℚ) ^ 289 = unit at *
      linarith
    exact iff_of_false (not_le.mpr inside) (by omega)
  · subst same
    by_cases large : 2 ^ 63 ≤ significand
    · rw [overflows_with_twenty_digits large isWord read scaled]
      omega
    · have word : (significand : ℚ) ≤ 2 ^ 63 := by exact_mod_cast (not_le.mp large).le
      have product := mul_le_mul_of_nonneg_right word unit.le
      have inside : x.magnitude * p.magnitude < Binary64.overflowBound := by
        generalize (10 : ℚ) ^ 289 = unit at *
        linarith
      exact iff_of_false (not_le.mpr inside) (by omega)
  · have larger := grows more
    have word : (1844674407370955161 : ℚ) ≤ significand := by
      exact_mod_cast (by omega : 1844674407370955161 ≤ significand)
    have product := mul_le_mul_of_nonneg_right word (by positivity : (0 : ℚ) ≤ 10 ^ dropped)
    have outside : Binary64.overflowBound ≤ x.magnitude * p.magnitude := by
      generalize (10 : ℚ) ^ dropped = scale at *
      generalize (10 : ℚ) ^ 289 = unit at *
      linarith
    exact iff_of_true outside (.inl more)

/-- Scaling a number read from its first digits overflows exactly from the bound on. -/
theorem scale?_eq_none_iff {value significand dropped : Nat}
    (leading : Leading value significand dropped) :
    scale? significand dropped = none ↔ unreadableFrom ≤ value := by
  rw [leading.unreadable_iff]
  rcases Nat.eq_zero_or_pos significand with zero | positive
  · -- Only a number of one digit has no significant one.
    have full := leading.full
    have alone : dropped = 0 := by
      rw [wordBound] at full
      omega
    subst zero alone
    exact iff_of_false nofun (by omega)
  · have word : (significand : ℚ) < 2 ^ 64 := by exact_mod_cast leading.isWord
    have small : (significand : ℚ) < Binary64.overflowBound := by
      have unit : (10 : ℚ) ≤ 10 ^ 289 := le_self_pow₀ (by norm_num) (by decide)
      have bound := overflowBound_range.1
      generalize (10 : ℚ) ^ 289 = unit at *
      linarith
    cases read : Binary64.ofNat? significand with
    | none => exact absurd ((Binary64.ofNat?_eq_none_iff _).mp read) (not_le.mpr small)
    | some x =>
      have nonzero : ¬ x.isZero := by
        intro zero
        have error := Binary64.magnitude_error_ofNat positive read
        have gone : x.magnitude = 0 := by
          rw [Binary64.magnitude, eq_of_beq zero, Nat.cast_zero, zero_mul]
        have positive' : (0 : ℚ) < significand := by exact_mod_cast positive
        rw [gone, zero_sub, abs_neg, abs_of_pos positive'] at error
        linarith
      have shrinks : ¬ (dropped : Int) < 0 := by omega
      simp only [scale?, read, Option.bind_eq_bind, Option.bind_some, if_neg shrinks,
        if_neg nonzero, Int.natAbs_natCast]
      split
      · rename_i inside
        obtain ⟨p, scaled, error⟩ := power?_of_le inside
        rw [scaled, Option.bind_some, Binary64.mul?_eq_none_iff,
          leading.overflows_iff positive read scaled error]
      · rename_i outside
        rw [greatestPower] at outside
        exact iff_of_true rfl (.inl (by omega))

theorem float?_eq_none_iff (negative : Bool) {digits : Text} (isDigit : ∀ c ∈ digits, c.isDigit) :
    float? ⟨negative, digits, none, none⟩ = none ↔
      unreadableFrom ≤ Nat.ofDigitChars 10 digits 0 := by
  obtain ⟨significand, dropped, read, leading⟩ := leading_absorb isDigit
  rw [float?_integer negative read, Option.map_eq_none_iff, scale?_eq_none_iff leading]

end Numeral

/-! ### What an integer is read as -/

theorem WholeDigits.digits? {digits : Text} (whole : WholeDigits digits) :
    Numeral.digits? digits = some (digits, []) := by
  have taken : digits.takeWhile Char.isDigit = digits :=
    List.takeWhile_eq_self_iff.mpr whole.isDigit
  have dropped : digits.dropWhile Char.isDigit = [] :=
    List.dropWhile_eq_nil_iff.mpr whole.isDigit
  rw [Numeral.digits?, taken, dropped, if_neg (by simp [whole.nonempty])]

/-- An integer that keeps its value, one that becomes a floating-point number, and one that is too
large for that. -/
inductive IntegerReading (d : Text) (value : Int) : Option Number → Prop where
  | int (signed : d ≠ "-0".toList) (inRange : Number.InRange value) :
      IntegerReading d value (some (.int value))
  | float (x : Binary64) (lost : d = "-0".toList ∨ ¬ Number.InRange value)
      (readable : value.natAbs < Numeral.unreadableFrom) :
      IntegerReading d value (some (.float x))
  | unread (huge : Numeral.unreadableFrom ≤ value.natAbs) : IntegerReading d value none

theorem WholeDigits.ofText? {digits : Text} (whole : WholeDigits digits) :
    Numeral.ofText? digits = some ⟨false, digits, none, none⟩ ∧
      Numeral.ofText? ('-' :: digits) = some ⟨true, digits, none, none⟩ := by
  have zero : ¬ (digits.head? = some '0' ∧ digits.length ≠ 1) := by
    rintro ⟨zero, long⟩
    rw [whole.noLeadingZero zero] at long
    exact long rfl
  have unsigned (rest : Text) : digits ≠ '-' :: rest := by
    intro minus
    have digit := whole.isDigit '-' (by simp [minus])
    contradiction
  constructor
  · rw [Numeral.ofText?]
    · simp [whole.digits?, zero, Numeral.fraction?, Numeral.exponent?]
    · exact unsigned
  · simp [Numeral.ofText?, whole.digits?, zero, Numeral.fraction?, Numeral.exponent?]

theorem IntegerText.numeral {d : Text} {value : Int} (integer : IntegerText d value) :
    ∃ negative digits, WholeDigits digits ∧
      Numeral.ofText? d = some ⟨negative, digits, none, none⟩ ∧
      value = (if negative then -(Nat.ofDigitChars 10 digits 0 : Int)
        else Nat.ofDigitChars 10 digits 0) ∧
      (d = "-0".toList ↔ negative ∧ Nat.ofDigitChars 10 digits 0 = 0) := by
  cases integer with
  | plain whole =>
    refine ⟨false, d, whole, whole.ofText?.1, rfl, iff_of_false ?_ nofun⟩
    intro minusZero
    rw [minusZero] at whole
    have minus := whole.isDigit '-' (by decide)
    contradiction
  | @minus digits whole =>
    refine ⟨true, digits, whole, whole.ofText?.2, rfl, ?_⟩
    constructor
    · intro same
      obtain rfl : digits = ['0'] := by simpa using same
      exact ⟨rfl, rfl⟩
    · rintro ⟨-, zero⟩
      rw [← whole.ofNat_spelled, zero]
      rfl

theorem IntegerText.reading {d : Text} {value : Int} (integer : IntegerText d value) :
    ∃ numeral, Numeral.ofText? d = some numeral ∧ IntegerReading d value numeral.number? := by
  obtain ⟨negative, digits, whole, read, same, minusZero⟩ := integer.numeral
  have spelled : Text.nat? 10 digits = some (Nat.ofDigitChars 10 digits 0) :=
    (Text.nat?_ten_eq_some_iff _ _).mpr ⟨whole.nonempty, whole.isDigit, rfl⟩
  have huge := Numeral.float?_eq_none_iff negative whole.isDigit
  have magnitude : value.natAbs = Nat.ofDigitChars 10 digits 0 := by
    rw [same]
    split <;> omega
  rw [← magnitude] at huge
  refine ⟨_, read, ?_⟩
  simp only [Numeral.number?, spelled, Option.bind_eq_bind, Option.bind_some, ← same, ← minusZero,
    Option.isNone_none, true_and]
  split
  · rename_i kept
    exact .int kept.2 kept.1
  · rename_i lost
    cases found : Numeral.float? ⟨negative, digits, none, none⟩ with
    | none => exact .unread (huge.mp found)
    | some x =>
      rw [found] at huge
      refine .float x ?_ (not_le.mp (mt huge.mpr nofun))
      tauto

theorem ofInt_ne_minusZero (i : Int) : Text.ofInt i ≠ "-0".toList := by
  intro minusZero
  unfold Text.ofInt at minusZero
  split at minusZero
  · rename_i negative
    have zero : Text.ofNat i.natAbs = ['0'] := by simpa using minusZero
    have spelled := Text.nat?_ofNat i.natAbs
    rw [zero] at spelled
    have : (0 : Nat) = i.natAbs := Option.some.inj spelled
    omega
  · have digit := (wholeDigits_ofNat i.natAbs).isDigit '-' (by simp [minusZero])
    contradiction

theorem IntegerReading.kept {value : Int} {number? : Option Number}
    (reading : IntegerReading (Text.ofInt value) value number?) (inRange : Number.InRange value) :
    number? = some (.int value) := by
  cases reading with
  | int signed inRange => rfl
  | float x lost readable =>
    rcases lost with minusZero | outside
    · exact absurd minusZero (ofInt_ne_minusZero value)
    · contradiction
  | unread huge =>
    have reachable : 18446744073709551616 < Numeral.unreadableFrom := by decide +kernel
    unfold Number.InRange at inRange
    omega

end RoutePlan.Json

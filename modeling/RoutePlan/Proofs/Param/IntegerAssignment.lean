import RoutePlan.Proofs.Param.Assignment
import RoutePlan.Route

/-!
Integers that a user gives as `NAME=VALUE`. Their digits reach the URL as they are unless the value
is read as a floating-point number, whose text is never that of an integer.
-/
namespace RoutePlan

/-! ### Texts of numbers -/

theorem Decimal.text_fractional (d : Decimal) : '.' ∈ d.text ∨ 'e' ∈ d.text := by
  unfold Decimal.text
  dsimp only
  split
  · left
    split
    · simp
    · split <;> simp
  · right
    simp

theorem Binary64.text_fractional (x : Binary64) : '.' ∈ x.text ∨ 'e' ∈ x.text := by
  have magnitude : '.' ∈ (if x.isZero then "0.0".toList else (Decimal.shortest x).text) ∨
      'e' ∈ (if x.isZero then "0.0".toList else (Decimal.shortest x).text) := by
    split
    · left
      decide
    · exact Decimal.text_fractional _
  unfold Binary64.text
  dsimp only
  split
  · exact magnitude.imp (List.mem_cons_of_mem _) (List.mem_cons_of_mem _)
  · exact magnitude

namespace Json

theorem IntegerText.ne_float {d : Text} {value : Int} (integer : IntegerText d value)
    (x : Binary64) : x.text ≠ d := by
  rintro rfl
  rcases x.text_fractional with point | exponent
  · exact absurd (integer.isDigit_or_minus '.' point) (by decide)
  · exact absurd (integer.isDigit_or_minus 'e' exponent) (by decide)

theorem IntegerText.eq_zero_of_minusZero {d : Text} {value : Int} (integer : IntegerText d value)
    (minusZero : d = "-0".toList) : value = 0 := by
  obtain ⟨negative, digits, -, -, same, zero⟩ := integer.numeral
  rw [same, (zero.mp minusZero).1, (zero.mp minusZero).2]
  rfl

end Json

theorem SlotEncoding.encode_integer (encoding : SlotEncoding) {d : Text} {value : Int}
    (integer : Json.IntegerText d value) : encoding.encode d = d := by
  have kept : ∀ c ∈ d, Percent.isComponentChar c := by
    intro c member
    rcases integer.isDigit_or_minus c member with digit | minus
    · simp [Percent.isComponentChar, Char.isAlphanum, digit]
    · rw [minus]
      decide
  have literal {isKept : Char → Bool} (keeps : ∀ c, Percent.isComponentChar c → isKept c) :
      Percent.encode isKept d = d := by
    have single : ∀ c ∈ d, Percent.encodeChar isKept c = [c] := fun c member =>
      if_pos (keeps c (kept c member))
    rw [Percent.encode, List.flatMap_congr single, List.flatMap_singleton']
  cases encoding with
  | pathSegment =>
    exact literal fun c component => by simp [Percent.isPathChar, Percent.isQueryChar, component]
  | queryValue => exact literal fun c component => by simp [Percent.isQueryChar, component]

/-- The integers that keep their digits: those of 64 bits, except for a zero with a sign, and those
that are too large to be read as a number. -/
def KeepsDigits (d : Text) (value : Int) : Prop :=
  d ≠ "-0".toList ∧
    (Number.InRange value ∨ Json.Numeral.unreadableFrom ≤ value.natAbs)

inductive IntegerAssigned (d : Text) (value : Int) : Json → Prop where
  | kept {v : Json} (keeps : KeepsDigits d value) (text : v.paramText? = some d) :
      IntegerAssigned d value v
  | float (x : Binary64) (lost : ¬ KeepsDigits d value) :
      IntegerAssigned d value (.number (.float x))

theorem integerAssigned {name d : Text} {value : Int} (named : name ≠ []) (noEquals : '=' ∉ name)
    (integer : Json.IntegerText d value) :
    ∃ v, parseAssignment? (name ++ '=' :: d) = some (name, v) ∧ IntegerAssigned d value v := by
  obtain ⟨number?, reading, parsed⟩ := integer.parse?
  rw [parseAssignment?_named named noEquals, parsed]
  refine ⟨_, rfl, ?_⟩
  cases reading with
  | int signed inRange =>
    exact .kept ⟨signed, .inl inRange⟩ (congrArg some (integer.ofInt_eq signed))
  | float x lost readable =>
    refine .float x fun keeps => ?_
    rcases keeps.2 with inRange | huge
    · exact lost.elim keeps.1 fun outside => outside inRange
    · omega
  | unread huge =>
    refine .kept ⟨fun minusZero => ?_, .inr huge⟩ rfl
    have positive : 0 < Json.Numeral.unreadableFrom := by decide +kernel
    rw [integer.eq_zero_of_minusZero minusZero] at huge
    omega

/-- Every integer can be assigned. Those that keep their digits, and no others, have them as the
text of the value, so that a slot of the name is filled with them as they are. Any other integer
becomes a floating-point number. -/
theorem parseAssignment?_integer {name d : Text} {value : Int} (named : name ≠ [])
    (noEquals : '=' ∉ name) (integer : Json.IntegerText d value) :
    ∃ v, parseAssignment? (name ++ '=' :: d) = some (name, v) ∧
      (v.paramText? = some d ↔ KeepsDigits d value) ∧
      (KeepsDigits d value → ∀ (σ : Type) (route : Route σ) (params : Dict Json) (path : Text)
        (slot : Slot) (beforeSlash : Bool), params.get? slot.name = some v →
          route.extend params path (.slot slot beforeSlash) = pure (path ++ d)) ∧
      (¬ KeepsDigits d value → ∃ x, v = .number (.float x)) := by
  obtain ⟨v, assigned, result⟩ := integerAssigned named noEquals integer
  refine ⟨v, assigned, ?_⟩
  cases result with
  | kept keeps text =>
    refine ⟨iff_of_true text keeps, fun _ σ route params path slot beforeSlash given => ?_,
      fun lost => absurd keeps lost⟩
    simp only [Route.extend, Route.textFor, given, text, pure_bind,
      slot.encoding.encode_integer integer]
  | float x lost =>
    refine ⟨iff_of_false (fun text => ?_) lost, fun keeps => absurd keeps lost, fun _ => ⟨x, rfl⟩⟩
    exact integer.ne_float x (Option.some.inj text)

theorem parseAssignment?_integer_least :
    "id".toList ≠ [] ∧ '=' ∉ "id".toList ∧
      Json.IntegerText "-9223372036854775808".toList (-9223372036854775808) ∧
      ∃ v, parseAssignment? ("id".toList ++ '=' :: "-9223372036854775808".toList) =
          some ("id".toList, v) ∧
        v.paramText? = some "-9223372036854775808".toList := by
  have spelled : Text.ofInt (-9223372036854775808) = "-9223372036854775808".toList := by
    decide +kernel
  have integer := Json.integerText_ofInt (-9223372036854775808)
  rw [spelled] at integer
  have named : "id".toList ≠ [] := by decide
  have noEquals : '=' ∉ "id".toList := by decide
  obtain ⟨v, assigned, text, -⟩ := parseAssignment?_integer named noEquals integer
  exact ⟨named, noEquals, integer, v, assigned, text.mpr ⟨by decide, .inl (by decide)⟩⟩

/-- The first integer beyond 64 bits. -/
theorem integer_beyond_word_loses_digits :
    Json.IntegerText "18446744073709551616".toList 18446744073709551616 ∧
      (∃ v, parseAssignment? "id=18446744073709551616".toList = some ("id".toList, v) ∧
        v.paramText? = some "1.8446744073709552e+19".toList) ∧
      ¬ ∃ v, parseAssignment? "id=18446744073709551616".toList = some ("id".toList, v) ∧
        v.paramText? = some "18446744073709551616".toList := by
  have spelled : Text.ofInt 18446744073709551616 = "18446744073709551616".toList := by
    decide +kernel
  have integer := Json.integerText_ofInt 18446744073709551616
  rw [spelled] at integer
  have computed : (parseAssignment? "id=18446744073709551616".toList).map
      (fun (name, v) => (name, v.paramText?)) =
        some ("id".toList, some "1.8446744073709552e+19".toList) := by
    decide +kernel
  obtain ⟨⟨name, v⟩, assigned, result⟩ := Option.map_eq_some_iff.mp computed
  obtain ⟨rfl, text⟩ := Prod.mk.inj result
  refine ⟨integer, ⟨v, assigned, text⟩, ?_⟩
  rintro ⟨other, again, digits⟩
  obtain ⟨-, rfl⟩ := Prod.mk.inj (Option.some.inj (assigned.symm.trans again))
  rw [text] at digits
  revert digits
  decide

end RoutePlan

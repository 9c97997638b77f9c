import RoutePlan.Json

/-!
Numbers as JSON writes them. A numeral without point and exponent is an integer where 64 bits hold
it; any other is a floating-point number, taken from as many leading digits as 64 bits hold.
-/
namespace RoutePlan.Json

structure Numeral where
  negative : Bool
  whole : Text
  fraction : Option Text
  /-- Whether the exponent is negative, and its digits. -/
  exponent : Option (Bool × Text)

namespace Numeral

def isNumeralChar (c : Char) : Bool := c.isDigit || "+-.eE".toList.contains c

def digits? (t : Text) : Option (Text × Text) :=
  if (t.takeWhile Char.isDigit).isEmpty then none
  else some (t.takeWhile Char.isDigit, t.dropWhile Char.isDigit)

def fraction? : Text → Option (Option Text × Text)
  | '.' :: rest => (digits? rest).map fun (digits, after) => (some digits, after)
  | rest => some (none, rest)

def exponentDigits? (negative : Bool) (t : Text) : Option (Option (Bool × Text) × Text) :=
  (digits? t).map fun (digits, after) => (some (negative, digits), after)

def exponent? : Text → Option (Option (Bool × Text) × Text)
  | c :: rest =>
    if c = 'e' ∨ c = 'E' then
      match rest with
      | '-' :: more => exponentDigits? true more
      | '+' :: more => exponentDigits? false more
      | more => exponentDigits? false more
    else some (none, c :: rest)
  | [] => some (none, [])

def ofText? (t : Text) : Option Numeral := do
  let (negative, unsigned) := match t with
    | '-' :: rest => (true, rest)
    | rest => (false, rest)
  let (whole, rest) ← digits? unsigned
  if whole.head? = some '0' ∧ whole.length ≠ 1 then none
  let (fraction, rest) ← fraction? rest
  let (exponent, rest) ← exponent? rest
  if rest.isEmpty then some { negative, whole, fraction, exponent } else none

def wordBound : Nat := 18446744073709551616

def absorb : Nat → Text → Nat × Nat
  | significand, [] => (significand, 0)
  | significand, c :: rest =>
    let grown := 10 * significand + (c.toNat - '0'.toNat)
    if grown < wordBound then absorb grown rest else (significand, rest.length + 1)

def greatestPower : Nat := 308

def power? (n : Nat) : Option Binary64 := Binary64.ofNat? (Nat.pow 10 n)

def divideByPower? (x : Binary64) (power : Nat) : Option Binary64 :=
  if power ≤ greatestPower then (power? power).bind x.div?
  else if x.isZero then some x
  else do
    let next ← (power? greatestPower).bind x.div?
    divideByPower? next (power - greatestPower)
termination_by power
decreasing_by
  simp only [greatestPower] at *
  omega

/-- The significand is rounded first and then scaled, so the last digit may be off by one. -/
def scale? (significand : Nat) (power : Int) : Option Binary64 := do
  let x ← Binary64.ofNat? significand
  if power < 0 then divideByPower? x power.natAbs
  else if x.isZero then some x
  else if power.natAbs ≤ greatestPower then (power? power.natAbs).bind x.mul?
  else none

def greatestExponent : Nat := 2147483647

/-- The floating-point number of a numeral, if it is in range. An exponent beyond 31 bits leaves
only a zero or a number that is too large. -/
def float? (n : Numeral) : Option Binary64 := do
  let (significand, dropped) := absorb 0 n.whole
  let fraction := n.fraction.getD []
  let (significand, unread) := absorb significand fraction
  let power : Int := dropped - (fraction.length - unread : Nat)
  let (shrinks, shift) := match n.exponent with
    | some (negative, digits) => (negative, (Text.nat? 10 digits).getD 0)
    | none => (false, 0)
  let magnitude ←
    if greatestExponent < shift then
      if significand ≠ 0 ∧ ¬ shrinks then none else some (Binary64.zero false)
    else scale? significand (if shrinks then power - shift else power + shift)
  return if n.negative then magnitude.neg else magnitude

def number? (n : Numeral) : Option Number := do
  let magnitude ← Text.nat? 10 n.whole
  let value : Int := if n.negative then -magnitude else magnitude
  if n.fraction.isNone ∧ n.exponent.isNone ∧ Number.InRange value ∧ ¬ (n.negative ∧ magnitude = 0)
  then some (.int value)
  else n.float?.map .float

end Numeral
end RoutePlan.Json

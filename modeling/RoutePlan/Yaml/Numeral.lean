import RoutePlan.Binary64
import RoutePlan.Text

/-!
Numbers as plain scalars write them: integers in four bases, and decimal numbers, which are rounded
correctly.
-/
namespace RoutePlan.Yaml.Numeral

def hasLeadingZero (t : Text) : Bool :=
  match t with
  | '0' :: digits => !digits.isEmpty && digits.all Char.isDigit
  | _ => false

def magnitude? : Text → Option Nat
  | '0' :: 'x' :: digits => Text.nat? 16 digits
  | '0' :: 'o' :: digits => Text.nat? 8 digits
  | '0' :: 'b' :: digits => Text.nat? 2 digits
  | digits => if hasLeadingZero digits then none else Text.nat? 10 digits

def int? : Text → Option Int
  | '-' :: rest => (magnitude? rest).map fun n => -(n : Int)
  | '+' :: rest => (magnitude? rest).map Int.ofNat
  | rest => (magnitude? rest).map Int.ofNat

def exponent? : Text → Option Int
  | '-' :: digits => (Text.nat? 10 digits).map fun n => -(n : Int)
  | '+' :: digits => (Text.nat? 10 digits).map Int.ofNat
  | digits => (Text.nat? 10 digits).map Int.ofNat

/-- Digits on either side of a point, of which there must be one at least, and an exponent. The
result is the number `significand · 10 ^ power`. -/
def decimal? (t : Text) : Option (Nat × Int) := do
  let isMark (c : Char) : Bool := c = 'e' || c = 'E'
  let digits := t.takeWhile (!isMark ·)
  let power ← match t.dropWhile (!isMark ·) with
    | [] => some 0
    | _ :: exponent => exponent? exponent
  let (whole, fraction) := (Text.cutAt? '.' digits).getD (digits, [])
  return (← Text.nat? 10 (whole ++ fraction), power - fraction.length)

/-- A power of ten beyond these bounds decides on its own that a number with at most `size` digits
is too large, or too small to differ from zero. -/
def powerBound (size : Nat) : Nat := 400 + size

def round? (negative : Bool) (significand : Nat) (power : Int) : Option Binary64 :=
  let bound := powerBound (Text.ofNat significand).length
  if significand = 0 || power < -bound then some (Binary64.zero negative)
  else if bound < power then none
  else Binary64.ofRatio? negative (significand * Nat.pow 10 power.toNat)
    (Nat.pow 10 (-power).toNat)

def finite? : Text → Option Binary64
  | '-' :: rest => (decimal? rest).bind fun (significand, power) => round? true significand power
  | '+' :: rest => (decimal? rest).bind fun (significand, power) => round? false significand power
  | rest => (decimal? rest).bind fun (significand, power) => round? false significand power

def isInfinity (t : Text) : Bool :=
  let magnitude := match t with
    | '-' :: rest => rest
    | '+' :: rest => rest
    | rest => rest
  [".inf", ".Inf", ".INF"].any (·.toList = magnitude)

def isNotANumber (t : Text) : Bool := [".nan", ".NaN", ".NAN"].any (·.toList = t)

end RoutePlan.Yaml.Numeral

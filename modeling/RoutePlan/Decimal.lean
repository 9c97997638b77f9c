import RoutePlan.Binary64
import RoutePlan.Text

/-!
Decimal text of floating-point numbers: the fewest digits that read back as the number, and where
the point and the exponent go.
-/
namespace RoutePlan

structure Decimal where
  digits : Nat
  scale : Int
  deriving DecidableEq

namespace Decimal

def trim : Nat → Decimal → Decimal
  | 0, d => d
  | fuel + 1, d =>
    if d.digits ≠ 0 ∧ d.digits % 10 = 0 then trim fuel ⟨d.digits / 10, d.scale + 1⟩ else d

/-- How far the first digit of `num / den` stands before the point, at most 324 places after it. -/
def magnitude (num den : Nat) : Int :=
  if den ≤ num then (Text.ofNat (num / den)).length
  else match (List.range 324).find? fun zeros => den ≤ num * Nat.pow 10 (zeros + 1) with
    | some zeros => -zeros
    | none => -324

/-- The reals that round to a number, as quotients over one denominator. The ends belong to it when
the mantissa is even. -/
structure RoundingInterval where
  low : Nat
  value : Nat
  high : Nat
  denominator : Nat
  closed : Bool

def RoundingInterval.of (x : Binary64) : RoundingInterval :=
  let below :=
    if 2 * x.mantissa = Binary64.mantissaBound ∧ x.exponent ≠ Binary64.leastExponent then 1 else 2
  { low := (4 * x.mantissa - below) * Nat.pow 2 x.exponent.toNat
    value := 4 * x.numerator
    high := (4 * x.mantissa + 2) * Nat.pow 2 x.exponent.toNat
    denominator := 4 * x.denominator
    closed := x.mantissa % 2 == 0 }

/-- Of the multiples of `10 ^ scale` in the interval, the one nearest to the value; of two equally
near the one with an even digit. -/
def RoundingInterval.onGrid? (i : RoundingInterval) (scale : Int) : Option Decimal :=
  let up := Nat.pow 10 (-scale).toNat
  let unit := i.denominator * Nat.pow 10 scale.toNat
  let value := i.value * up
  let floor := value / unit
  let inside (digits : Nat) : Bool :=
    let point := digits * unit
    let low := i.low * up
    let high := i.high * up
    if i.closed then low ≤ point && point ≤ high else low < point && point < high
  let nearest := Binary64.divNearestEven value unit
  let other := if nearest = floor then floor + 1 else floor
  if inside nearest then some ⟨nearest, scale⟩
  else if inside other then some ⟨other, scale⟩
  else none

/-- The shortest decimal that reads back as a non-zero number; seventeen digits always suffice. -/
def shortest (x : Binary64) : Decimal :=
  let interval := RoundingInterval.of x
  let size := magnitude interval.value interval.denominator
  let found := (List.range 17).findSome? fun n => interval.onGrid? (size - (n + 1 : Nat))
  trim 400 (found.getD ⟨x.numerator / x.denominator, 0⟩)

def leastScientific : Int := 16

def leastPlain : Int := -5

def text (d : Decimal) : Text :=
  let digits := Text.ofNat d.digits
  let power : Int := digits.length + d.scale - 1
  if leastPlain ≤ power ∧ power < leastScientific then
    if 0 ≤ d.scale then digits ++ List.replicate d.scale.toNat '0' ++ ".0".toList
    else if 0 ≤ power then
      digits.take (power.toNat + 1) ++ '.' :: digits.drop (power.toNat + 1)
    else "0.".toList ++ List.replicate (-power - 1).toNat '0' ++ digits
  else
    let fraction := match digits.drop 1 with
      | [] => []
      | more => '.' :: more
    digits.take 1 ++ fraction ++ 'e' :: (if power < 0 then '-' else '+') ::
      Text.ofNat power.natAbs

end Decimal

def Binary64.text (x : Binary64) : Text :=
  let magnitude := if x.isZero then "0.0".toList else (Decimal.shortest x).text
  if x.negative then '-' :: magnitude else magnitude

end RoutePlan

/-!
Finite floating-point numbers of 64 bits, each as a whole multiple of a power of two, with the
rounding of a quotient of naturals to the nearest of them. All arithmetic is exact on naturals.
-/
namespace RoutePlan

/-- The number `± mantissa · 2 ^ exponent`; a zero keeps its sign. -/
structure Binary64 where
  negative : Bool
  mantissa : Nat
  exponent : Int
  deriving DecidableEq

namespace Binary64

def leastExponent : Int := -1074
def greatestExponent : Int := 971
def mantissaBound : Nat := Nat.pow 2 53

def zero (negative : Bool) : Binary64 := ⟨negative, 0, leastExponent⟩

def isZero (x : Binary64) : Bool := x.mantissa == 0

def neg (x : Binary64) : Binary64 := { x with negative := !x.negative }

def numerator (x : Binary64) : Nat := x.mantissa * Nat.pow 2 x.exponent.toNat

def denominator (x : Binary64) : Nat := Nat.pow 2 (-x.exponent).toNat

def divNearestEven (num den : Nat) : Nat :=
  let low := num / den
  let twice := 2 * (num % den)
  if twice < den then low
  else if den < twice then low + 1
  else low + low % 2

/-- The exponent that gives `num / den` a mantissa of 53 bits, unless that is below the least. -/
def exponentFor (num den : Nat) : Int :=
  let guess : Int := (num.log2 : Int) - den.log2 - 53
  let tooSmall := mantissaBound * den * Nat.pow 2 guess.toNat ≤ num * Nat.pow 2 (-guess).toNat
  max leastExponent (if tooSmall then guess + 1 else guess)

/-- The number nearest to `± num / den`, ties to the even mantissa; none past the largest number. -/
def ofRatio? (negative : Bool) (num den : Nat) : Option Binary64 :=
  if num = 0 then some (zero negative)
  else
    let exponent := exponentFor num den
    let mantissa :=
      divNearestEven (num * Nat.pow 2 (-exponent).toNat) (den * Nat.pow 2 exponent.toNat)
    let rounded : Binary64 :=
      if mantissa = mantissaBound then ⟨negative, mantissa / 2, exponent + 1⟩
      else ⟨negative, mantissa, exponent⟩
    if greatestExponent < rounded.exponent then none else some rounded

def ofNat? (n : Nat) : Option Binary64 := ofRatio? false n 1

def mul? (x y : Binary64) : Option Binary64 :=
  ofRatio? (x.negative != y.negative) (x.numerator * y.numerator) (x.denominator * y.denominator)

def div? (x y : Binary64) : Option Binary64 :=
  ofRatio? (x.negative != y.negative) (x.numerator * y.denominator) (x.denominator * y.numerator)

end Binary64
end RoutePlan

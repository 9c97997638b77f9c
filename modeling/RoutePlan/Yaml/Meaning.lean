import RoutePlan.Json
import RoutePlan.Yaml.Numeral
import RoutePlan.Yaml.Token

/-!
What a scalar means as a JSON value. A plain scalar means what its text looks like; a tag can ask
for one kind of value, and then the text has to be of that kind.
-/
namespace RoutePlan.Yaml

namespace Meaning

def isNull (t : Text) : Bool := ["~", "null", "Null", "NULL"].any (·.toList = t)

def bool? (t : Text) : Option Bool :=
  if ["true", "True", "TRUE"].any (·.toList = t) then some true
  else if ["false", "False", "FALSE"].any (·.toList = t) then some false
  else none

def float? (t : Text) : Option Json :=
  if Numeral.isInfinity t || Numeral.isNotANumber t then some .null
  else (Numeral.finite? t).map fun value => .number (.float value)

def int? (t : Text) : Option Json :=
  match Numeral.int? t with
  | some value => if Number.InRange value then some (.number (.int value)) else none
  | none => none

def isWide (value : Int) : Bool :=
  -170141183460469231731687303715884105728 ≤ value &&
    value < 340282366920938463463374607431768211456

def floatOrText (t : Text) : Json := (float? t).getD (.string t)

def isDigitText : Text → Bool
  | '-' :: rest => Numeral.hasLeadingZero rest
  | '+' :: rest => Numeral.hasLeadingZero rest
  | rest => Numeral.hasLeadingZero rest

/-- An integer that takes more than 64 bits but not more than 128 means nothing. -/
def plain? (t : Text) : Option Json :=
  if t.isEmpty || isNull t then some .null
  else match bool? t, Numeral.int? t with
    | some value, _ => some (.bool value)
    | none, some value =>
      if Number.InRange value then some (.number (.int value))
      else if isWide value then none
      else some (floatOrText t)
    | none, none => some (if isDigitText t then .string t else floatOrText t)

/-- The value of a scalar. A local tag stands for a type that is not known; one without a name is as
good as none for a plain scalar. -/
def scalar? (tag : Option Tag) (style : Style) (t : Text) : Option Json :=
  match tag with
  | none => if style = .plain then plain? t else some (.string t)
  | some tag =>
    if (Tag.localName? tag).isSome then none
    else if tag = Tag.null then (if isNull t then some .null else none)
    else if tag = Tag.bool then (bool? t).map .bool
    else if tag = Tag.int then int? t
    else if tag = Tag.float then float? t
    else if tag.isLocal ∧ style = .plain then plain? t
    else some (.string t)

end Meaning
end RoutePlan.Yaml

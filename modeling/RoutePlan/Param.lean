import RoutePlan.Json.Reader
import RoutePlan.Json.Writer

/-!
Parameters: where their values come from, how a payload is searched for one, the text that a value
puts into a URL, and the `NAME=VALUE` form in which a user gives one.
-/
namespace RoutePlan

namespace Json

/-- The index that a path component spells: digits for at most 64 bits, after one plus at most. -/
def index? (component : Text) : Option Nat :=
  let digits := match component with
    | '+' :: rest => rest
    | rest => rest
  (Text.nat? 10 digits).filter (· < Numeral.wordBound)

def child? (value : Json) (component : Text) : Option Json :=
  match value with
  | .object members => Dict.get? members component
  | .array items => (index? component).bind (items[·]?)
  | _ => none

def atPath? (value : Json) (path : Text) : Option Json :=
  (Text.splitWhere (· == '.') path).foldlM child? value

mutual

/-- The text of a value inside a URL. Null has none; the items of an array are joined by commas. -/
def paramText? : Json → Option Text
  | .null => none
  | .string text => some text
  | .number value => some value.text
  | .bool value => some (toString value).toList
  | .array items => some (Text.join [','] (itemTexts items))
  | .object members => some (compact (.object members))

def itemTexts : List Json → List Text
  | [] => []
  | item :: rest => (paramText? item).getD [] :: itemTexts rest

end

end Json

inductive ParamSpec where
  /-- The value itself, unless it is a string that starts with `@`: that is a path to the value. -/
  | literal (value : Json)
  | computed (function : Json → Json)

/-- A path that leads nowhere gives null. The result of a function is taken as it is. -/
def ParamSpec.resolve (payload : Json) : ParamSpec → Json
  | .literal (.string ('@' :: path)) => (payload.atPath? path).getD .null
  | .literal value => value
  | .computed function => function payload

def literalParams (values : Dict Json) : OrderedDict ParamSpec :=
  (values : OrderedDict Json).mapValues .literal

def resolveParams (payload : Json) (specs : OrderedDict ParamSpec) : OrderedDict Json :=
  specs.mapValues (ParamSpec.resolve payload)

/-- The name and the value of `NAME=VALUE`, cut at the first `=`. The value is JSON where it reads
as JSON, and a string otherwise. -/
def parseAssignment? (raw : Text) : Option (Text × Json) := do
  let (name, value) ← Text.cutAt? '=' raw
  if name.isEmpty then none
  else return (name, (Json.parse? value).getD (.string value))

end RoutePlan

import RoutePlan.Json.Quoted
import RoutePlan.Json

/-!
JSON text, compact and indented. Members are written in the order in which the object holds them.
-/
namespace RoutePlan

def Number.text : Number → Text
  | .int value => Text.ofInt value
  | .float value => value.text

namespace Json

mutual

def compact : Json → Text
  | .null => "null".toList
  | .bool value => (toString value).toList
  | .number value => value.text
  | .string text => Quoted.write text
  | .array items => '[' :: (compactItems items ++ [']'])
  | .object members => '{' :: (compactMembers members ++ ['}'])

def compactItems : List Json → Text
  | [] => []
  | [item] => compact item
  | item :: rest => compact item ++ ',' :: compactItems rest

def compactMembers : List (Text × Json) → Text
  | [] => []
  | [(key, value)] => Quoted.write key ++ ':' :: compact value
  | (key, value) :: rest =>
    Quoted.write key ++ ':' :: (compact value ++ ',' :: compactMembers rest)

end

def indent (depth : Nat) : Text := '\n' :: List.replicate (2 * depth) ' '

mutual

/-- One item or member to a line, two blanks deeper than the bracket that holds it. -/
def prettyAt (depth : Nat) : Json → Text
  | .array [] => "[]".toList
  | .array items => '[' :: (prettyItems (depth + 1) items ++ indent depth ++ [']'])
  | .object [] => "\x7b\x7d".toList
  | .object members => '{' :: (prettyMembers (depth + 1) members ++ indent depth ++ ['}'])
  | scalar => compact scalar

def prettyItems (depth : Nat) : List Json → Text
  | [] => []
  | [item] => indent depth ++ prettyAt depth item
  | item :: rest => indent depth ++ prettyAt depth item ++ ',' :: prettyItems depth rest

def prettyMembers (depth : Nat) : List (Text × Json) → Text
  | [] => []
  | [(key, value)] => indent depth ++ Quoted.write key ++ ':' :: ' ' :: prettyAt depth value
  | (key, value) :: rest =>
    indent depth ++ Quoted.write key ++ ':' :: ' ' ::
      (prettyAt depth value ++ ',' :: prettyMembers depth rest)

end

def pretty (json : Json) : Text := prettyAt 0 json

end Json
end RoutePlan

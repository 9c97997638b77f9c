import RoutePlan.Decimal
import RoutePlan.Dict

/-!
JSON values. An object is a list of members, and of several members with one key the first is read.
The reader leaves one member under each key.
-/
namespace RoutePlan

inductive Number where
  | int (value : Int)
  | float (value : Binary64)
  deriving DecidableEq

/-- The integers that are numbers without being floating-point: from `-2 ^ 63` to `2 ^ 64 - 1`. -/
def Number.InRange (value : Int) : Prop :=
  -9223372036854775808 ≤ value ∧ value < 18446744073709551616

instance (value : Int) : Decidable (Number.InRange value) :=
  inferInstanceAs (Decidable (_ ∧ _))

inductive Json where
  | null
  | bool (value : Bool)
  | number (value : Number)
  | string (text : Text)
  | array (items : List Json)
  | object (members : List (Text × Json))

namespace Json

def ofText (text : String) : Json := .string text.toList

def ofMembers (members : List (Text × Json)) : Json := .object (Dict.ofList members)

def get? (json : Json) (key : Text) : Option Json :=
  match json with
  | .object members => Dict.get? members key
  | _ => none

end Json
end RoutePlan

import RoutePlan.Json

/-!
Request methods, their names, and which of them carry the payload as a body.
-/
namespace RoutePlan

inductive Method where
  | get
  | post
  | put
  | patch
  | delete
  deriving DecidableEq

namespace Method

def all : List Method := [.get, .post, .put, .patch, .delete]

def text : Method → Text
  | .get => "GET".toList
  | .post => "POST".toList
  | .put => "PUT".toList
  | .patch => "PATCH".toList
  | .delete => "DELETE".toList

def hasBody : Method → Bool
  | .post | .put | .patch => true
  | .get | .delete => false

def ofText? (name : Text) : Option Method := all.find? (·.text = name)

/-- A method is its name, or an object with its name as the only key and null as the value. -/
def ofJson? : Json → Option Method
  | .string name => ofText? name
  | .object [(name, .null)] => ofText? name
  | _ => none

end Method
end RoutePlan

import RoutePlan.Text

/-!
Why a template cannot be had or a request cannot be planned, and the wording of each reason.
-/
namespace RoutePlan

inductive RouteError where
  | invalidParameterName (name : Text)
  | unknownAction (name : Text)
  deriving DecidableEq

def RouteError.message : RouteError → Text
  | .invalidParameterName name => name ++ " is not a valid parameter name.".toList
  | .unknownAction name => "Unknown action: ".toList ++ name

end RoutePlan

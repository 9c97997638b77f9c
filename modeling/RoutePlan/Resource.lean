import RoutePlan.Method
import RoutePlan.Route

/-!
Resources: a route with named actions. Planning an action lays the sources of its parameters over
one another and binds the route, or a URL among the parameters, to a request.
-/
namespace RoutePlan

structure Action where
  method : Method
  params : OrderedDict ParamSpec := .empty
  options : Dict Json := Dict.empty

namespace Action

def withParam (action : Action) (name : Text) (spec : ParamSpec) : Action :=
  { action with params := action.params.insert name spec }

def withOption (action : Action) (name : Text) (value : Json) : Action :=
  { action with options := action.options.insert name value }

def methodKey : Text := "method".toList
def paramsKey : Text := "params".toList

/-- An object with a method and, if need be, an object of parameters. Other members are options. -/
def ofJson? : Json → Option Action
  | .object members => do
    let method ← (Dict.get? members methodKey).bind Method.ofJson?
    let params ← match Dict.get? members paramsKey with
      | none => some Dict.empty
      | some (.object params) => some params
      | some _ => none
    return {
      method
      params := literalParams params
      options := members.filter fun (key, _) => key ≠ methodKey ∧ key ≠ paramsKey }
  | _ => none

end Action

def defaultActions : OrderedDict Action :=
  .ofList ([("get", .get), ("query", .get), ("create", .post), ("save", .post),
    ("update", .put), ("remove", .delete), ("delete", .delete)].map
    fun (name, method) => (name.toList, { method := method }))

structure RequestPlan where
  method : Method
  uri : Text
  body : Option Json
  options : Dict Json

def RequestPlan.toJson (plan : RequestPlan) : Json :=
  let body := match plan.body with
    | none => []
    | some body => [("body".toList, body)]
  let options := if plan.options.isEmpty then [] else [("options".toList, .object plan.options)]
  .object (("method".toList, .string plan.method.text) :: ("uri".toList, .string plan.uri) ::
    (body ++ options))

structure Resource where
  route : Route Unit
  paramDefaults : OrderedDict ParamSpec
  actions : OrderedDict Action

namespace Resource

def new (url : Text) (paramDefaults : OrderedDict ParamSpec) (actions : OrderedDict Action)
    (stripTrailingSlashes : Bool) : Except RouteError Resource := do
  let route ← Route.new url { stripTrailingSlashes }
  return { route, paramDefaults, actions := defaultActions.overlay actions }

def stripsTrailingSlashes (resource : Resource) : Bool :=
  resource.route.defaults.stripTrailingSlashes

def action? (resource : Resource) (name : Text) : Option Action := resource.actions.get? name

def actionNames (resource : Resource) : List Text := resource.actions.keys

def withDefaults (resource : Resource) (extra : OrderedDict ParamSpec) : Resource :=
  { resource with paramDefaults := resource.paramDefaults.overlay extra }

/-- The parameter that takes the place of the template when it is a string that is not empty. -/
def urlParam : Text := "url".toList

/-- The values in force: those of the caller over those of the action over those of the resource.
Only the latter two are resolved against the payload. -/
def boundParams (resource : Resource) (action : Action) (params : OrderedDict Json)
    (payload : Json) : OrderedDict Json :=
  (resolveParams payload (resource.paramDefaults.overlay action.params)).overlay params

def overridingUrl? (bound : OrderedDict Json) : Option Text :=
  match bound.get? urlParam with
  | some (.string url) => if url.isEmpty then none else some url
  | _ => none

def uriFor (resource : Resource) (bound : OrderedDict Json) : Except RouteError Text :=
  match overridingUrl? bound with
  | some url => (resource.route.bindUrl url bound ()).1
  | none => .ok (resource.route.bind bound ()).1

/-- Without a payload the specifications see null, and there is no body. -/
def plan (resource : Resource) (name : Text) (params : OrderedDict Json)
    (payload : Option Json) : Except RouteError RequestPlan :=
  match resource.action? name with
  | none => .error (.unknownAction name)
  | some action => do
    let uri ← resource.uriFor (resource.boundParams action params (payload.getD .null))
    return {
      method := action.method
      uri
      body := if action.method.hasBody then payload else none
      options := action.options }

end Resource
end RoutePlan

import RoutePlan.Catalog
import RoutePlan.CommandLine.Invocation

/-!
What an invocation prints, or the first of its stages that fails. Files are a function from paths to
contents, so that a run has no effect.
-/
namespace RoutePlan.CommandLine

inductive Failure where
  | invalidData
  | unreadableFile (path : Text)
  | invalidCatalog (path : Text) (reason : CatalogError)
  | unknownResource (name : Text)
  | invalidAssignment (raw : Text)
  | route (reason : RouteError)
  deriving DecidableEq

def Failure.message : Failure → Text
  | .invalidData => "--data is not valid JSON".toList
  | .unreadableFile path => "Could not read file ".toList ++ path
  | .invalidCatalog path _ => "Failed to load ".toList ++ path
  | .unknownResource name => "Unknown resource: ".toList ++ name
  | .invalidAssignment raw => "Expected NAME=VALUE, got '".toList ++ raw ++ ['\'']
  | .route reason => reason.message

def orElse {α : Type} (failure : Failure) : Option α → Except Failure α
  | some value => .ok value
  | none => .error failure

def params (assignments : List Text) : Except Failure (OrderedDict Json) := do
  return .ofList (← assignments.mapM fun raw =>
    orElse (.invalidAssignment raw) (parseAssignment? raw))

def slotJson (slot : Slot) : Json :=
  .object [("name".toList, .string slot.name), ("is_query_value".toList, .bool slot.isQueryValue)]

def payload (data : Option Text) : Except Failure (Option Json) :=
  match data with
  | none => .ok none
  | some text => orElse .invalidData ((Json.parse? text).map some)

def catalog (contents? : Text → Option Text) (path : Text) : Except Failure Catalog := do
  let text ← orElse (.unreadableFile path) (contents? path)
  (Catalog.parse text).mapError (.invalidCatalog path)

def planText (plan : RequestPlan) : Text :=
  let options := if plan.options.isEmpty then [] else '\n' :: (Json.object plan.options).pretty
  let body := match plan.body with
    | none => []
    | some body => '\n' :: body.pretty
  plan.method.text ++ ' ' :: (plan.uri ++ options ++ body)

/-- The stages come in the order in which their failures count. -/
def Invocation.run (contents? : Text → Option Text) : Invocation → Except Failure Text
  | .bind template assignments keepTrailingSlashes => do
    let route : Route Unit ←
      (Route.new template { stripTrailingSlashes := !keepTrailingSlashes }).mapError .route
    return (route.bind (← params assignments) ()).1
  | .slots template => do
    let template ← (Template.parse template).mapError .route
    return (Json.array (template.slots.map slotJson)).pretty
  | .plan routes resource action assignments data => do
    let payload ← payload data
    let catalog ← catalog contents? routes
    let resource ← orElse (.unknownResource resource) (catalog.get? resource)
    let params ← params assignments
    let plan ← (resource.plan action params payload).mapError .route
    return planText plan

structure Outcome where
  exitCode : UInt32
  text : Text
  deriving DecidableEq

def Invocation.outcome (contents? : Text → Option Text) (invocation : Invocation) : Outcome :=
  match invocation.run contents? with
  | .ok text => ⟨0, text⟩
  | .error failure => ⟨1, failure.message⟩

end RoutePlan.CommandLine

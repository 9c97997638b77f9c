import RoutePlan.Resource
import RoutePlan.Yaml.Reading

/-!
Settings of resources as a YAML document lists them. Reading checks their form only: whether a URL
is a template is not asked here.
-/
namespace RoutePlan

structure Settings where
  name : Text
  url : Text
  params : OrderedDict ParamSpec
  stripTrailingSlashes : Option Bool
  actions : OrderedDict Action

namespace Settings

open Yaml

def methodOf (node : Node) : Reading Method := do
  match ← Reading.follow node with
  | .scalar tag style text =>
    match tag.bind Tag.localName? with
    | none => Reading.require (Method.ofText? text)
    | some name =>
      if style = .plain ∧ (text = [] ∨ Meaning.isNull text) then
        Reading.require (Method.ofText? name)
      else failure
  | _ => failure

def paramsOf (enclosing : Nat) (node : Node) : Reading (OrderedDict ParamSpec) :=
  Reading.dict (fun value =>
    .literal <$> Reading.json .scalar (Reading.depthLimit - enclosing - 1) value) node

def actionOf (enclosing : Nat) (node : Node) : Reading Action := do
  let fields ← Reading.fields node
  let method ← Reading.fieldOr fields Action.methodKey failure methodOf
  let params ← Reading.fieldOr fields Action.paramsKey (pure .empty) (paramsOf (enclosing + 1))
  let options ← (fields.filter fun (key, _) => key ≠ Action.methodKey ∧ key ≠ Action.paramsKey).mapM
    fun (key, value) =>
      return (key, ← Reading.json .string (Reading.depthLimit - enclosing - 1) value)
  return { method, params, options := Dict.ofList options }

def entryOf (enclosing : Nat) (node : Node) : Reading Settings := do
  let fields ← Reading.fields node
  return {
    name := ← Reading.fieldOr fields "name".toList failure Reading.text
    url := ← Reading.fieldOr fields "url".toList failure Reading.text
    params := ← Reading.fieldOr fields "params".toList (pure .empty) (paramsOf (enclosing + 1))
    stripTrailingSlashes := ← Reading.fieldOr fields "strip_trailing_slashes".toList (pure none)
      Reading.bool?
    actions := ← Reading.fieldOr fields "actions".toList (pure .empty)
      (Reading.dict (actionOf (enclosing + 2))) }

def listOf (node : Node) : Reading (List Settings) := do
  (← Reading.items node).mapM (entryOf 1)

def parse? (text : Text) : Option (List Settings) := do
  (← Document.parse? text).read? [] listOf

/-- Slashes at the end are stripped unless the settings say otherwise. -/
def toResource (settings : Settings) : Except RouteError Resource :=
  Resource.new settings.url settings.params settings.actions
    (settings.stripTrailingSlashes.getD true)

end Settings
end RoutePlan

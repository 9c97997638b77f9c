import RoutePlan.Param
import RoutePlan.Template.Parse
import RoutePlan.Route.Canonical

/-!
Routes: a template with defaults for its parameters. Binding fills the slots behind the scheme and
host, drops what absent values leave behind, and brings the path into its canonical form.

A default may be computed. A computed default is a step of a state `σ`, run once for each occurrence
that needs it, so that the state tells which were run and in what order.
-/
namespace RoutePlan

inductive ParamDefault (σ : Type) where
  | literal (value : Json)
  | computed (produce : StateM σ Json)

def ParamDefault.produce {σ : Type} : ParamDefault σ → StateM σ Json
  | .literal value => pure value
  | .computed produce => produce

structure RouteDefaults (σ : Type) where
  stripTrailingSlashes : Bool := true
  params : Dict (ParamDefault σ) := Dict.empty

def RouteDefaults.get? {σ : Type} (defaults : RouteDefaults σ) (name : Text) :
    StateM σ (Option Json) :=
  match defaults.params.get? name with
  | none => pure none
  | some default => some <$> default.produce

/-- How many characters `http://host` or `https://host` takes at the start; 0 without either. -/
def authorityLength (url : Text) : Nat :=
  match "http://".toList.isPrefixOf? url <|> "https://".toList.isPrefixOf? url with
  | none => 0
  | some rest => url.length - rest.length + (rest.takeWhile (· != '/')).length

namespace Template

inductive Segment where
  | text (text : Text)
  | slot (slot : Slot) (beforeSlash : Bool)
  deriving DecidableEq

/-- Walks the parts with the offset at which each begins in the unescaped text `raw`. A literal that
crosses `limit` is cut there, and a slot before it is not to be filled. -/
def segmentsFrom (raw : Text) (limit : Nat) (slots : List Slot) : Nat → List Part → List Segment
  | _, [] => []
  | offset, .literal text :: rest =>
    let stop := offset + text.length
    let following := segmentsFrom raw limit slots stop rest
    if limit < stop then .text (text.drop (limit - offset)) :: following else following
  | offset, .slot index :: rest =>
    match slots[index]? with
    | none => segmentsFrom raw limit slots offset rest
    | some slot =>
      let stop := offset + slot.name.length + 1
      let following := segmentsFrom raw limit slots stop rest
      if limit ≤ offset then .slot slot ((raw.drop stop).head? == some '/') :: following
      else following

def segments (template : Template) : List Segment :=
  let raw := template.unescaped
  segmentsFrom raw (authorityLength raw) template.slots 0 template.parts

def authority (template : Template) : Text :=
  let raw := template.unescaped
  raw.take (authorityLength raw)

end Template

structure Route (σ : Type) where
  template : Template
  defaults : RouteDefaults σ

namespace Route
variable {σ : Type}

def new (source : Text) (defaults : RouteDefaults σ) : Except RouteError (Route σ) := do
  return ⟨← Template.parse source, defaults⟩

/-- The text for a slot. A value of the caller counts even if it is null, and only a name that the
caller leaves out has recourse to its default. -/
def textFor (route : Route σ) (params : Dict Json) (name : Text) : StateM σ (Option Text) := do
  match params.get? name with
  | some value => return value.paramText?
  | none => return (← route.defaults.get? name).bind Json.paramText?

/-- Appends a segment to the path. A slot without text takes along one of the slashes around it. -/
def extend (route : Route σ) (params : Dict Json) (path : Text) :
    Template.Segment → StateM σ Text
  | .text text => return path ++ text
  | .slot slot beforeSlash => do
    match ← route.textFor params slot.name with
    | some text => return path ++ slot.encoding.encode text
    | none => return if beforeSlash && path.getLast? == some '/' then path.dropLast else path

def expand (route : Route σ) (template : Template) (params : Dict Json) : StateM σ Text := do
  let path ← template.segments.foldlM (route.extend params) []
  return template.authority ++ canonicalize route.defaults.stripTrailingSlashes path

def bind (route : Route σ) (params : Dict Json) : StateM σ Text :=
  route.expand route.template params

def bindUrl (route : Route σ) (url : Text) (params : Dict Json) :
    StateM σ (Except RouteError Text) := do
  match Template.parse url with
  | .error error => return .error error
  | .ok template => return .ok (← route.expand template params)

end Route
end RoutePlan

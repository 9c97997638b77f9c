import RoutePlan.Proofs.Route.Filling
import RoutePlan.Resource

/-!
Planning by layers. The value of a parameter is that of the uppermost layer that has one, and the
plan depends on the parameters only through these values.
-/
namespace RoutePlan

namespace Resource

/-- Resources as they can come about: made from a URL, or from another resource by extending its
defaults. -/
inductive Built : Resource → Prop where
  | new {url : Text} {paramDefaults : OrderedDict ParamSpec} {actions : OrderedDict Action}
      {strip : Bool} {resource : Resource}
      (made : Resource.new url paramDefaults actions strip = .ok resource) : Built resource
  | withDefaults {resource : Resource} (built : Built resource) (extra : OrderedDict ParamSpec) :
      Built (resource.withDefaults extra)

/-- The value of a parameter: the caller's as it is, else that of the action, else that of the
resource, both resolved against the payload. -/
def layered (resource : Resource) (action : Action) (params : OrderedDict Json)
    (payload : Json) (name : Text) : Option Json :=
  match params.get? name with
  | some value => some value
  | none => match action.params.get? name with
    | some spec => some (spec.resolve payload)
    | none => (resource.paramDefaults.get? name).map (ParamSpec.resolve payload)

/-- The template in force: that of a string that is not empty, else the resource's own. -/
def templateFor (resource : Resource) : Option Json → Except RouteError Template
  | some (.string (c :: url)) => Template.parse (c :: url)
  | _ => .ok resource.route.template

structure Invariant (resource : Resource) : Prop where
  noRouteDefaults : resource.route.defaults =
    { stripTrailingSlashes := resource.stripsTrailingSlashes }
  parsed : ∃ source, Template.parse source = .ok resource.route.template

theorem new_eq_ok_iff {url : Text} {paramDefaults : OrderedDict ParamSpec}
    {actions : OrderedDict Action} {strip : Bool} {resource : Resource} :
    Resource.new url paramDefaults actions strip = .ok resource ↔
      Template.parse url = .ok resource.route.template ∧
        resource.route.defaults = { stripTrailingSlashes := strip } ∧
        resource.paramDefaults = paramDefaults ∧
        resource.actions = defaultActions.overlay actions := by
  obtain ⟨⟨template, defaults⟩, ownDefaults, ownActions⟩ := resource
  unfold Resource.new Route.new
  cases Template.parse url with
  | error error => simp [Bind.bind, Except.bind]
  | ok parsed =>
    simp only [Bind.bind, Except.bind, pure, Except.pure, Except.ok.injEq, Resource.mk.injEq,
      Route.mk.injEq]
    constructor
    · rintro ⟨⟨rfl, rfl⟩, rfl, rfl⟩
      exact ⟨rfl, rfl, rfl, rfl⟩
    · rintro ⟨rfl, rfl, rfl, rfl⟩
      exact ⟨⟨rfl, rfl⟩, rfl, rfl⟩

theorem Built.invariant {resource : Resource} (built : Built resource) : Invariant resource := by
  induction built with
  | @new url paramDefaults actions strip resource made =>
    obtain ⟨parsed, defaults, -⟩ := new_eq_ok_iff.mp made
    refine ⟨?_, url, parsed⟩
    rw [stripsTrailingSlashes, defaults]
  | withDefaults built extra ih => exact ⟨ih.noRouteDefaults, ih.parsed⟩

theorem get?_boundParams (resource : Resource) (action : Action) (params : OrderedDict Json)
    (payload : Json) (name : Text) :
    (resource.boundParams action params payload).get? name =
      resource.layered action params payload name := by
  rw [boundParams, OrderedDict.get?_overlay, resolveParams, OrderedDict.get?_mapValues,
    OrderedDict.get?_overlay, layered]
  cases params.get? name with
  | some value => rfl
  | none => cases action.params.get? name <;> rfl

theorem uriFor_eq (resource : Resource) (bound : OrderedDict Json) :
    resource.uriFor bound = (resource.templateFor (bound.get? urlParam)).map fun template =>
      (resource.route.expand template bound ()).1 := by
  unfold uriFor overridingUrl? templateFor
  cases bound.get? urlParam with
  | none => rfl
  | some value =>
    cases value with
    | string text =>
      cases text with
      | nil => rfl
      | cons c url =>
        simp only [List.isEmpty_cons, Bool.false_eq_true, if_false, Route.bindUrl]
        cases Template.parse (c :: url) <;> rfl
    | _ => rfl

theorem plan_registered {resource : Resource} {name : Text} {action : Action}
    (registered : resource.action? name = some action) (params : OrderedDict Json)
    (payload : Option Json) :
    resource.plan name params payload =
      (resource.uriFor (resource.boundParams action params (payload.getD .null))).map fun uri => {
        method := action.method
        uri := uri
        body := if action.method.hasBody then payload else none
        options := action.options } := by
  rw [plan, registered]
  dsimp only
  cases resource.uriFor (resource.boundParams action params (payload.getD .null)) <;> rfl

/-- Planning a registered action binds the template in force with the layered parameters, under no
defaults but the resource's way with slashes. It fails where the override does not parse, and takes
all else from the action and the payload. -/
theorem plan_layers {resource : Resource} (built : Built resource) {name : Text} {action : Action}
    (registered : resource.action? name = some action) (params : OrderedDict Json)
    (payload : Option Json) :
    (∃ bound : Dict Json, ∀ parameter,
      bound.get? parameter = resource.layered action params (payload.getD .null) parameter) ∧
    ∀ bound : Dict Json,
      (∀ parameter,
        bound.get? parameter = resource.layered action params (payload.getD .null) parameter) →
      resource.plan name params payload =
        (resource.templateFor (bound.get? urlParam)).map fun template => {
          method := action.method
          uri := (Route.bind (σ := Unit)
            ⟨template, { stripTrailingSlashes := resource.stripsTrailingSlashes }⟩ bound ()).1
          body := if action.method = .post ∨ action.method = .put ∨ action.method = .patch
            then payload else none
          options := action.options } := by
  obtain ⟨noRouteDefaults, -⟩ := built.invariant
  have layers := resource.get?_boundParams action params (payload.getD .null)
  refine ⟨⟨_, layers⟩, fun bound same => ?_⟩
  -- The order of the entries in `bound` does not matter, for binding looks values up by name.
  have agrees : ∀ parameter,
      (resource.boundParams action params (payload.getD .null)).get? parameter =
        bound.get? parameter :=
    fun parameter => (layers parameter).trans (same parameter).symm
  have body : (if action.method.hasBody then payload else none) =
      if action.method = .post ∨ action.method = .put ∨ action.method = .patch
        then payload else none := by
    cases action.method <;> rfl
  rw [plan_registered registered, uriFor_eq, agrees, body]
  cases resource.templateFor (bound.get? urlParam) with
  | error error => rfl
  | ok template =>
    have uri : resource.route.expand template
        (resource.boundParams action params (payload.getD .null)) =
        Route.bind ⟨template, { stripTrailingSlashes := resource.stripsTrailingSlashes }⟩
          bound := by
      rw [resource.route.expand_congr template fun slot _ => agrees slot.name, ← noRouteDefaults]
      rfl
    simp only [Except.map, ← uri]

/-- The URL comes from the payload, the action's key hides the resource's, and the caller's text is
no path into the payload. -/
theorem plan_layers_url_from_payload :
    ∃ resource : Resource,
      Resource.new "/:id".toList
        (.ofList [(urlParam, .literal (.ofText "@link")), (['i', 'd'], .literal .null)])
        (.ofList [("send".toList,
          { method := .post, params := .ofList [(['i', 'd'], .literal (.ofText "@key"))] })])
        true = .ok resource ∧
      (resource.plan "send".toList (.ofList [(['x'], .ofText "@key")])
        (some (.object [("key".toList, .ofText "7"), ("link".toList, .ofText "/v/:id/:x/")]))).map
          RequestPlan.uri = .ok "/v/7/@key".toList := by
  let params : OrderedDict Json := .ofList [(['x'], .ofText "@key")]
  let payload : Json :=
    .object [("key".toList, .ofText "7"), ("link".toList, .ofText "/v/:id/:x/")]
  let send : Action :=
    { method := .post, params := .ofList [(['i', 'd'], .literal (.ofText "@key"))] }
  have made : Resource.new "/:id".toList
      (.ofList [(urlParam, .literal (.ofText "@link")), (['i', 'd'], .literal .null)])
      (.ofList [("send".toList, send)]) true = .ok ⟨⟨_, _⟩, _, _⟩ :=
    new_eq_ok_iff.mpr ⟨if_neg (by decide), rfl, rfl, rfl⟩
  have planned := (@plan_layers _ (.new made) "send".toList _ rfl params (some payload)).2 _
    (get?_boundParams _ send params payload)
  refine ⟨_, made, ?_⟩
  rw [planned]
  have parsed : Template.parse "/v/:id/:x/".toList = .ok _ := if_neg (by decide)
  change Except.map _ (Except.map _ (Template.parse "/v/:id/:x/".toList)) = _
  rw [parsed]
  exact congrArg Except.ok (by decide +kernel)

end Resource
end RoutePlan

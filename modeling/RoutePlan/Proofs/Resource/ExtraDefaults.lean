import RoutePlan.Proofs.Resource.Dependence
import RoutePlan.Proofs.Resource.Failure

/-!
Extended defaults. To extend the defaults of a resource is to give the values of the extra ones at
each call, under the names that neither the caller nor the action has. To extend them twice is to
extend them once, by the later ones over the earlier.
-/
namespace RoutePlan

def OrderedDict.Overlaid {α : Type _} (earlier later both : OrderedDict α) : Prop :=
  ∀ name, both.get? name = (later.get? name).or (earlier.get? name)

namespace Resource

def ownSpec? (resource : Resource) (name parameter : Text) : Option ParamSpec :=
  (resource.action? name).bind fun action => action.params.get? parameter

/-- The parameters `others` are those of the caller and, where neither the caller nor the action has
a name, the extra defaults resolved against the payload. -/
structure Supplements (resource : Resource) (extra : OrderedDict ParamSpec) (name : Text)
    (params : OrderedDict Json) (payload : Option Json) (others : OrderedDict Json) : Prop where
  caller : ∀ parameter value, params.get? parameter = some value →
    others.get? parameter = some value
  action : ∀ parameter spec, params.get? parameter = none →
    resource.ownSpec? name parameter = some spec → others.get? parameter = none
  extra : ∀ parameter, params.get? parameter = none → resource.ownSpec? name parameter = none →
    others.get? parameter = (extra.get? parameter).map (ParamSpec.resolve (payload.getD .null))

variable {resource : Resource} {extra : OrderedDict ParamSpec} {name : Text}
  {params : OrderedDict Json} {payload : Option Json}

def yielding (resource : Resource) (extra : OrderedDict ParamSpec) (name : Text) :
    OrderedDict ParamSpec :=
  .ofDict (extra.entries.filter fun entry => (resource.ownSpec? name entry.1).isNone)

theorem get?_yielding (resource : Resource) (extra : OrderedDict ParamSpec)
    (name parameter : Text) :
    (resource.yielding extra name).get? parameter =
      if (resource.ownSpec? name parameter).isNone then extra.get? parameter else none :=
  (OrderedDict.get?_ofDict _ parameter).trans
    (Dict.get?_filter (fun parameter => (resource.ownSpec? name parameter).isNone) _ parameter)

theorem exists_supplements (resource : Resource) (extra : OrderedDict ParamSpec) (name : Text)
    (params : OrderedDict Json) (payload : Option Json) :
    ∃ others, resource.Supplements extra name params payload others := by
  have reads (parameter : Text) :
      ((resolveParams (payload.getD .null) (resource.yielding extra name)).overlay params).get?
        parameter = (params.get? parameter).or (if (resource.ownSpec? name parameter).isNone
          then (extra.get? parameter).map (ParamSpec.resolve (payload.getD .null)) else none) := by
    rw [OrderedDict.get?_overlay, resolveParams, OrderedDict.get?_mapValues, get?_yielding]
    split <;> rfl
  refine ⟨(resolveParams (payload.getD .null) (resource.yielding extra name)).overlay params,
    ?_, ?_, ?_⟩
  · intro parameter value given
    rw [reads, given, Option.some_or]
  · intro parameter spec absent own
    rw [reads, absent, own]
    rfl
  · intro parameter absent noOwn
    rw [reads, absent, noOwn]
    rfl

theorem plan_eq_of_layered {other : Resource} (built : Built resource)
    (sameRoute : other.route = resource.route) (sameActions : other.actions = resource.actions)
    {others : OrderedDict Json}
    (agree : ∀ action, resource.action? name = some action → ∀ parameter,
      other.layered action params (payload.getD .null) parameter =
        resource.layered action others (payload.getD .null) parameter) :
    other.plan name params payload = resource.plan name others payload := by
  cases registered : resource.action? name with
  | none =>
    have otherUnregistered : other.action? name = none := by
      rw [action?, sameActions]
      exact registered
    rw [plan, plan, otherUnregistered, registered]
  | some action =>
    have same := agree action registered
    apply plan_congr built sameRoute sameActions registered
    · rw [same]
    · intro template inForce parameter occurs
      exact same parameter

theorem get?_withDefaults (resource : Resource) (extra : OrderedDict ParamSpec)
    (parameter : Text) :
    (resource.withDefaults extra).paramDefaults.get? parameter =
      (extra.get? parameter).or (resource.paramDefaults.get? parameter) :=
  resource.paramDefaults.get?_overlay extra parameter

theorem layered_withDefaults (resource : Resource) (extra : OrderedDict ParamSpec)
    (action : Action) (params : OrderedDict Json) (payload : Json) (parameter : Text) :
    (resource.withDefaults extra).layered action params payload parameter =
      match params.get? parameter with
      | some value => some value
      | none => match action.params.get? parameter with
        | some spec => some (spec.resolve payload)
        | none => ((extra.get? parameter).or (resource.paramDefaults.get? parameter)).map
            (ParamSpec.resolve payload) := by
  have laid := resource.get?_withDefaults extra parameter
  unfold layered
  cases params.get? parameter with
  | some value => rfl
  | none =>
    cases action.params.get? parameter with
    | some spec => rfl
    | none => exact congrArg (Option.map (ParamSpec.resolve payload)) laid

theorem plan_of_supplements (built : Built resource) {others : OrderedDict Json}
    (supplements : resource.Supplements extra name params payload others) :
    (resource.withDefaults extra).plan name params payload =
      resource.plan name others payload := by
  have sameRoute : (resource.withDefaults extra).route = resource.route := rfl
  refine plan_eq_of_layered built sameRoute rfl ?_
  intro action registered parameter
  have own : resource.ownSpec? name parameter = action.params.get? parameter := by
    rw [ownSpec?, registered, Option.bind_some]
  rw [layered_withDefaults, layered]
  cases given : params.get? parameter with
  | some value => rw [supplements.caller parameter value given]
  | none =>
    cases ofAction : action.params.get? parameter with
    | some spec => rw [supplements.action parameter spec given (own.trans ofAction)]
    | none =>
      rw [supplements.extra parameter given (own.trans ofAction)]
      cases extra.get? parameter <;> rfl

theorem plan_withDefaults_twice (built : Built resource) {later both : OrderedDict ParamSpec}
    (overlaid : OrderedDict.Overlaid extra later both) :
    ((resource.withDefaults extra).withDefaults later).plan name params payload =
      (resource.withDefaults both).plan name params payload := by
  have sameRoute : ((resource.withDefaults extra).withDefaults later).route =
      (resource.withDefaults both).route := rfl
  refine plan_eq_of_layered (.withDefaults built both) sameRoute rfl ?_
  intro action registered parameter
  rw [layered_withDefaults, layered_withDefaults, get?_withDefaults, overlaid, Option.or_assoc]

/-- A resource with extra defaults plans every call as the resource itself plans it with the extra
values given by the caller, where neither the caller nor the action has the name, and fails where
it fails. With further defaults on top it plans as with the two laid over one another. -/
theorem plan_withDefaults (built : Built resource) (extra : OrderedDict ParamSpec) (name : Text)
    (params : OrderedDict Json) (payload : Option Json) :
    (∃ others, resource.Supplements extra name params payload others) ∧
    (∀ others, resource.Supplements extra name params payload others →
      (resource.withDefaults extra).plan name params payload =
        resource.plan name others payload) ∧
    ∀ later : OrderedDict ParamSpec,
      (∃ both, OrderedDict.Overlaid extra later both) ∧
      ∀ both, OrderedDict.Overlaid extra later both →
        ((resource.withDefaults extra).withDefaults later).plan name params payload =
          (resource.withDefaults both).plan name params payload := by
  refine ⟨exists_supplements resource extra name params payload, ?_, ?_⟩
  · intro others supplements
    exact plan_of_supplements built supplements
  · intro later
    refine ⟨⟨extra.overlay later, extra.get?_overlay later⟩, ?_⟩
    intro both overlaid
    exact plan_withDefaults_twice built overlaid

/-- The URL of the extra defaults fails where it is in force. The action that has a URL of its own,
if only null, does not see it, and sees the later of two identifiers. -/
theorem plan_withDefaults_of_extra_url :
    ∃ resource : Resource,
      Resource.new "/:id".toList .empty (.ofList [("send".toList,
          { method := .post, params := .ofList [(urlParam, .literal .null)] })]) true =
        .ok resource ∧
      (resource.withDefaults (.ofList [(['i', 'd'], .literal (.ofText "7")),
          (urlParam, .literal (.ofText "@link"))])).plan "get".toList .empty
          (some (.object [("link".toList, .ofText "/:hasOwnProperty")])) =
        .error (.invalidParameterName "hasOwnProperty".toList) ∧
      (((resource.withDefaults (.ofList [(['i', 'd'], .literal (.ofText "7")),
          (urlParam, .literal (.ofText "@link"))])).withDefaults
            (.ofList [(['i', 'd'], .literal (.ofText "8"))])).plan "send".toList .empty
          (some (.object [("link".toList, .ofText "/:hasOwnProperty")]))).map RequestPlan.uri =
        .ok "/8".toList := by
  let send : Action := { method := .post, params := .ofList [(urlParam, .literal .null)] }
  let extra : OrderedDict ParamSpec :=
    .ofList [(['i', 'd'], .literal (.ofText "7")), (urlParam, .literal (.ofText "@link"))]
  let later : OrderedDict ParamSpec := .ofList [(['i', 'd'], .literal (.ofText "8"))]
  let both : OrderedDict ParamSpec :=
    .ofList [(['i', 'd'], .literal (.ofText "8")), (urlParam, .literal (.ofText "@link"))]
  let payload : Json := .object [("link".toList, .ofText "/:hasOwnProperty")]
  have made : Resource.new "/:id".toList .empty (.ofList [("send".toList, send)]) true =
      .ok ⟨⟨_, _⟩, _, _⟩ := new_eq_ok_iff.mpr ⟨if_neg (by decide), rfl, rfl, rfl⟩
  have built := Built.new made
  have run : Text.HasRun "/:hasOwnProperty".toList "hasOwnProperty".toList :=
    (Text.mem_wordRuns_iff _ _).mp (by decide)
  refine ⟨_, made, ?_, ?_⟩
  · obtain ⟨-, planned, -⟩ := plan_withDefaults built extra "get".toList .empty (some payload)
    rw [planned (resolveParams payload extra) ?_]
    · exact (plan_eq_error_iff _ _ _ _ _).mpr (.reserved rfl rfl (by decide) run)
    · refine ⟨?_, ?_, ?_⟩
      · intro parameter value given
        exact absurd given (Option.some_ne_none value).symm
      · intro parameter spec absent own
        exact absurd own (Option.some_ne_none spec).symm
      · intro parameter absent noOwn
        exact OrderedDict.get?_mapValues _ _ _
  · obtain ⟨-, -, twice⟩ := plan_withDefaults built extra "send".toList .empty (some payload)
    have overlaid : OrderedDict.Overlaid extra later both := extra.get?_overlay later
    rw [(twice later).2 both overlaid]
    exact congrArg Except.ok (by decide +kernel)

end Resource
end RoutePlan

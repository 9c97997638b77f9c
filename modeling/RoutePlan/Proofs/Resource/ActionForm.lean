import RoutePlan.Proofs.Resource.Layers

/-!
Actions as objects. Two keys of an object are read, and its other members are passed on: they reach
the plan as they are, and nothing else in the plan depends on them.
-/
namespace RoutePlan

inductive Method.Named (method : Method) : Json → Prop where
  | alone : method.Named (.string method.text)
  | asKey : method.Named (.object [(method.text, .null)])

theorem Method.ofText?_eq_some_iff (name : Text) (method : Method) :
    ofText? name = some method ↔ name = method.text := by
  constructor
  · intro found
    have same := List.find?_some found
    exact (of_decide_eq_true same).symm
  · rintro rfl
    cases method <;> decide

theorem Method.ofJson?_eq_some_iff (json : Json) (method : Method) :
    ofJson? json = some method ↔ method.Named json := by
  constructor
  · intro found
    unfold ofJson? at found
    split at found
    · rw [(ofText?_eq_some_iff _ method).mp found]
      exact .alone
    · rw [(ofText?_eq_some_iff _ method).mp found]
      exact .asKey
    · cases found
  · intro named
    cases named with
    | alone => exact (ofText?_eq_some_iff _ method).mpr rfl
    | asKey => exact (ofText?_eq_some_iff _ method).mpr rfl

/-- What a value under `params` stands for: the value at a path of the payload, null if there is
none, or the value itself. -/
inductive ParamSpec.Meant (payload : Json) : Json → Json → Prop where
  | path (path : Text) :
      Meant payload (.string ('@' :: path)) ((payload.atPath? path).getD .null)
  | itself {value : Json} (noPath : ∀ path, value ≠ .string ('@' :: path)) :
      Meant payload value value

theorem ParamSpec.meant_resolve (payload value : Json) :
    Meant payload value ((ParamSpec.literal value).resolve payload) := by
  unfold resolve
  split
  · rename_i path same
    cases same
    exact .path path
  · rename_i noPath same
    cases same
    exact .itself noPath
  · contradiction

theorem get?_literalParams (given : Dict Json) (name : Text) :
    (literalParams given).get? name = (given.get? name).map .literal := by
  rw [literalParams, OrderedDict.get?_mapValues, OrderedDict.get?_ofDict]

theorem meant_resolveParams (payload : Json) (given : Dict Json) (name : Text) :
    Option.Rel (ParamSpec.Meant payload) (given.get? name)
      ((resolveParams payload (literalParams given)).get? name) := by
  rw [resolveParams, OrderedDict.get?_mapValues, get?_literalParams]
  cases given.get? name with
  | none => exact .none
  | some value => exact .some (ParamSpec.meant_resolve payload value)

namespace Action

/-- The members of an action: a method, and an object of parameters, which may be left out. -/
structure Form (members : Dict Json) (method : Method) (given : Dict Json) : Prop where
  method : ∃ json, members.get? "method".toList = some json ∧ method.Named json
  params : members.get? "params".toList = some (.object given) ∨
    members.get? "params".toList = none ∧ given = []

structure PassedOn (members options : Dict Json) : Prop where
  inOrder : options.Sublist members
  exactly : ∀ key value, (key, value) ∈ options ↔
    (key, value) ∈ members ∧ key ≠ "method".toList ∧ key ≠ "params".toList

structure Split (members : Dict Json) (action : Action) : Prop where
  known : ∃ given, Form members action.method given ∧
    (∀ name, action.params.get? name = (given.get? name).map .literal) ∧
    ∀ payload name, Option.Rel (ParamSpec.Meant payload) (given.get? name)
      ((resolveParams payload action.params).get? name)
  passedOn : PassedOn members action.options

theorem passedOn_filter (members : Dict Json) :
    PassedOn members (members.filter fun (key, _) => key ≠ methodKey ∧ key ≠ paramsKey) where
  inOrder := List.filter_sublist
  exactly key value := by
    rw [List.mem_filter, decide_eq_true_iff]
    rfl

theorem ofJson?_of_form {members given : Dict Json} {method : Method}
    (form : Form members method given) :
    ofJson? (.object members) = some {
      method
      params := literalParams given
      options := members.filter fun (key, _) => key ≠ methodKey ∧ key ≠ paramsKey } := by
  obtain ⟨json, named, isMethod⟩ := form.method
  have atMethod : Dict.get? members methodKey = some json := named
  have read : (Dict.get? members methodKey).bind Method.ofJson? = some method := by
    rw [atMethod]
    exact (Method.ofJson?_eq_some_iff json method).mpr isMethod
  rcases form.params with there | ⟨absent, empty⟩
  · have atParams : Dict.get? members paramsKey = some (.object given) := there
    simp only [ofJson?, read, atParams, Option.bind_eq_bind, Option.bind_some]
    rfl
  · have atParams : Dict.get? members paramsKey = none := absent
    subst empty
    simp only [ofJson?, read, atParams, Option.bind_eq_bind, Option.bind_some]
    rfl

theorem form_of_ofJson? {json : Json} {action : Action} (made : ofJson? json = some action) :
    ∃ members method given, json = .object members ∧ Form members method given := by
  unfold ofJson? at made
  split at made
  · rename_i members
    obtain ⟨method, read, more⟩ := Option.bind_eq_some_iff.mp made
    obtain ⟨named, there, isMethod⟩ := Option.bind_eq_some_iff.mp read
    have hasMethod : ∃ json, Dict.get? members methodKey = some json ∧ method.Named json :=
      ⟨named, there, (Method.ofJson?_eq_some_iff named method).mp isMethod⟩
    split at more
    · rename_i absent
      exact ⟨members, method, [], rfl, hasMethod, .inr ⟨absent, rfl⟩⟩
    · rename_i given there
      exact ⟨members, method, given, rfl, hasMethod, .inl there⟩
    · cases more
  · cases made

theorem split_of_ofJson? {members : Dict Json} {action : Action}
    (made : ofJson? (.object members) = some action) : Split members action := by
  obtain ⟨same, method, given, equal, form⟩ := form_of_ofJson? made
  cases equal
  rw [ofJson?_of_form form] at made
  cases made
  exact ⟨⟨given, form, get?_literalParams given, fun payload => meant_resolveParams payload given⟩,
    passedOn_filter members⟩

end Action

namespace Resource

theorem action?_new {url : Text} {paramDefaults : OrderedDict ParamSpec}
    {actions : OrderedDict Action} {strip : Bool} {resource : Resource}
    (made : Resource.new url paramDefaults actions strip = .ok resource) {name : Text}
    {action : Action} (given : actions.get? name = some action) :
    resource.action? name = some action := by
  obtain ⟨-, -, -, same⟩ := new_eq_ok_iff.mp made
  rw [action?, same, OrderedDict.get?_overlay, given]
  rfl

theorem plan_verbatim {resource : Resource} {name : Text} {action : Action}
    (registered : resource.action? name = some action) {params : OrderedDict Json}
    {payload : Option Json} {plan : RequestPlan}
    (planned : resource.plan name params payload = .ok plan) :
    plan.method = action.method ∧ plan.options = action.options := by
  rw [plan_registered registered] at planned
  cases found : resource.uriFor (resource.boundParams action params (payload.getD .null)) with
  | error error =>
    rw [found] at planned
    cases planned
  | ok uri =>
    rw [found] at planned
    cases planned
    exact ⟨rfl, rfl⟩

theorem plan_of_same_but_options {resource other : Resource}
    (sameRoute : other.route = resource.route)
    (sameDefaults : other.paramDefaults = resource.paramDefaults) {name : Text}
    {action changed : Action} (registered : resource.action? name = some action)
    (otherRegistered : other.action? name = some changed)
    (sameMethod : changed.method = action.method) (sameParams : changed.params = action.params)
    (params : OrderedDict Json) (payload : Option Json) :
    other.plan name params payload = (resource.plan name params payload).map fun plan =>
      { plan with options := changed.options } := by
  have sameUri : other.uriFor (other.boundParams changed params (payload.getD .null)) =
      resource.uriFor (resource.boundParams action params (payload.getD .null)) := by
    rw [uriFor, uriFor, boundParams, boundParams, sameRoute, sameDefaults, sameParams]
  rw [plan_registered registered, plan_registered otherRegistered, sameUri, sameMethod]
  cases resource.uriFor (resource.boundParams action params (payload.getD .null)) <;> rfl

end Resource

/-- An object is an action exactly if it has a method and no parameters but in an object. The action
has those as they are given, and as options all other members. Every resource that registers the
action copies the method and the options into its plans, and other options change nothing else in
them. -/
theorem action_of_object (json : Json) :
    ((∃ action, Action.ofJson? json = some action) ↔
      ∃ members method given, json = .object members ∧ Action.Form members method given) ∧
    ∀ (members : Dict Json) action, json = .object members → Action.ofJson? json = some action →
      Action.Split members action ∧
      (∀ url paramDefaults actions strip resource name,
        OrderedDict.get? actions name = some action →
        Resource.new url paramDefaults actions strip = .ok resource →
          resource.action? name = some action) ∧
      (∀ resource name params payload plan, Resource.action? resource name = some action →
        resource.plan name params payload = .ok plan →
          plan.method = action.method ∧ plan.options = action.options) ∧
      ∀ others : Dict Json,
        others.get? "method".toList = members.get? "method".toList →
        others.get? "params".toList = members.get? "params".toList →
        ∃ changed, Action.ofJson? (.object others) = some changed ∧
          Action.PassedOn others changed.options ∧
          ∀ resource other : Resource, ∀ name, other.route = resource.route →
            other.paramDefaults = resource.paramDefaults →
            resource.action? name = some action → other.action? name = some changed →
            ∀ params payload, other.plan name params payload =
              (resource.plan name params payload).map fun plan =>
                { plan with options := changed.options } := by
  refine ⟨⟨?_, ?_⟩, ?_⟩
  · rintro ⟨action, made⟩
    exact Action.form_of_ofJson? made
  · rintro ⟨members, method, given, rfl, form⟩
    exact ⟨_, Action.ofJson?_of_form form⟩
  · rintro members action rfl made
    refine ⟨Action.split_of_ofJson? made, ?_, ?_, ?_⟩
    · intro url paramDefaults actions strip resource name given made
      exact Resource.action?_new made given
    · intro resource name params payload plan registered planned
      exact Resource.plan_verbatim registered planned
    · intro others sameMethod sameParams
      obtain ⟨⟨given, form, params, -⟩, -⟩ := Action.split_of_ofJson? made
      have literal : literalParams given = action.params := by
        ext1 name
        rw [get?_literalParams, params]
      have formOthers : Action.Form others action.method given := by
        refine ⟨?_, ?_⟩
        · rw [sameMethod]
          exact form.method
        · rw [sameParams]
          exact form.params
      refine ⟨_, Action.ofJson?_of_form formOthers, Action.passedOn_filter others, ?_⟩
      intro resource other name sameRoute sameDefaults registered otherRegistered
      exact Resource.plan_of_same_but_options sameRoute sameDefaults registered otherRegistered rfl
        literal

theorem action_of_object_headers :
    ∃ action changed resource other request,
      Action.ofJson? (.object [("headers".toList, .object []),
        ("method".toList, .object [("POST".toList, .null)]),
        ("params".toList, .object [("id".toList, .ofText "@key")])]) = some action ∧
      Action.ofJson? (.object [("method".toList, .object [("POST".toList, .null)]),
        ("params".toList, .object [("id".toList, .ofText "@key")]),
        ("timeout".toList, .number (.int 5))]) = some changed ∧
      Resource.new "/:id".toList .empty (.ofList [("send".toList, action)]) true = .ok resource ∧
      Resource.new "/:id".toList .empty (.ofList [("send".toList, changed)]) true = .ok other ∧
      resource.plan "send".toList .empty (some (.object [("key".toList, .ofText "7")])) =
        .ok request ∧
      request.uri = "/7".toList ∧ request.options = [("headers".toList, .object [])] ∧
      other.plan "send".toList .empty (some (.object [("key".toList, .ofText "7")])) =
        .ok { request with options := [("timeout".toList, .number (.int 5))] } := by
  let payload : Json := .object [("key".toList, .ofText "7")]
  let params : Json := .object [("id".toList, .ofText "@key")]
  let method : Json := .object [("POST".toList, .null)]
  let members : Dict Json :=
    [("headers".toList, .object []), ("method".toList, method), ("params".toList, params)]
  let others : Dict Json :=
    [("method".toList, method), ("params".toList, params), ("timeout".toList, .number (.int 5))]
  let send : Action :=
    { method := .post, params := .ofList [("id".toList, .literal (.ofText "@key"))],
      options := [("headers".toList, .object [])] }
  let sendLater : Action := { send with options := [("timeout".toList, .number (.int 5))] }
  have made : Action.ofJson? (.object members) = some send := rfl
  have madeLater : Action.ofJson? (.object others) = some sendLater := rfl
  have computed : ((Resource.new "/:id".toList .empty (.ofList [("send".toList, send)]) true).bind
      fun resource => resource.plan "send".toList .empty (some payload)).map RequestPlan.uri =
        .ok "/7".toList := by
    decide +kernel
  obtain ⟨template, parsed⟩ : ∃ template, Template.parse "/:id".toList = .ok template :=
    ⟨_, if_neg (by decide)⟩
  let resource (action : Action) : Resource :=
    ⟨⟨template, {}⟩, .empty, defaultActions.overlay (.ofList [("send".toList, action)])⟩
  have built (action : Action) :
      Resource.new "/:id".toList .empty (.ofList [("send".toList, action)]) true =
        .ok (resource action) :=
    Resource.new_eq_ok_iff.mpr ⟨parsed, rfl, rfl, rfl⟩
  obtain ⟨-, reaches⟩ := action_of_object (.object members)
  obtain ⟨-, registers, verbatim, onlyOptions⟩ := reaches members send rfl made
  have registered := registers _ _ _ _ _ "send".toList rfl (built send)
  have registeredLater : (resource sendLater).action? "send".toList = some sendLater :=
    Resource.action?_new (built sendLater) rfl
  have methodThere : others.get? "method".toList = some method := rfl
  have paramsThere : others.get? "params".toList = some params := rfl
  obtain ⟨changed, madeChanged, -, planned⟩ := onlyOptions others methodThere paramsThere
  obtain rfl := Option.some.inj (madeLater.symm.trans madeChanged)
  rw [built] at computed
  cases request : (resource send).plan "send".toList .empty (some payload) with
  | error error =>
    simp only [Except.bind, request] at computed
    cases computed
  | ok plan =>
    simp only [Except.bind, request] at computed
    refine ⟨send, sendLater, _, _, plan, made, madeLater, built send, built sendLater, request,
      Except.ok.inj computed, (verbatim _ _ _ _ _ registered request).2, ?_⟩
    rw [planned (resource send) (resource sendLater) _ rfl rfl registered registeredLater, request]
    rfl

end RoutePlan

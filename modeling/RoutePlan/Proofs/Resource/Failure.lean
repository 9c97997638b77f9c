import RoutePlan.Proofs.Resource.Layers
import RoutePlan.Proofs.Template.Words

/-!
When a request cannot be planned. An action that is not there is reported whatever else is wrong;
after that only a URL among the parameters can fail, and only for a reserved word in it.
-/
namespace RoutePlan.Resource

inductive Failure (resource : Resource) (name : Text) (params : OrderedDict Json)
    (payload : Option Json) : RouteError → Prop where
  | unregistered (missing : resource.action? name = none) :
      Failure resource name params payload (.unknownAction name)
  | reserved {action : Action} {url : Text} (registered : resource.action? name = some action)
      (overrides : resource.layered action params (payload.getD .null) urlParam =
        some (.string url))
      (nonempty : url ≠ []) (run : url.HasRun "hasOwnProperty".toList) :
      Failure resource name params payload (.invalidParameterName "hasOwnProperty".toList)

theorem templateFor_eq_error_iff (resource : Resource) (url? : Option Json) (error : RouteError) :
    resource.templateFor url? = .error error ↔
      ∃ url, url? = some (.string url) ∧ url ≠ [] ∧ Template.parse url = .error error := by
  unfold templateFor
  split
  · rename_i c url
    constructor
    · intro rejected
      exact ⟨c :: url, rfl, by simp, rejected⟩
    · intro found
      obtain ⟨other, same, _, rejected⟩ := found
      cases same
      exact rejected
  · rename_i noUrl
    constructor
    · nofun
    · intro found
      obtain ⟨url, same, nonempty, _⟩ := found
      obtain ⟨c, rest, split⟩ := List.exists_cons_of_ne_nil nonempty
      subst split
      exact absurd same (noUrl c rest)

theorem uriFor_eq_error_iff (resource : Resource) (bound : OrderedDict Json)
    (error : RouteError) :
    resource.uriFor bound = .error error ↔
      ∃ url, bound.get? urlParam = some (.string url) ∧ url ≠ [] ∧
        Template.parse url = .error error := by
  rw [uriFor_eq, ← templateFor_eq_error_iff]
  cases resource.templateFor (bound.get? urlParam) <;> simp [Except.map]

theorem plan_registered_eq_error_iff {resource : Resource} {name : Text} {action : Action}
    (registered : resource.action? name = some action) (params : OrderedDict Json)
    (payload : Option Json) (error : RouteError) :
    resource.plan name params payload = .error error ↔
      resource.uriFor (resource.boundParams action params (payload.getD .null)) =
        .error error := by
  rw [plan_registered registered]
  cases resource.uriFor (resource.boundParams action params (payload.getD .null)) <;>
    simp [Except.map]

theorem plan_eq_error_iff (resource : Resource) (name : Text) (params : OrderedDict Json)
    (payload : Option Json) (error : RouteError) :
    resource.plan name params payload = .error error ↔
      Failure resource name params payload error := by
  cases lookup : resource.action? name with
  | none =>
    have unknown : resource.plan name params payload = .error (.unknownAction name) := by
      rw [plan, lookup]
    rw [unknown, Except.error.injEq]
    constructor
    · intro same
      subst same
      exact .unregistered lookup
    · intro failure
      cases failure with
      | unregistered missing => rfl
      | reserved registered => cases lookup.symm.trans registered
  | some action =>
    rw [plan_registered_eq_error_iff lookup, uriFor_eq_error_iff, get?_boundParams]
    constructor
    · intro found
      obtain ⟨url, overrides, nonempty, rejected⟩ := found
      obtain ⟨run, same⟩ := ((refusesReserved_parse url).fails error).mp rejected
      subst same
      exact .reserved lookup overrides nonempty run
    · intro failure
      cases failure with
      | unregistered missing => cases lookup.symm.trans missing
      | @reserved other url registered overrides nonempty run =>
        obtain rfl := Option.some.inj (lookup.symm.trans registered)
        exact ⟨url, overrides, nonempty,
          ((refusesReserved_parse url).fails _).mpr ⟨run, rfl⟩⟩

/-! ### Whatever reads a source -/

theorem refusesReserved_route {σ : Type} (source : Text) (defaults : RouteDefaults σ) :
    RefusesReserved source (Route.new source defaults) := by
  have made : Route.new source defaults =
      (Template.parse source).map fun template => ⟨template, defaults⟩ := by
    unfold Route.new
    cases Template.parse source <;> rfl
  rw [made]
  exact (refusesReserved_parse source).map _

theorem refusesReserved_new (source : Text) (paramDefaults : OrderedDict ParamSpec)
    (actions : OrderedDict Action) (strip : Bool) :
    RefusesReserved source (Resource.new source paramDefaults actions strip) := by
  have made : Resource.new source paramDefaults actions strip =
      (Route.new source { stripTrailingSlashes := strip }).map fun route =>
        ⟨route, paramDefaults, defaultActions.overlay actions⟩ := by
    unfold Resource.new
    cases Route.new source { stripTrailingSlashes := strip } <;> rfl
  rw [made]
  exact (refusesReserved_route source _).map _

theorem refusesReserved_bindUrl {σ : Type} (source : Text) (route : Route σ)
    (params : Dict Json) (s : σ) :
    RefusesReserved source (route.bindUrl source params s).1 := by
  have bound : (route.bindUrl source params s).1 =
      (Template.parse source).map fun template => (route.expand template params s).1 := by
    unfold Route.bindUrl
    cases Template.parse source <;> rfl
  rw [bound]
  exact (refusesReserved_parse source).map _

/-- Whatever reads a source fails for a reserved word in it and for nothing else, and planning fails
for the reasons of `Failure` and for nothing else, whatever the parameters are. -/
theorem planning_fails_iff (resource : Resource) (name : Text) (params : OrderedDict Json)
    (payload : Option Json) :
    (∀ source : Text, RefusesReserved source (Template.parse source) ∧
      (∀ (σ : Type) (defaults : RouteDefaults σ),
        RefusesReserved source (Route.new source defaults)) ∧
      (∀ paramDefaults actions strip,
        RefusesReserved source (Resource.new source paramDefaults actions strip)) ∧
      ∀ (σ : Type) (route : Route σ) (others : Dict Json) (s : σ),
        RefusesReserved source (route.bindUrl source others s).1) ∧
    (∀ error, resource.plan name params payload = .error error ↔
      Failure resource name params payload error) ∧
    ((∃ request, resource.plan name params payload = .ok request) ↔
      ∀ error, ¬ Failure resource name params payload error) := by
  have fails := resource.plan_eq_error_iff name params payload
  refine ⟨fun source => ⟨refusesReserved_parse source, fun σ => refusesReserved_route source,
    refusesReserved_new source, fun σ => refusesReserved_bindUrl source⟩, fails, ?_⟩
  constructor
  · intro found error failure
    obtain ⟨request, planned⟩ := found
    rw [(fails error).mpr failure] at planned
    cases planned
  · intro noFailure
    cases planned : resource.plan name params payload with
    | error error => exact absurd ((fails error).mp planned) (noFailure error)
    | ok request => exact ⟨request, rfl⟩

theorem planning_fails_iff_url_from_payload :
    ∃ resource : Resource,
      Resource.new "/:id".toList (.ofList [(urlParam, .literal (.ofText "@link"))]) .empty true =
        .ok resource ∧
      resource.plan "get".toList .empty
          (some (.object [("link".toList, .ofText "/x\\:hasOwnProperty/")])) =
        .error (.invalidParameterName "hasOwnProperty".toList) ∧
      resource.plan "archive".toList .empty
          (some (.object [("link".toList, .ofText "/x\\:hasOwnProperty/")])) =
        .error (.unknownAction "archive".toList) ∧
      ∃ request,
        resource.plan "get".toList (.ofList [(urlParam, .null)]) none = .ok request := by
  let payload : Json := .object [("link".toList, .ofText "/x\\:hasOwnProperty/")]
  have made : Resource.new "/:id".toList (.ofList [(urlParam, .literal (.ofText "@link"))]) .empty
      true = .ok ⟨⟨_, _⟩, _, _⟩ := new_eq_ok_iff.mpr ⟨if_neg (by decide), rfl, rfl, rfl⟩
  have run : Text.HasRun "/x\\:hasOwnProperty/".toList "hasOwnProperty".toList :=
    (Text.mem_wordRuns_iff _ _).mp (by decide)
  refine ⟨_, made, ?_, ?_, ?_⟩
  · obtain ⟨-, fails, -⟩ := planning_fails_iff _ "get".toList .empty (some payload)
    exact (fails _).mpr (.reserved rfl rfl (by decide) run)
  · obtain ⟨-, fails, -⟩ := planning_fails_iff _ "archive".toList .empty (some payload)
    exact (fails _).mpr (.unregistered rfl)
  · obtain ⟨-, -, succeeds⟩ :=
      planning_fails_iff _ "get".toList (.ofList [(urlParam, .null)]) none
    refine succeeds.mpr fun error failure => ?_
    cases failure with
    | unregistered missing => cases missing
    | reserved registered overrides => cases overrides

end RoutePlan.Resource

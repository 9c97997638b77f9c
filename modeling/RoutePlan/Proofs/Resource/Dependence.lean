import RoutePlan.Proofs.Resource.Layers

/-!
What binding and planning read of the parameters. Binding reads the names of the slots behind the
scheme and host, and planning those of the template in force and the name of the URL. What a caller
passes under other names is lost, also under the name of a slot that stands in the host only.
-/
namespace RoutePlan

/-- A slot of this name stands somewhere behind the scheme and host. -/
def Template.OccursBehind (template : Template) (name : Text) : Prop :=
  ∃ inside outside, template.tokens = inside ++ outside ∧
    LongestAuthority template.unescaped (Token.reading inside) ∧
    ∃ slot, Token.slot slot ∈ outside ∧ slot.name = name

def Dict.AgreeOn (names : Text → Prop) (params others : Dict Json) : Prop :=
  ∀ name, names name → params.get? name = others.get? name

namespace Template
variable {source : Text} {template : Template}

theorem source_of_parse (parsed : parse source = .ok template) : template.source = source := by
  rw [eq_ofPieces_of_parse parsed]
  rfl

theorem occursBehind_iff (parsed : parse source = .ok template) (name : Text) :
    template.OccursBehind name ↔ ∃ slot, Token.slot slot ∈ template.body ∧ slot.name = name := by
  obtain ⟨front, split, reads⟩ := tokens_split parsed
  have longest := template.longestAuthority_authority
  rw [← reads] at longest
  constructor
  · intro occurs
    obtain ⟨inside, outside, whole, otherLongest, slot, member, named⟩ := occurs
    -- A text has one longest scheme and host, so the tokens are cut in one way only.
    obtain ⟨-, same⟩ := Token.same_reading_same_front (whole.symm.trans split)
      (longestAuthority_unique otherLongest longest)
    exact ⟨slot, same ▸ member, named⟩
  · intro found
    exact ⟨front, template.body, split, longest, found⟩

end Template

theorem Route.expand_eq_of_agree {σ : Type} (route : Route σ) {source : Text}
    {template : Template} (parsed : Template.parse source = .ok template)
    {params others : Dict Json} (agree : Dict.AgreeOn template.OccursBehind params others) :
    route.expand template params = route.expand template others := by
  apply route.expand_congr template
  intro slot member
  apply agree
  exact (Template.occursBehind_iff parsed slot.name).mpr ⟨slot, member, rfl⟩

namespace Resource

theorem layered_congr (resource : Resource) (action : Action) {params others : OrderedDict Json}
    (payload : Json) {name : Text} (same : params.get? name = others.get? name) :
    resource.layered action params payload name = resource.layered action others payload name := by
  unfold layered
  rw [same]

theorem parsed_of_templateFor {resource : Resource} (built : Built resource)
    {url? : Option Json} {template : Template}
    (inForce : resource.templateFor url? = .ok template) :
    ∃ source, Template.parse source = .ok template := by
  unfold templateFor at inForce
  split at inForce
  · exact ⟨_, inForce⟩
  · rw [← Except.ok.inj inForce]
    exact built.invariant.parsed

variable {resource : Resource} {name : Text} {action : Action} {payload : Option Json}

/-- Two calls with one template in force, and the same values in its slots, plan the same. The
resources may differ in their defaults. -/
theorem plan_congr {other : Resource} (built : Built resource)
    (sameRoute : other.route = resource.route) (sameActions : other.actions = resource.actions)
    (registered : resource.action? name = some action) {params others : OrderedDict Json}
    (inForce : resource.templateFor
        (other.layered action params (payload.getD .null) urlParam) =
      resource.templateFor (resource.layered action others (payload.getD .null) urlParam))
    (agree : ∀ template, resource.templateFor
        (other.layered action params (payload.getD .null) urlParam) = .ok template →
      ∀ parameter, template.OccursBehind parameter →
        other.layered action params (payload.getD .null) parameter =
          resource.layered action others (payload.getD .null) parameter) :
    other.plan name params payload = resource.plan name others payload := by
  have otherRegistered : other.action? name = some action := by
    rw [action?, sameActions]
    exact registered
  have sameTemplate : other.templateFor = resource.templateFor := by
    funext url?
    unfold templateFor
    rw [sameRoute]
  have layers := other.get?_boundParams action params (payload.getD .null)
  have otherLayers := resource.get?_boundParams action others (payload.getD .null)
  have sameUri : other.uriFor (other.boundParams action params (payload.getD .null)) =
      resource.uriFor (resource.boundParams action others (payload.getD .null)) := by
    rw [uriFor_eq, uriFor_eq, layers, otherLayers, sameTemplate, sameRoute, ← inForce]
    cases found : resource.templateFor
        (other.layered action params (payload.getD .null) urlParam) with
    | error error => rfl
    | ok template =>
      obtain ⟨source, parsed⟩ := parsed_of_templateFor built found
      have agreeBound : Dict.AgreeOn template.OccursBehind
          (other.boundParams action params (payload.getD .null))
          (resource.boundParams action others (payload.getD .null)) := by
        intro parameter occurs
        exact (layers parameter).trans
          ((agree template found parameter occurs).trans (otherLayers parameter).symm)
      have expanded := resource.route.expand_eq_of_agree parsed agreeBound
      rw [Except.map, Except.map, expanded]
  rw [plan_registered otherRegistered, plan_registered registered, sameUri]

theorem plan_congr_params (built : Built resource)
    (registered : resource.action? name = some action) {params others : OrderedDict Json}
    (sameUrl : params.get? urlParam = others.get? urlParam)
    (agree : ∀ template, resource.templateFor
        (resource.layered action params (payload.getD .null) urlParam) = .ok template →
      Dict.AgreeOn template.OccursBehind params others) :
    resource.plan name params payload = resource.plan name others payload := by
  apply plan_congr built rfl rfl registered
  · rw [resource.layered_congr action (payload.getD .null) sameUrl]
  · intro template inForce parameter occurs
    exact resource.layered_congr action _ (agree template inForce parameter occurs)

theorem templateFor_own_source (built : Built resource)
    (nonempty : resource.route.template.source ≠ []) :
    resource.templateFor (some (.string resource.route.template.source)) =
      .ok resource.route.template := by
  obtain ⟨own, parsed⟩ := built.invariant.parsed
  rw [← Template.source_of_parse parsed] at parsed
  obtain ⟨c, rest, split⟩ := List.exists_cons_of_ne_nil nonempty
  rw [split] at parsed ⊢
  exact parsed

theorem plan_insert_own_source (built : Built resource)
    (registered : resource.action? name = some action) {params : OrderedDict Json}
    (nonempty : resource.route.template.source ≠ [])
    (noUrlSlot : ∀ slot ∈ resource.route.template.slots, slot.name ≠ urlParam)
    (noUrl : resource.layered action params (payload.getD .null) urlParam = none) :
    resource.plan name (params.insert urlParam (.string resource.route.template.source)) payload =
      resource.plan name params payload := by
  have givesUrl : resource.layered action
      (params.insert urlParam (.string resource.route.template.source)) (payload.getD .null)
      urlParam = some (.string resource.route.template.source) := by
    rw [layered, OrderedDict.get?_insert, if_pos rfl]
  have ownInForce := templateFor_own_source built nonempty
  apply plan_congr built rfl rfl registered
  · rw [givesUrl, noUrl, ownInForce]
    rfl
  · intro template inForce parameter occurs
    rw [givesUrl, ownInForce] at inForce
    obtain rfl := Except.ok.inj inForce
    obtain ⟨own, parsed⟩ := built.invariant.parsed
    obtain ⟨slot, member, named⟩ := (Template.occursBehind_iff parsed parameter).mp occurs
    have notUrl : parameter ≠ urlParam :=
      named ▸ noUrlSlot slot (Template.slot_of_mem_body parsed member)
    apply layered_congr
    rw [OrderedDict.get?_insert, if_neg notUrl]

/-- Binding depends on the slots behind the scheme and host, and planning on those of the template
in force and on the URL. So a caller who gives a resource's own source as the URL changes nothing,
where no parameter gives one and no slot asks for it. -/
theorem plan_depends_on_slots_in_force {σ : Type} {source : Text} {defaults : RouteDefaults σ}
    {route : Route σ} (made : Route.new source defaults = .ok route) (built : Built resource)
    (registered : resource.action? name = some action) (payload : Option Json) :
    (∀ params others, Dict.AgreeOn route.template.OccursBehind params others →
      route.bind params = route.bind others) ∧
    (∀ params others : OrderedDict Json,
      params.get? urlParam = others.get? urlParam →
      (∀ template, resource.templateFor
          (resource.layered action params (payload.getD .null) urlParam) = .ok template →
        Dict.AgreeOn template.OccursBehind params others) →
      resource.plan name params payload = resource.plan name others payload) ∧
    ∀ params : OrderedDict Json,
      resource.route.template.source ≠ [] →
      (∀ slot ∈ resource.route.template.slots, slot.name ≠ urlParam) →
      resource.layered action params (payload.getD .null) urlParam = none →
      resource.plan name
          (params.insert urlParam (.string resource.route.template.source)) payload =
        resource.plan name params payload := by
  refine ⟨?_, ?_, ?_⟩
  · intro params others agree
    exact route.expand_eq_of_agree (Route.new_eq_ok_iff.mp made).1 agree
  · intro params others sameUrl agree
    exact plan_congr_params built registered sameUrl agree
  · intro params nonempty noUrlSlot noUrl
    exact plan_insert_own_source built registered nonempty noUrlSlot noUrl

theorem plan_depends_on_slots_in_force_of_host :
    ∃ (route : Route Unit) (resource : Resource),
      Route.new "http://:h/:a".toList {} = .ok route ∧
      Resource.new "http://:h/:a".toList .empty .empty true = .ok resource ∧
      route.bind [(['a'], .ofText "x")] =
        route.bind [(['h'], .ofText "y"), (['a'], .ofText "x")] ∧
      resource.plan "get".toList (.ofList [(['a'], .ofText "x")]) none =
        resource.plan "get".toList (.ofList [(['h'], .ofText "y"), (['a'], .ofText "x")]) none ∧
      resource.plan "get".toList
          (.insert urlParam (.ofText "http://:h/:a") (.ofList [(['a'], .ofText "x")])) none =
        resource.plan "get".toList (.ofList [(['a'], .ofText "x")]) none ∧
      (resource.plan "get".toList (.ofList [(['a'], .ofText "x")]) none).map RequestPlan.uri =
        .ok "http://:h/x".toList := by
  let source := "http://:h/:a".toList
  let params : Dict Json := [(['a'], .ofText "x")]
  let others : Dict Json := [(['h'], .ofText "y"), (['a'], .ofText "x")]
  let template := Template.ofPieces source (Template.pieces false false (Lexeme.scan source))
  have parsed : Template.parse source = .ok template := if_neg (by decide)
  have made : Route.new (σ := Unit) source {} = .ok ⟨_, {}⟩ :=
    Route.new_eq_ok_iff.mpr ⟨parsed, rfl⟩
  have madeResource : Resource.new source .empty .empty true = .ok ⟨⟨_, _⟩, _, _⟩ :=
    new_eq_ok_iff.mpr ⟨parsed, rfl, rfl, rfl⟩
  have occurs {name : Text} (behind : template.OccursBehind name) : name = ['a'] := by
    obtain ⟨slot, member, named⟩ := (Template.occursBehind_iff parsed name).mp behind
    have body : template.body = [.char '/', .slot ⟨['a'], false⟩] := by decide +kernel
    rw [body] at member
    obtain rfl : slot = ⟨['a'], false⟩ := by simpa using member
    exact named.symm
  have agree : Dict.AgreeOn template.OccursBehind params others := by
    intro name behind
    rw [occurs behind]
    rfl
  have agreeOrdered : Dict.AgreeOn template.OccursBehind
      (OrderedDict.ofList params) (OrderedDict.ofList others) := by
    intro name behind
    rw [occurs behind]
    rfl
  obtain ⟨bound, planned, overridden⟩ :=
    @plan_depends_on_slots_in_force _ "get".toList _ _ _ _ _ made (.new madeResource) rfl none
  refine ⟨_, _, made, madeResource, bound params others agree,
    planned (.ofList params) (.ofList others) rfl ?_,
    overridden (.ofList params) (by decide) (by decide +kernel) rfl, ?_⟩
  · intro template inForce
    obtain rfl := Except.ok.inj inForce
    exact agreeOrdered
  · exact congrArg Except.ok (by decide +kernel)

end Resource
end RoutePlan

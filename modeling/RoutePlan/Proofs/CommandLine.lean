import Mathlib.Data.List.Induction
import RoutePlan.CommandLine
import RoutePlan.Proofs.Json.Pretty
import RoutePlan.Proofs.Resource.Layers
import RoutePlan.Proofs.Text

/-!
How an invocation ends. Each stage has its own fault, and of several faults the one of the earliest
stage is reported. Without a fault the result is that of the library for the values that the
assignments give, the last one for each name.
-/
namespace RoutePlan

def Malformed (raw : Text) : Prop := '=' ∉ raw ∨ raw.head? = some '='

theorem parseAssignment?_eq_none_iff (raw : Text) :
    parseAssignment? raw = none ↔ Malformed raw := by
  cases raw with
  | nil => exact iff_of_true rfl (.inl List.not_mem_nil)
  | cons c rest =>
    by_cases equals : c = '='
    · exact iff_of_true (by simp [parseAssignment?, Text.cutAt?, equals]) (.inr (by simp [equals]))
    · have absent := Text.cutAt?_eq_none_iff '=' rest
      cases found : Text.cutAt? '=' rest with
      | none =>
        refine iff_of_true (by simp [parseAssignment?, Text.cutAt?, equals, found]) (.inl ?_)
        simpa [Ne.symm equals] using absent.mp found
      | some cut =>
        rw [found] at absent
        refine iff_of_false (by simp [parseAssignment?, Text.cutAt?, equals, found]) ?_
        simpa [Malformed, equals, Ne.symm equals] using absent

namespace CommandLine

/-! ### Assignments -/

def FirstMalformed (assignments : List Text) (raw : Text) : Prop :=
  ∃ before after, assignments = before ++ raw :: after ∧ Malformed raw ∧
    ∀ other ∈ before, ¬ Malformed other

def Assigned (assignments : List Text) (name : Text) (value : Json) : Prop :=
  ∃ before raw after, assignments = before ++ raw :: after ∧
    parseAssignment? raw = some (name, value) ∧
    ∀ other ∈ after, ∀ replacement, parseAssignment? other ≠ some (name, replacement)

structure LastWins (assignments : List Text) (given : OrderedDict Json) : Prop where
  wellFormed : ∀ raw ∈ assignments, ¬ Malformed raw
  reads : ∀ name value, given.get? name = some value ↔ Assigned assignments name value

theorem FirstMalformed.unique {assignments : List Text} {raw other : Text}
    (first : FirstMalformed assignments raw) (otherFirst : FirstMalformed assignments other) :
    raw = other := by
  have found {raw : Text} (first : FirstMalformed assignments raw) :
      assignments.find? (fun raw => (parseAssignment? raw).isNone) = some raw := by
    obtain ⟨before, after, split, malformed, wellFormed⟩ := first
    refine List.find?_eq_some_iff_append.mpr ⟨?_, before, after, split, ?_⟩
    · simpa using (parseAssignment?_eq_none_iff raw).mpr malformed
    · intro earlier member
      have kept := mt (parseAssignment?_eq_none_iff earlier).mp (wellFormed earlier member)
      simpa [Option.isSome_iff_ne_none] using kept
  exact Option.some.inj ((found first).symm.trans (found otherFirst))

theorem LastWins.unique {assignments : List Text} {given others : OrderedDict Json}
    (lastWins : LastWins assignments given) (othersLastWins : LastWins assignments others) :
    given = others := by
  ext name value
  exact (lastWins.reads name value).trans (othersLastWins.reads name value).symm

theorem assigned_snoc {front : List Text} {raw name : Text} {value : Json}
    (parsed : parseAssignment? raw = some (name, value)) (other : Text) (result : Json) :
    Assigned (front ++ [raw]) other result ↔
      if other = name then value = result else Assigned front other result := by
  constructor
  · rintro ⟨before, chosen, after, split, assigned, final⟩
    cases after using List.reverseRecOn with
    | nil =>
      obtain ⟨rfl, same⟩ := List.append_inj' split rfl
      obtain rfl := List.singleton_inj.mp same
      rw [parsed] at assigned
      cases assigned
      rw [if_pos rfl]
    | append_singleton after last =>
      rw [← List.cons_append, ← List.append_assoc] at split
      obtain ⟨rfl, same⟩ := List.append_inj' split rfl
      obtain rfl := List.singleton_inj.mp same
      have differ : other ≠ name := by
        rintro rfl
        exact final raw (by simp) value parsed
      rw [if_neg differ]
      exact ⟨before, chosen, after, rfl, assigned, fun later member =>
        final later (List.mem_append_left _ member)⟩
  · intro holds
    split at holds
    · rename_i same
      subst same holds
      exact ⟨front, raw, [], rfl, parsed, nofun⟩
    · rename_i differ
      obtain ⟨before, chosen, after, rfl, assigned, final⟩ := holds
      refine ⟨before, chosen, after ++ [raw], by simp, assigned, fun later member => ?_⟩
      rcases List.mem_append.mp member with inFront | last
      · exact final later inFront
      · intro replacement again
        rw [List.mem_singleton.mp last, parsed] at again
        cases again
        contradiction

theorem LastWins.snoc {front : List Text} {given : OrderedDict Json}
    (lastWins : LastWins front given) {raw name : Text} {value : Json}
    (parsed : parseAssignment? raw = some (name, value)) :
    LastWins (front ++ [raw]) (given.insert name value) where
  wellFormed := by
    intro other member
    rcases List.mem_append.mp member with inFront | last
    · exact lastWins.wellFormed other inFront
    · rw [List.mem_singleton.mp last, ← parseAssignment?_eq_none_iff, parsed]
      nofun
  reads := by
    intro other result
    rw [OrderedDict.get?_insert, assigned_snoc parsed]
    split
    · exact Option.some_inj
    · exact lastWins.reads other result

inductive Collected (assignments : List Text) : Except Failure (OrderedDict Json) → Prop where
  | values {given : OrderedDict Json} (lastWins : LastWins assignments given) :
      Collected assignments (.ok given)
  | malformed {raw : Text} (first : FirstMalformed assignments raw) :
      Collected assignments (.error (.invalidAssignment raw))

theorem params_snoc (front : List Text) (raw : Text) :
    params (front ++ [raw]) = do
      let given ← params front
      let assigned ← orElse (.invalidAssignment raw) (parseAssignment? raw)
      return given.insert assigned.1 assigned.2 := by
  unfold params
  rw [List.mapM_append]
  cases front.mapM fun raw => orElse (.invalidAssignment raw) (parseAssignment? raw) with
  | error failure => rfl
  | ok entries =>
    cases parsed : parseAssignment? raw with
    | none => simp [parsed, orElse, bind, Except.bind, pure, Except.pure]
    | some assigned =>
      simp [parsed, orElse, bind, Except.bind, pure, Except.pure, OrderedDict.ofList_snoc]

theorem collected_params (assignments : List Text) :
    Collected assignments (params assignments) := by
  -- From the back, for a later assignment replaces an earlier one.
  induction assignments using List.reverseRecOn with
  | nil =>
    refine .values ⟨nofun, fun name value => iff_of_false nofun ?_⟩
    rintro ⟨before, raw, after, split, -⟩
    cases before <;> cases split
  | append_singleton front raw ih =>
    rw [params_snoc]
    cases collected : params front with
    | error failure =>
      rw [collected] at ih
      cases ih with
      | malformed first =>
        obtain ⟨before, after, split, malformed, wellFormed⟩ := first
        exact .malformed ⟨before, after ++ [raw], by simp [split], malformed, wellFormed⟩
    | ok given =>
      rw [collected] at ih
      obtain ⟨lastWins⟩ := ih
      cases parsed : parseAssignment? raw with
      | none =>
        have malformed := (parseAssignment?_eq_none_iff raw).mp parsed
        exact .malformed ⟨front, [], rfl, malformed, lastWins.wellFormed⟩
      | some assigned => exact .values (lastWins.snoc parsed)

/-! ### Binding -/

inductive BindOutcome (template : Text) (assignments : List Text) (keepTrailingSlashes : Bool) :
    Outcome → Prop where
  | rejected {reason : RouteError} (refused : Template.parse template = .error reason) :
      BindOutcome template assignments keepTrailingSlashes ⟨1, reason.message⟩
  | malformed {parsed : Template} (accepted : Template.parse template = .ok parsed) {raw : Text}
      (first : FirstMalformed assignments raw) :
      BindOutcome template assignments keepTrailingSlashes
        ⟨1, "Expected NAME=VALUE, got '".toList ++ raw ++ ['\'']⟩
  | bound {route : Route Unit}
      (made : Route.new template { stripTrailingSlashes := !keepTrailingSlashes } = .ok route)
      {given : OrderedDict Json} (lastWins : LastWins assignments given) :
      BindOutcome template assignments keepTrailingSlashes ⟨0, (route.bind given ()).1⟩

theorem LastWins.not_firstMalformed {assignments : List Text} {given : OrderedDict Json}
    (lastWins : LastWins assignments given) (raw : Text) : ¬ FirstMalformed assignments raw := by
  rintro ⟨before, after, rfl, malformed, -⟩
  exact lastWins.wellFormed raw (by simp) malformed

theorem bindOutcome_outcome (contents? : Text → Option Text) (template : Text)
    (assignments : List Text) (keepTrailingSlashes : Bool) :
    BindOutcome template assignments keepTrailingSlashes
      ((Invocation.bind template assignments keepTrailingSlashes).outcome contents?) := by
  have collected := collected_params assignments
  simp only [Invocation.outcome, Invocation.run]
  cases parsed : Template.parse template with
  | error reason =>
    simp only [Route.new, parsed]
    exact .rejected parsed
  | ok accepted =>
    have made : Route.new (σ := Unit) template { stripTrailingSlashes := !keepTrailingSlashes } =
        .ok ⟨accepted, _⟩ := Route.new_eq_ok_iff.mpr ⟨parsed, rfl⟩
    rw [made]
    generalize params assignments = given at collected
    cases collected with
    | values lastWins => exact .bound made lastWins
    | malformed first => exact .malformed parsed first

theorem BindOutcome.unique {template : Text} {assignments : List Text} {keepTrailingSlashes : Bool}
    {outcome other : Outcome}
    (ends : BindOutcome template assignments keepTrailingSlashes outcome)
    (otherEnds : BindOutcome template assignments keepTrailingSlashes other) : outcome = other := by
  cases ends with
  | rejected refused =>
    cases otherEnds with
    | rejected again =>
      cases refused.symm.trans again
      rfl
    | malformed accepted first => cases refused.symm.trans accepted
    | bound made lastWins => cases refused.symm.trans (Route.new_eq_ok_iff.mp made).1
  | malformed accepted first =>
    cases otherEnds with
    | rejected refused => cases refused.symm.trans accepted
    | malformed _ again => rw [first.unique again]
    | bound made lastWins => exact absurd first (lastWins.not_firstMalformed _)
  | @bound route made given lastWins =>
    cases otherEnds with
    | rejected refused => cases refused.symm.trans (Route.new_eq_ok_iff.mp made).1
    | malformed _ first => exact absurd first (lastWins.not_firstMalformed _)
    | bound again othersLastWins =>
      cases made.symm.trans again
      rw [lastWins.unique othersLastWins]

/-! ### Planning -/

inductive DataValue : Option Text → Option Json → Prop where
  | none : DataValue none none
  | json {text : Text} {json : Json} (read : Json.parse? text = some json) :
      DataValue (some text) (some json)

def planLines (plan : RequestPlan) : List Text :=
  (plan.method.text ++ ' ' :: plan.uri) ::
    ((if plan.options.isEmpty then [] else [(Json.object plan.options).pretty]) ++
      (plan.body.map Json.pretty).toList)

theorem planText_eq_join (plan : RequestPlan) :
    planText plan = Text.join ['\n'] (planLines plan) := by
  unfold planText planLines
  cases plan.options.isEmpty <;> cases plan.body <;> simp [Text.join, List.intercalate]

theorem planLines_read_back (plan : RequestPlan) {line : Text}
    (behind : line ∈ (planLines plan).tail) :
    ∃ value, (value = .object plan.options ∨ plan.body = some value) ∧
      Json.parse? line = Json.parse? value.compact ∧
      (Json.FloatFree Json.depthLimit value → Json.parse? line = some value) := by
  have printed : ∃ value, (value = .object plan.options ∨ plan.body = some value) ∧
      line = value.pretty := by
    rcases List.mem_append.mp behind with options | body
    · split at options
      · cases options
      · exact ⟨_, .inl rfl, List.mem_singleton.mp options⟩
    · obtain ⟨value, given, rfl⟩ := Option.map_eq_some_iff.mp (Option.mem_toList.mp body)
      exact ⟨value, .inr given, rfl⟩
  obtain ⟨value, source, rfl⟩ := printed
  exact ⟨value, source, Json.parse?_pretty_eq value, Json.parse?_pretty⟩

def Failure.stage : Failure → Nat
  | .invalidData => 0
  | .unreadableFile _ => 1
  | .invalidCatalog _ _ => 2
  | .unknownResource _ => 3
  | .invalidAssignment _ => 4
  | .route _ => 5

theorem Failure.stage_le (failure : Failure) : failure.stage ≤ 5 := by
  cases failure <;> simp [stage]

section Plan

variable (contents? : Text → Option Text) (routes resource action : Text)
  (assignments : List Text) (data : Option Text)

def Offers (found : Resource) : Prop :=
  ∃ text catalog, contents? routes = some text ∧ Catalog.parse text = .ok catalog ∧
    catalog.get? resource = some found

def Plans (result : Except RouteError RequestPlan) : Prop :=
  ∃ found given payload, Offers contents? routes resource found ∧ LastWins assignments given ∧
    DataValue data payload ∧ found.plan action given payload = result

/-- What is wrong at the stage of a failure, whether or not it is reached. -/
inductive Fault : Failure → Prop where
  | data {text : Text} (given : data = some text) (noJson : Json.parse? text = none) :
      Fault .invalidData
  | file (unreadable : contents? routes = none) : Fault (.unreadableFile routes)
  | catalog {text : Text} {reason : CatalogError} (read : contents? routes = some text)
      (refused : Catalog.parse text = .error reason) : Fault (.invalidCatalog routes reason)
  | resource {text : Text} {catalog : Catalog} (read : contents? routes = some text)
      (loaded : Catalog.parse text = .ok catalog) (absent : catalog.get? resource = none) :
      Fault (.unknownResource resource)
  | assignment {raw : Text} (first : FirstMalformed assignments raw) :
      Fault (.invalidAssignment raw)
  | plan {reason : RouteError}
      (fails : Plans contents? routes resource action assignments data (.error reason)) :
      Fault (.route reason)

/-- How planning ends: with the fault of the earliest stage, or with the request. -/
inductive Planned : Except Failure Text → Prop where
  | fault {failure : Failure}
      (fault : Fault contents? routes resource action assignments data failure)
      (first : ∀ other, Fault contents? routes resource action assignments data other →
        failure.stage ≤ other.stage) : Planned (.error failure)
  | request {plan : RequestPlan}
      (sound : ∀ failure, ¬ Fault contents? routes resource action assignments data failure)
      (plans : Plans contents? routes resource action assignments data (.ok plan)) :
      Planned (.ok (Text.join ['\n'] (planLines plan)))

variable {contents? routes resource action assignments data}

theorem DataValue.unique {payload other : Option Json} (value : DataValue data payload)
    (otherValue : DataValue data other) : payload = other := by
  cases value with
  | none =>
    cases otherValue
    rfl
  | json read =>
    cases otherValue with
    | json again => exact congrArg some (Option.some.inj (read.symm.trans again))

theorem Offers.unique {found other : Resource} (offers : Offers contents? routes resource found)
    (otherOffers : Offers contents? routes resource other) : found = other := by
  obtain ⟨text, catalog, read, loaded, there⟩ := offers
  obtain ⟨otherText, otherCatalog, readAgain, loadedAgain, thereAgain⟩ := otherOffers
  cases read.symm.trans readAgain
  cases loaded.symm.trans loadedAgain
  exact Option.some.inj (there.symm.trans thereAgain)

theorem Plans.unique {result other : Except RouteError RequestPlan}
    (plans : Plans contents? routes resource action assignments data result)
    (otherPlans : Plans contents? routes resource action assignments data other) :
    result = other := by
  obtain ⟨found, given, payload, offers, lastWins, value, rfl⟩ := plans
  obtain ⟨_, others, _, otherOffers, othersLastWins, otherValue, rfl⟩ := otherPlans
  cases offers.unique otherOffers
  cases value.unique otherValue
  cases lastWins.unique othersLastWins
  rfl

theorem Fault.unique {failure other : Failure}
    (fault : Fault contents? routes resource action assignments data failure)
    (otherFault : Fault contents? routes resource action assignments data other)
    (sameStage : failure.stage = other.stage) : failure = other := by
  cases fault with
  | data => cases otherFault <;> first | rfl | cases sameStage
  | file => cases otherFault <;> first | rfl | cases sameStage
  | catalog read refused =>
    cases otherFault with
    | catalog readAgain refusedAgain =>
      cases read.symm.trans readAgain
      cases refused.symm.trans refusedAgain
      rfl
    | _ => cases sameStage
  | resource => cases otherFault <;> first | rfl | cases sameStage
  | assignment first =>
    cases otherFault with
    | assignment again => rw [first.unique again]
    | _ => cases sameStage
  | plan fails =>
    cases otherFault with
    | plan failsAgain => rw [Except.error.inj (fails.unique failsAgain)]
    | _ => cases sameStage

theorem Planned.unique {result other : Except Failure Text}
    (planned : Planned contents? routes resource action assignments data result)
    (otherPlanned : Planned contents? routes resource action assignments data other) :
    result = other := by
  cases planned with
  | fault fault first =>
    cases otherPlanned with
    | fault otherFault otherFirst =>
      have sameStage := Nat.le_antisymm (first _ otherFault) (otherFirst _ fault)
      rw [fault.unique otherFault sameStage]
    | request sound => exact absurd fault (sound _)
  | request sound plans =>
    cases otherPlanned with
    | fault otherFault => exact absurd otherFault (sound _)
    | request _ plansAgain =>
      cases plans.unique plansAgain
      rfl

/-! A stage that succeeds has no fault. -/

theorem Fault.stage_of_data {failure : Failure} {payload : Option Json}
    (fault : Fault contents? routes resource action assignments data failure)
    (value : DataValue data payload) : failure.stage ≠ 0 := by
  cases fault with
  | data given noJson =>
    cases value with
    | none => cases given
    | json read =>
      cases given
      cases read.symm.trans noJson
  | _ => nofun

theorem Fault.stage_of_file {failure : Failure} {text : Text}
    (fault : Fault contents? routes resource action assignments data failure)
    (read : contents? routes = some text) : failure.stage ≠ 1 := by
  cases fault with
  | file unreadable => cases read.symm.trans unreadable
  | _ => nofun

theorem Fault.stage_of_catalog {failure : Failure} {text : Text} {catalog : Catalog}
    (fault : Fault contents? routes resource action assignments data failure)
    (read : contents? routes = some text) (loaded : Catalog.parse text = .ok catalog) :
    failure.stage ≠ 2 := by
  cases fault with
  | catalog readAgain refused =>
    cases read.symm.trans readAgain
    cases loaded.symm.trans refused
  | _ => nofun

theorem Fault.stage_of_offers {failure : Failure} {found : Resource}
    (fault : Fault contents? routes resource action assignments data failure)
    (offers : Offers contents? routes resource found) : failure.stage ≠ 3 := by
  cases fault with
  | resource readAgain loadedAgain absent =>
    obtain ⟨text, catalog, read, loaded, there⟩ := offers
    cases read.symm.trans readAgain
    cases loaded.symm.trans loadedAgain
    cases there.symm.trans absent
  | _ => nofun

theorem Fault.stage_of_lastWins {failure : Failure} {given : OrderedDict Json}
    (fault : Fault contents? routes resource action assignments data failure)
    (lastWins : LastWins assignments given) : failure.stage ≠ 4 := by
  cases fault with
  | assignment first => exact absurd first (lastWins.not_firstMalformed _)
  | _ => nofun

theorem Fault.stage_of_plans {failure : Failure} {plan : RequestPlan}
    (fault : Fault contents? routes resource action assignments data failure)
    (plans : Plans contents? routes resource action assignments data (.ok plan)) :
    failure.stage ≠ 5 := by
  cases fault with
  | plan fails => cases plans.unique fails
  | _ => nofun

theorem payload_cases (data : Option Text) :
    (∃ value, payload data = .ok value ∧ DataValue data value) ∨
      payload data = .error .invalidData ∧ ∃ text, data = some text ∧ Json.parse? text = none := by
  cases data with
  | none => exact .inl ⟨none, rfl, .none⟩
  | some text =>
    cases read : Json.parse? text with
    | none => exact .inr ⟨by simp [payload, read, orElse], text, rfl, read⟩
    | some json => exact .inl ⟨some json, by simp [payload, read, orElse], .json read⟩

theorem planned_of_offers {payload : Option Json} (value : DataValue data payload)
    {found : Resource} (offers : Offers contents? routes resource found) :
    Planned contents? routes resource action assignments data (do
      let given ← params assignments
      let plan ← (found.plan action given payload).mapError .route
      return planText plan) := by
  have earlier {other : Failure}
      (fault : Fault contents? routes resource action assignments data other) :
      3 < other.stage := by
    have ⟨text, catalog, read, loaded, _⟩ := offers
    have noData := fault.stage_of_data value
    have noFile := fault.stage_of_file read
    have noCatalog := fault.stage_of_catalog read loaded
    have noResource := fault.stage_of_offers offers
    omega
  have collected := collected_params assignments
  generalize params assignments = given at collected
  cases collected with
  | malformed first => exact .fault (.assignment first) fun other fault => earlier fault
  | @values given lastWins =>
    simp only [bind, Except.bind]
    have plans : Plans contents? routes resource action assignments data
        (found.plan action given payload) :=
      ⟨found, given, payload, offers, lastWins, value, rfl⟩
    cases planned : found.plan action given payload with
    | error reason =>
      rw [planned] at plans
      refine .fault (.plan plans) fun other fault => ?_
      have late := earlier fault
      have noAssignment := fault.stage_of_lastWins lastWins
      rw [Failure.stage]
      omega
    | ok plan =>
      rw [planned] at plans
      simp only [Except.mapError, planText_eq_join]
      refine .request (fun failure fault => ?_) plans
      have late := earlier fault
      have noAssignment := fault.stage_of_lastWins lastWins
      have noPlan := fault.stage_of_plans plans
      have last := failure.stage_le
      omega

theorem planned_run :
    Planned contents? routes resource action assignments data
      ((Invocation.plan routes resource action assignments data).run contents?) := by
  simp only [Invocation.run]
  obtain ⟨payload, valid, value⟩ | ⟨invalid, text, given, noJson⟩ := payload_cases data
  · rw [valid]
    cases read : contents? routes with
    | none =>
      have unreadable : catalog contents? routes = .error (.unreadableFile routes) := by
        rw [catalog, read]
        rfl
      rw [unreadable]
      refine .fault (.file read) fun other fault => ?_
      exact Nat.pos_of_ne_zero (fault.stage_of_data value)
    | some text =>
      have opened : catalog contents? routes =
          (Catalog.parse text).mapError (.invalidCatalog routes) := by
        rw [catalog, read]
        rfl
      rw [opened]
      cases loaded : Catalog.parse text with
      | error reason =>
        refine .fault (.catalog read loaded) fun other fault => ?_
        have noData := fault.stage_of_data value
        have noFile := fault.stage_of_file read
        rw [Failure.stage]
        omega
      | ok entries =>
        simp only [bind, Except.bind, Except.mapError]
        cases there : entries.get? resource with
        | none =>
          refine .fault (.resource read loaded there) fun other fault => ?_
          have noData := fault.stage_of_data value
          have noFile := fault.stage_of_file read
          have noCatalog := fault.stage_of_catalog read loaded
          rw [Failure.stage]
          omega
        | some found => exact planned_of_offers value ⟨text, entries, read, loaded, there⟩
  · rw [invalid]
    exact .fault (.data given noJson) fun other _ => Nat.zero_le _

theorem run_eq_iff_planned (result : Except Failure Text) :
    (Invocation.plan routes resource action assignments data).run contents? = result ↔
      Planned contents? routes resource action assignments data result := by
  constructor
  · rintro rfl
    exact planned_run
  · intro planned
    exact planned_run.unique planned

end Plan

/-- Binding reports that the template is rejected, or else the first malformed assignment, or prints
the URL. Planning reports the fault of the earliest stage that has one, or prints the request. A
report goes with exit code 1. The JSON printed behind method and URI reads as the options or the
body that it is printed for. -/
theorem invocation_outcome (contents? : Text → Option Text) :
    (∀ template assignments keepTrailingSlashes outcome,
      (Invocation.bind template assignments keepTrailingSlashes).outcome contents? = outcome ↔
        BindOutcome template assignments keepTrailingSlashes outcome) ∧
    (∀ routes resource action assignments data,
      (∀ result,
        (Invocation.plan routes resource action assignments data).run contents? = result ↔
          Planned contents? routes resource action assignments data result) ∧
      ∀ outcome,
        (Invocation.plan routes resource action assignments data).outcome contents? = outcome ↔
          (∃ failure, Planned contents? routes resource action assignments data (.error failure) ∧
            outcome = ⟨1, failure.message⟩) ∨
          ∃ text, Planned contents? routes resource action assignments data (.ok text) ∧
            outcome = ⟨0, text⟩) ∧
    ∀ plan line, line ∈ (planLines plan).tail →
      ∃ value, (value = .object plan.options ∨ plan.body = some value) ∧
        Json.parse? line = Json.parse? value.compact ∧
        (Json.FloatFree Json.depthLimit value → Json.parse? line = some value) := by
  refine ⟨?_, ?_, fun plan line => planLines_read_back plan⟩
  · intro template assignments keepTrailingSlashes outcome
    constructor
    · rintro rfl
      exact bindOutcome_outcome contents? template assignments keepTrailingSlashes
    · exact (bindOutcome_outcome contents? template assignments keepTrailingSlashes).unique
  · intro routes resource action assignments data
    refine ⟨run_eq_iff_planned, fun outcome => ?_⟩
    simp only [← run_eq_iff_planned, Invocation.outcome]
    cases (Invocation.plan routes resource action assignments data).run contents? with
    | error failure => simp [eq_comm]
    | ok text => simp [eq_comm]

/-- The data are reported before the file that cannot be read, the file before the resource, and the
resource before the malformed assignment. -/
theorem invocation_outcome_earliest :
    (Invocation.plan ['r'] ['u'] ['g'] [['x']] (some ['?'])).outcome (fun _ => none) =
      ⟨1, "--data is not valid JSON".toList⟩ ∧
    (Invocation.plan ['r'] ['u'] ['g'] [['x']] none).outcome (fun _ => none) =
      ⟨1, "Could not read file r".toList⟩ ∧
    (Invocation.plan ['r'] ['u'] ['g'] [['x']] none).outcome (fun _ => some []) =
      ⟨1, "Unknown resource: u".toList⟩ := by
  obtain ⟨-, unread, -⟩ := invocation_outcome fun _ => none
  obtain ⟨-, read, -⟩ := invocation_outcome fun _ => some []
  refine ⟨((unread _ _ _ _ _).2 _).mpr (.inl ⟨.invalidData, ?_, rfl⟩),
    ((unread _ _ _ _ _).2 _).mpr (.inl ⟨.unreadableFile ['r'], ?_, rfl⟩),
    ((read _ _ _ _ _).2 _).mpr (.inl ⟨.unknownResource ['u'], ?_, rfl⟩)⟩
  · exact .fault (.data rfl (by decide +kernel)) fun other _ => Nat.zero_le _
  · refine .fault (.file rfl) fun other fault => ?_
    exact Nat.pos_of_ne_zero (fault.stage_of_data .none)
  · have loaded : Catalog.parse [] = .ok .empty := rfl
    refine .fault (.resource rfl loaded rfl) fun other fault => ?_
    have noData := fault.stage_of_data .none
    have noFile := fault.stage_of_file rfl
    have noCatalog := fault.stage_of_catalog rfl loaded
    rw [Failure.stage]
    omega

example : (Invocation.plan ['r'] ['u'] "create".toList ["id=7".toList] (some "[1]".toList)).outcome
    (fun _ => some "- name: u\n  url: /u/:id".toList) =
      ⟨0, "POST /u/7\n[\n  1\n]".toList⟩ := by
  decide +kernel

end CommandLine
end RoutePlan

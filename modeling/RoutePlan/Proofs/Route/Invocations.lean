import Mathlib.Algebra.GroupWithZero.Nat
import RoutePlan.Proofs.Route.Filling

/-!
Which computed defaults a run of calls invokes. An occurrence of a slot behind the scheme and host
has its default invoked, once, if the caller leaves its name out; nothing else is invoked. So a call
is its invocations in their order, and after them an answer that looks at their results alone.
-/
namespace RoutePlan

inductive Call where
  | bind (params : Dict Json)
  | bindUrl (url : Text) (params : Dict Json)
  | default (name : Text)

inductive Answer where
  | url (outcome : Except RouteError Text)
  | default (value? : Option Json)

namespace RouteDefaults
variable {σ : Type}

def computed? (defaults : RouteDefaults σ) (name : Text) : Option (StateM σ Json) :=
  match defaults.params.get? name with
  | some (.computed produce) => some produce
  | _ => none

def literal? (defaults : RouteDefaults σ) (name : Text) : Option Json :=
  match defaults.params.get? name with
  | some (.literal value) => some value
  | _ => none

end RouteDefaults

namespace Route
variable {σ : Type} (route : Route σ)

def call : Call → StateM σ Answer
  | .bind params => return .url (.ok (← route.bind params))
  | .bindUrl url params => return .url (← route.bindUrl url params)
  | .default name => return .default (← route.defaults.get? name)

def run (calls : List Call) : StateM σ (List Answer) := calls.mapM route.call

/-! ### Invocations -/

def needs (params : Dict Json) (name : Text) : Bool :=
  (params.get? name).isNone && (route.defaults.computed? name).isSome

def neededIn (params : Dict Json) (tokens : List Token) : List Text :=
  tokens.filterMap fun
    | .char _ => none
    | .slot slot => if route.needs params slot.name then some slot.name else none

/-- The names whose defaults a call invokes, in their order. A URL that is no template invokes
none. -/
def invoked : Call → List Text
  | .bind params => route.neededIn params route.template.body
  | .bindUrl url params => match Template.parse url with
    | .ok template => route.neededIn params template.body
    | .error _ => []
  | .default name => if (route.defaults.computed? name).isSome then [name] else []

def invoke (name : Text) : StateM σ Json := (route.defaults.computed? name).getD (pure .null)

def invokeAll (names : List Text) : StateM σ (List Json) := names.mapM route.invoke

/-! ### Answers from the results of invocations -/

def fillFrom (params : Dict Json) : List Json → List Token → List Filling
  | _, [] => []
  | results, .char c :: rest => .char c :: fillFrom params results rest
  | results, .slot slot :: rest =>
    if route.needs params slot.name then
      slot.filling (results.head?.bind Json.paramText?) :: fillFrom params results.tail rest
    else
      slot.filling (((params.get? slot.name).or (route.defaults.literal? slot.name)).bind
        Json.paramText?) :: fillFrom params results rest

def urlFrom (template : Template) (params : Dict Json) (results : List Json) : Text :=
  template.authority ++ canonicalize route.defaults.stripTrailingSlashes
    (write [] (route.fillFrom params results template.body))

def answerFrom (results : List Json) : Call → Answer
  | .bind params => .url (.ok (route.urlFrom route.template params results))
  | .bindUrl url params =>
    .url ((Template.parse url).map fun template => route.urlFrom template params results)
  | .default name => .default (results.head?.or (route.defaults.literal? name))

def answersFrom : List Json → List Call → List Answer
  | _, [] => []
  | results, call :: later =>
    let own := (route.invoked call).length
    route.answerFrom (results.take own) call :: answersFrom (results.drop own) later

/-! ### One call -/

variable {route} {params : Dict Json} {name : Text}

theorem textFor_of_needs (needed : route.needs params name) (s : σ) :
    route.textFor params name s =
      ((route.invoke name s).1.paramText?, (route.invoke name s).2) := by
  simp only [needs, RouteDefaults.computed?, Bool.and_eq_true, Option.isNone_iff_eq_none] at needed
  obtain ⟨absent, computed⟩ := needed
  unfold textFor invoke RouteDefaults.computed?
  rw [absent]
  dsimp only
  rw [run_bind, RouteDefaults.get?]
  split at computed
  · rename_i produce found
    rw [found]
    rfl
  · cases computed

theorem textFor_of_not_needs (settled : ¬ route.needs params name) (s : σ) :
    route.textFor params name s =
      (((params.get? name).or (route.defaults.literal? name)).bind Json.paramText?, s) := by
  unfold textFor RouteDefaults.literal?
  cases given : params.get? name with
  | some value => rfl
  | none =>
    simp only [needs, RouteDefaults.computed?, given, Option.isNone_none, Bool.true_and] at settled
    dsimp only
    rw [run_bind, RouteDefaults.get?]
    cases found : route.defaults.params.get? name with
    | none => rfl
    | some default =>
      cases default with
      | literal value => rfl
      | computed produce => simp [found] at settled

theorem invokeAll_cons (name : Text) (names : List Text) (s : σ) :
    route.invokeAll (name :: names) s =
      let first := route.invoke name s
      (first.1 :: (route.invokeAll names first.2).1, (route.invokeAll names first.2).2) := by
  rw [invokeAll, List.mapM_cons]
  rfl

variable (params)

theorem fillAll_eq_fillFrom (tokens : List Token) (s : σ) :
    route.fillAll params tokens s =
      let made := route.invokeAll (route.neededIn params tokens) s
      (route.fillFrom params made.1 tokens, made.2) := by
  induction tokens generalizing s with
  | nil => rfl
  | cons token rest ih =>
    cases token with
    | char c =>
      rw [fillAll_char, ih]
      rfl
    | slot slot =>
      rw [fillAll_slot]
      by_cases needed : route.needs params slot.name
      · have names : route.neededIn params (.slot slot :: rest) =
            slot.name :: route.neededIn params rest := by
          simp [neededIn, needed]
        rw [textFor_of_needs needed, names, invokeAll_cons]
        simp only [ih, fillFrom, needed, if_true]
        rfl
      · have names : route.neededIn params (.slot slot :: rest) =
            route.neededIn params rest := by
          simp [neededIn, needed]
        rw [textFor_of_not_needs needed, names]
        simp only [ih, fillFrom, needed]
        rfl

theorem expand_eq_urlFrom (route : Route σ) (template : Template) :
    route.expand template params =
      route.urlFrom template params <$>
        route.invokeAll (route.neededIn params template.body) := by
  funext s
  rw [expand_eq, fillAll_eq_fillFrom]
  rfl

theorem call_eq (call : Call) :
    route.call call = (route.answerFrom · call) <$> route.invokeAll (route.invoked call) := by
  funext s
  cases call with
  | bind params =>
    have bound := congrFun (expand_eq_urlFrom params route route.template) s
    simp only [Route.call, run_bind, Route.bind, bound]
    rfl
  | bindUrl url params =>
    simp only [Route.call, run_bind, invoked]
    cases parsed : Template.parse url with
    | error error =>
      simp only [bindUrl, parsed, answerFrom, Except.map]
      rfl
    | ok template =>
      rw [bindUrl_of_parse parsed, expand_eq_urlFrom]
      simp only [answerFrom, parsed, Except.map]
      rfl
  | default name =>
    cases found : route.defaults.params.get? name with
    | none =>
      simp only [Route.call, run_bind, invoked, answerFrom, RouteDefaults.get?,
        RouteDefaults.literal?, RouteDefaults.computed?, found]
      rfl
    | some default =>
      simp only [Route.call, run_bind, invoked, answerFrom, RouteDefaults.get?,
        RouteDefaults.literal?, RouteDefaults.computed?, found]
      cases default with
      | literal value => rfl
      | computed produce =>
        simp only [Option.isSome_some, if_true, invokeAll, List.mapM_cons, List.mapM_nil, invoke,
          RouteDefaults.computed?, found]
        rfl

/-! ### Runs -/

theorem invokeAll_append (names later : List Text) (s : σ) :
    route.invokeAll (names ++ later) s =
      let first := route.invokeAll names s
      (first.1 ++ (route.invokeAll later first.2).1, (route.invokeAll later first.2).2) := by
  unfold invokeAll
  rw [List.mapM_append]
  rfl

theorem length_invokeAll (route : Route σ) (names : List Text) (s : σ) :
    (route.invokeAll names s).1.length = names.length := by
  induction names generalizing s with
  | nil => rfl
  | cons name names ih => simp only [invokeAll_cons, List.length_cons, ih]

theorem run_cons (call : Call) (later : List Call) (s : σ) :
    route.run (call :: later) s =
      let first := route.call call s
      (first.1 :: (route.run later first.2).1, (route.run later first.2).2) := by
  unfold run
  rw [List.mapM_cons]
  rfl

theorem run_eq (calls : List Call) (s : σ) :
    route.run calls s =
      let made := route.invokeAll (calls.flatMap route.invoked) s
      (route.answersFrom made.1 calls, made.2) := by
  induction calls generalizing s with
  | nil => rfl
  | cons call later ih =>
    have own := length_invokeAll route (route.invoked call) s
    have first : route.call call s =
        (route.answerFrom (route.invokeAll (route.invoked call) s).1 call,
          (route.invokeAll (route.invoked call) s).2) := congrFun (call_eq call) s
    simp only [run_cons, first, ih, List.flatMap_cons, invokeAll_append, answersFrom, ← own,
      List.take_left, List.drop_left]

theorem computed_of_mem_neededIn {tokens : List Token}
    (member : name ∈ route.neededIn params tokens) :
    (route.defaults.computed? name).isSome := by
  obtain ⟨token, -, found⟩ := List.mem_filterMap.mp member
  cases token with
  | char c => cases found
  | slot slot =>
    dsimp only at found
    split at found
    · rename_i needed
      cases found
      exact (Bool.and_eq_true_iff.mp needed).2
    · cases found

theorem computed_of_mem_invoked {call : Call} (member : name ∈ route.invoked call) :
    (route.defaults.computed? name).isSome := by
  unfold invoked at member
  split at member
  · exact computed_of_mem_neededIn _ member
  · split at member
    · exact computed_of_mem_neededIn _ member
    · cases member
  · split at member
    · rename_i computed
      rwa [List.mem_singleton.mp member]
    · cases member

/-- What is observed of the state changes by an invocation as `note` tells from the name alone. -/
def Observes {β : Type} (route : Route σ) (observe : σ → β) (note : β → Text → β) : Prop :=
  ∀ name produce, route.defaults.computed? name = some produce →
    ∀ s, observe (produce s).2 = note (observe s) name

theorem observe_invokeAll {β : Type} {observe : σ → β} {note : β → Text → β}
    (observes : route.Observes observe note) {names : List Text}
    (computed : ∀ name ∈ names, (route.defaults.computed? name).isSome) (s : σ) :
    observe (route.invokeAll names s).2 = names.foldl note (observe s) := by
  induction names generalizing s with
  | nil => rfl
  | cons name later ih =>
    obtain ⟨produce, found⟩ := Option.isSome_iff_exists.mp (computed name List.mem_cons_self)
    have invoked : route.invoke name s = produce s := by rw [invoke, found]; rfl
    simp only [invokeAll_cons, List.foldl_cons, invoked, ← observes name produce found s]
    exact ih (fun other member => computed other (List.mem_cons_of_mem _ member)) _

theorem observe_run {β : Type} {observe : σ → β} {note : β → Text → β}
    (observes : route.Observes observe note) (calls : List Call) (s : σ) :
    observe (route.run calls s).2 = (calls.flatMap route.invoked).foldl note (observe s) := by
  rw [run_eq]
  refine observe_invokeAll observes (fun name member => ?_) s
  obtain ⟨call, -, inCall⟩ := List.mem_flatMap.mp member
  exact computed_of_mem_invoked inCall

theorem foldl_tally (name : Text) (names : List Text) (n : Nat) :
    names.foldl (fun n other => if other = name then n + 1 else n) n = n + names.count name := by
  induction names generalizing n with
  | nil => rfl
  | cons other later ih =>
    rw [List.foldl_cons, ih, List.count_cons]
    by_cases same : other = name
    · simp only [same, if_true, beq_self_eq_true]
      omega
    · simp [same]

/-- A run of calls is the invocations of its calls, one after the other, and answers that look at
nothing but the results, each occurrence at the result of its own invocation. So a log of the
invocations grows by the names that the calls invoke, and a counter by their number. -/
theorem run_invocations (route : Route σ) (calls : List Call) :
    (∀ s, route.run calls s =
      let made := route.invokeAll (calls.flatMap route.invoked) s
      (route.answersFrom made.1 calls, made.2)) ∧
    (∀ source template, Template.parse source = .ok template →
      ∃ inside, template.tokens = inside ++ template.body ∧
        LongestAuthority template.unescaped (Token.reading inside)) ∧
    (∀ log : σ → List Text, route.Observes log (fun names name => names ++ [name]) →
      ∀ s, log (route.run calls s).2 = log s ++ calls.flatMap route.invoked) ∧
    ∀ name (count : σ → Nat),
      route.Observes count (fun n other => if other = name then n + 1 else n) →
      ∀ s, count (route.run calls s).2 =
        count s + (calls.map fun call => (route.invoked call).count name).sum := by
  refine ⟨run_eq calls, fun source template parsed => ?_, fun log logs s => ?_,
    fun name count counts s => ?_⟩
  · obtain ⟨inside, split, reads⟩ := Template.tokens_split parsed
    exact ⟨inside, split, reads ▸ template.longestAuthority_authority⟩
  · rw [observe_run logs, List.foldl_append_eq_append, ← List.flatMap_def,
      List.flatMap_singleton']
  · rw [observe_run counts, foldl_tally, List.count_flatMap]
    rfl

def counter (name : Text) : RouteDefaults Nat where
  params := [(name, .computed fun made => (.number (.int made), made + 1))]

theorem observes_counter (template : Template) (name : Text) :
    Observes ⟨template, counter name⟩ id fun n other => if other = name then n + 1 else n := by
  intro asked produce found made
  simp only [RouteDefaults.computed?, counter, Dict.get?_cons] at found
  by_cases same : asked = name
  · simp only [same, if_true, Option.some.injEq] at found ⊢
    rw [← found]
    rfl
  · simp [same, Dict.get?] at found

theorem run_invocations_of_counter :
    ∃ route, Route.new "http://:n/:n?x=:n".toList (counter ['n']) = .ok route ∧
      (route.bind [] 0).1 = "http://:n/0?x=1".toList ∧
      (route.run [.bind [], .bind [(['n'], .null)], .bindUrl "/hasOwnProperty/:n".toList [],
        .bindUrl "/:n/:m".toList [], .default ['n']] 0).2 = 4 := by
  let calls : List Call := [.bind [], .bind [(['n'], .null)],
    .bindUrl "/hasOwnProperty/:n".toList [], .bindUrl "/:n/:m".toList [], .default ['n']]
  obtain ⟨template, parsed, bound, total⟩ : ∃ template,
      Template.parse "http://:n/:n?x=:n".toList = .ok template ∧
      (Route.bind ⟨template, counter ['n']⟩ [] 0).1 = "http://:n/0?x=1".toList ∧
      (calls.map fun call =>
        (Route.invoked ⟨template, counter ['n']⟩ call).count ['n']).sum = 4 :=
    ⟨_, if_neg (by decide), by decide +kernel, by decide +kernel⟩
  obtain ⟨-, -, -, counted⟩ := run_invocations ⟨template, counter ['n']⟩ calls
  have after := counted ['n'] id (observes_counter template ['n']) 0
  rw [total] at after
  exact ⟨⟨template, counter ['n']⟩, new_eq_ok_iff.mpr ⟨parsed, rfl⟩, bound, after⟩

end Route
end RoutePlan

import RoutePlan.Proofs.Resource.Layers
import RoutePlan.Proofs.Route.Canonical

/-!
The scheme and host of an absolute template under binding. What is written behind them begins with a
slash whatever the values are, and one pass alone can take that slash away: the one that joins an
extension to what stands before it.
-/
namespace RoutePlan

namespace Template

def Absolute (template : Template) : Prop :=
  "http://".toList <+: template.unescaped ∨ "https://".toList <+: template.unescaped

theorem authorityForm_authority {template : Template} (absolute : template.Absolute) :
    AuthorityForm template.authority := by
  rcases template.longestAuthority_authority with ⟨form, -, -⟩ | ⟨-, none⟩
  · exact form
  · exfalso
    rcases absolute with plain | secure
    · exact none _ ⟨_, [], Or.inl rfl, List.not_mem_nil, (List.append_nil _).symm⟩ plain
    · exact none _ ⟨_, [], Or.inr rfl, List.not_mem_nil, (List.append_nil _).symm⟩ secure

theorem body_opens_with_slash {source : Text} {template : Template}
    (parsed : parse source = .ok template) (absolute : template.Absolute) :
    template.body = [] ∨ template.body.head? = some (.char '/') := by
  rcases body_cases parsed with ⟨none, -⟩ | opens
  · exact absurd none (authorityForm_ne_nil (authorityForm_authority absolute))
  · exact opens

end Template

/-- As long as a slash stands at the front, or comes next with nothing before it, the path stays
rooted: a missing slot takes the first slash along only where the next one takes its place. -/
theorem rooted_write {path : Text} {fillings : List Filling}
    (opens : path.head? = some '/' ∨ path = [] ∧
      (fillings = [] ∨ fillings.head? = some (.char '/'))) :
    Rooted (write path fillings) := by
  induction fillings generalizing path with
  | nil => exact opens.elim Or.inr fun nothing => Or.inl nothing.1
  | cons filling rest ih =>
    rcases opens with slash | ⟨rfl, next⟩
    · cases filling with
      | char c =>
        apply ih
        left
        rw [List.head?_append, slash]
        rfl
      | value text =>
        apply ih
        left
        rw [List.head?_append, slash]
        rfl
      | missing =>
        apply ih
        split
        · rename_i pops
          cases path with
          | nil => cases slash
          | cons c path =>
            cases path with
            | nil => exact Or.inr ⟨rfl, Or.inr pops.1⟩
            | cons d path => exact Or.inl slash
        · exact Or.inl slash
    · have first : filling = .char '/' := by simpa using next
      subst first
      exact ih (Or.inl rfl)

/-- A URL that begins with the scheme and host of the template, and whose own scheme and host these
are unless the path opens with an extension. -/
structure HostOutcome (template : Template) (path url : Text) : Prop where
  begins : template.authority <+: url
  slash : (∃ rest, url = template.authority ++ rest ∧ Rooted rest) ↔ ¬ OpensWithExtension path
  longest : LongestAuthority url template.authority ↔ ¬ OpensWithExtension path

namespace Route
variable {σ : Type}

def settledPath (route : Route σ) (template : Template) (params : Dict Json) (s : σ) : Text :=
  settled route.defaults.stripTrailingSlashes (write [] (route.fillAll params template.body s).1)

theorem rooted_written {source : Text} {template : Template}
    (parsed : Template.parse source = .ok template) (absolute : template.Absolute)
    (route : Route σ) (params : Dict Json) (s : σ) :
    Rooted (write [] (route.fillAll params template.body s).1) := by
  apply rooted_write
  refine Or.inr ⟨rfl, ?_⟩
  rcases Template.body_opens_with_slash parsed absolute with nothing | slash
  · rw [nothing]
    exact Or.inl rfl
  · exact Or.inr ((head?_fillAll route params template.body s).mpr slash)

theorem expand_hostOutcome {source : Text} {template : Template}
    (parsed : Template.parse source = .ok template) (absolute : template.Absolute)
    (route : Route σ) (params : Dict Json) (s : σ) :
    HostOutcome template (route.settledPath template params s)
      (route.expand template params s).1 := by
  have rooted := rooted_canonicalize_iff (rooted_written parsed absolute route params s)
    route.defaults.stripTrailingSlashes
  rw [expand_eq]
  refine ⟨List.prefix_append _ _, ?_, ?_⟩
  · rw [settledPath, ← rooted]
    constructor
    · rintro ⟨rest, same, stays⟩
      rwa [List.append_cancel_left same]
    · exact fun stays => ⟨_, rfl, stays⟩
  · rw [settledPath, ← rooted]
    exact longestAuthority_append_iff (Template.authorityForm_authority absolute)

end Route

/-- Whatever the values are, and whether they come from the caller, from defaults, or from a plan's
layers, the scheme and host of the template stay the URL's own exactly if no extension opens the
path. -/
theorem host_kept_iff {source : Text} {template : Template}
    (parsed : Template.parse source = .ok template) (absolute : template.Absolute) :
    (∀ (σ : Type) (route : Route σ) (params : Dict Json) (s : σ),
      (route.template = template →
        HostOutcome template (route.settledPath template params s) (route.bind params s).1) ∧
      ∃ url after, route.bindUrl source params s = (.ok url, after) ∧
        HostOutcome template (route.settledPath template params s) url) ∧
    ∀ (resource : Resource) (name : Text) (action : Action) (params : OrderedDict Json)
      (payload : Option Json), resource.action? name = some action →
      let bound := resource.boundParams action params (payload.getD .null)
      resource.templateFor (bound.get? Resource.urlParam) = .ok template →
      ∃ request, resource.plan name params payload = .ok request ∧
        HostOutcome template (resource.route.settledPath template bound ()) request.uri := by
  constructor
  · intro σ route params s
    have outcome := Route.expand_hostOutcome parsed absolute route params s
    constructor
    · rintro rfl
      exact outcome
    · refine ⟨_, (route.expand template params s).2, ?_, outcome⟩
      rw [Route.bindUrl, parsed]
      rfl
  · intro resource name action params payload registered bound inForce
    have uri : resource.uriFor bound = .ok (resource.route.expand template bound ()).1 := by
      rw [Resource.uriFor_eq, inForce]
      rfl
    have planned := Resource.plan_registered registered params payload
    rw [uri] at planned
    exact ⟨_, planned, Route.expand_hostOutcome parsed absolute resource.route bound ()⟩

theorem host_kept_iff_first_missing :
    ∃ template, Template.parse "http://h/:a/:b".toList = .ok template ∧ template.Absolute ∧
      LongestAuthority (Route.bind (σ := Unit) ⟨template, {}⟩ [(['b'], .ofText "x.y")] ()).1
        template.authority := by
  obtain ⟨template, parsed, absolute, path⟩ : ∃ template,
      Template.parse "http://h/:a/:b".toList = .ok template ∧ template.Absolute ∧
      Route.settledPath (σ := Unit) ⟨template, {}⟩ template [(['b'], .ofText "x.y")] () =
        "/x.y".toList :=
    ⟨_, if_neg (by decide), Or.inl (by decide +kernel), by decide +kernel⟩
  obtain ⟨routes, -⟩ := host_kept_iff parsed absolute
  obtain ⟨bound, -⟩ := routes Unit ⟨template, {}⟩ [(['b'], .ofText "x.y")] ()
  refine ⟨template, parsed, absolute, (bound rfl).longest.mpr ?_⟩
  rw [path]
  rintro ⟨word, rest, same, -⟩
  cases same

/-- A value that begins with a dot puts its word behind the host. -/
theorem host_lost_to_extension :
    ∃ route : Route Unit, Route.new "http://example.com/:file".toList {} = .ok route ∧
      route.template.Absolute ∧ route.template.authority = "http://example.com".toList ∧
      ∃ url, route.bind [("file".toList, .ofText ".evil")] () = (url, ()) ∧
        LongestAuthority url "http://example.com.evil".toList ∧
        ¬ ∃ rest, url = route.template.authority ++ rest ∧ Rooted rest := by
  obtain ⟨template, parsed, absolute, authority, bound⟩ : ∃ template,
      Template.parse "http://example.com/:file".toList = .ok template ∧ template.Absolute ∧
      template.authority = "http://example.com".toList ∧
      (Route.bind (σ := Unit) ⟨template, {}⟩ [("file".toList, .ofText ".evil")] ()).1 =
        "http://example.com".toList ++ ".evil".toList :=
    ⟨_, if_neg (by decide), Or.inl (by decide +kernel), by decide +kernel, by decide +kernel⟩
  refine ⟨_, Route.new_eq_ok_iff.mpr ⟨parsed, rfl⟩, absolute, authority, _,
    Prod.ext bound rfl, ?_, ?_⟩
  · exact @longestAuthority_of_scheme _ "example.com.evil".toList (Or.inl rfl)
  · rintro ⟨rest, same, rooted⟩
    rw [authority] at same
    rw [← List.append_cancel_left same] at rooted
    rcases rooted with nothing | slash
    · cases nothing
    · cases slash

end RoutePlan

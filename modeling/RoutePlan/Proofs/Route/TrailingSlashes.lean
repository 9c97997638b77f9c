import RoutePlan.Proofs.Route.CanonicalForm
import RoutePlan.Proofs.Route.Filling

/-!
Slashes at the end of a bound URL. Stripping is the first pass of three, and the other two take
characters out. But what they take out always stands before a dot, so that the end of the path is
what stripping has left there.
-/
namespace RoutePlan

def slashesAtEnd (text : Text) : Nat := (text.rtakeWhile (· == '/')).length

/-- What becomes of the slashes at the end of a path: the root is all that may end with one, or all
of them stay. -/
structure TrailingSlashes (strip : Bool) (path result : Text) : Prop where
  stripped : strip = true →
    result ≠ [] ∧ (result.getLast? = some '/' → result = ['/']) ∧
      (result = ['/'] ↔ ∀ c ∈ path, c = '/')
  kept : strip = false →
    slashesAtEnd result = slashesAtEnd path ∧ (result = [] ↔ path = [])

theorem slashesAtEnd_concat_slash (text : Text) :
    slashesAtEnd (text ++ ['/']) = slashesAtEnd text + 1 := by
  unfold slashesAtEnd
  rw [List.rtakeWhile_concat_pos _ _ _ (by decide), List.length_append, List.length_singleton]

theorem slashesAtEnd_concat_of_ne {c : Char} (differs : c ≠ '/') (text : Text) :
    slashesAtEnd (text ++ [c]) = 0 := by
  unfold slashesAtEnd
  rw [List.rtakeWhile_concat_neg _ _ _ (by simpa using differs), List.length_nil]

theorem slashesAtEnd_append {c : Char} (differs : c ≠ '/') (front rest : Text) :
    slashesAtEnd (front ++ c :: rest) = slashesAtEnd rest := by
  induction rest using List.reverseRecOn with
  | nil => exact slashesAtEnd_concat_of_ne differs front
  | append_singleton rest d ih =>
    have grouped : front ++ c :: (rest ++ [d]) = (front ++ c :: rest) ++ [d] := by simp
    rw [grouped]
    by_cases slash : d = '/'
    · rw [slash, slashesAtEnd_concat_slash, slashesAtEnd_concat_slash, ih]
    · rw [slashesAtEnd_concat_of_ne slash, slashesAtEnd_concat_of_ne slash]

theorem slashesAtEnd_eq_zero_iff {text : Text} :
    slashesAtEnd text = 0 ↔ text.getLast? ≠ some '/' := by
  induction text using List.reverseRecOn with
  | nil => simp [slashesAtEnd]
  | append_singleton text c _ =>
    rw [List.getLast?_concat]
    by_cases slash : c = '/'
    · simp [slash, slashesAtEnd_concat_slash]
    · simp [slash, slashesAtEnd_concat_of_ne slash]

/-! ### The passes behind stripping -/

theorem slashesAtEnd_collapseExtension (path : Text) :
    slashesAtEnd (collapseExtension path) = slashesAtEnd path := by
  rcases collapseExtension_cases path with ⟨before, after, rfl, collapsed⟩ | same
  · have whole : before ++ '/' :: '.' :: after = (before ++ ['/']) ++ '.' :: after := by simp
    rw [collapsed, whole, slashesAtEnd_append (by decide), slashesAtEnd_append (by decide)]
  · rw [same]

theorem getLast?_restoreDots (path : Text) : (restoreDots path).getLast? = path.getLast? := by
  induction path using restoreDots_induction with
  | nil => rfl
  | escaped rest ih =>
    rw [restoreDots_escaped]
    simp only [List.getLast?_cons, ih, Option.getD_some]
  | cons c rest stays ih =>
    rw [restoreDots_cons stays, List.getLast?_cons, List.getLast?_cons, ih]

theorem restoreDots_concat_slash (path : Text) :
    restoreDots (path ++ ['/']) = restoreDots path ++ ['/'] := by
  induction path using restoreDots_induction with
  | nil => decide
  | escaped rest ih =>
    simp only [List.cons_append, restoreDots_escaped, ih]
  | cons c rest stays ih =>
    have staysBefore : ¬ "/\\.".toList <+: c :: (rest ++ ['/']) := by
      intro opens
      rw [← List.cons_append, List.prefix_concat_iff] at opens
      rcases opens with whole | inside
      · have ends := congrArg List.getLast? whole
        rw [List.getLast?_concat] at ends
        revert ends
        decide
      · exact stays inside
    rw [List.cons_append, restoreDots_cons staysBefore, ih, restoreDots_cons stays,
      List.cons_append]

theorem slashesAtEnd_restoreDots (path : Text) :
    slashesAtEnd (restoreDots path) = slashesAtEnd path := by
  induction path using List.reverseRecOn with
  | nil => rfl
  | append_singleton path c ih =>
    by_cases slash : c = '/'
    · rw [slash, restoreDots_concat_slash, slashesAtEnd_concat_slash, slashesAtEnd_concat_slash, ih]
    · have last : (restoreDots (path ++ [c])).getLast? ≠ some '/' := by
        rw [getLast?_restoreDots, List.getLast?_concat]
        simpa using slash
      rw [slashesAtEnd_concat_of_ne slash, slashesAtEnd_eq_zero_iff.mpr last]

theorem passes_eq_nil_iff (path : Text) :
    restoreDots (collapseExtension path) = [] ↔ path = [] := by
  rw [← List.getLast?_eq_none_iff, getLast?_restoreDots, List.getLast?_eq_none_iff]
  rcases collapseExtension_cases path with ⟨before, after, rfl, collapsed⟩ | same
  · simp [collapsed]
  · rw [same]

theorem trailingSlashes_canonicalize (strip : Bool) (path : Text) :
    TrailingSlashes strip path (canonicalize strip path) := by
  have slashes (settled : Text) :
      slashesAtEnd (restoreDots (collapseExtension settled)) = slashesAtEnd settled := by
    rw [slashesAtEnd_restoreDots, slashesAtEnd_collapseExtension]
  constructor
  · intro isOn
    subst isOn
    obtain ⟨kept, n, rfl, last, stripped⟩ :=
      slashesStripped_iff.mpr (Eq.refl (stripTrailingSlashes path))
    have passes : canonicalize true (kept ++ List.replicate n '/') =
        restoreDots (collapseExtension (stripTrailingSlashes (kept ++ List.replicate n '/'))) := rfl
    rw [passes, stripped]
    by_cases nothing : kept = []
    · have root : restoreDots (collapseExtension ['/']) = ['/'] := by decide
      rw [if_pos nothing, root, nothing]
      exact ⟨List.cons_ne_nil _ _, fun _ => rfl, by simp⟩
    · have ends : slashesAtEnd (restoreDots (collapseExtension kept)) = 0 :=
        (slashes kept).trans (slashesAtEnd_eq_zero_iff.mpr last)
      rw [slashesAtEnd_eq_zero_iff] at ends
      rw [if_neg nothing]
      refine ⟨mt (passes_eq_nil_iff kept).mp nothing, fun slash => absurd slash ends, ?_⟩
      constructor
      · intro root
        rw [root] at ends
        exact absurd rfl ends
      · intro slashesOnly
        have isSlash := slashesOnly _ (List.mem_append_left _ (List.getLast_mem nothing))
        rw [List.getLast?_eq_some_getLast nothing, isSlash] at last
        exact absurd rfl last
  · intro isOff
    subst isOff
    exact ⟨slashes path, passes_eq_nil_iff path⟩

namespace Route
variable {σ : Type}

def substituted (route : Route σ) (template : Template) (params : Dict Json) (s : σ) : Text :=
  (template.segments.foldlM (route.extend params) [] s).1

/-- A template is bound to its scheme and host with `tail` behind them, whether it is the route's
own or takes its place. -/
structure BindsTail (route : Route σ) (source : Text) (template : Template) (params : Dict Json)
    (s : σ) (tail : Text) : Prop where
  longest : LongestAuthority template.unescaped template.authority
  overriding : (route.bindUrl source params s).1 = .ok (template.authority ++ tail)
  own : route.template = template → (route.bind params s).1 = template.authority ++ tail

theorem bindsTail {source : Text} {template : Template}
    (parsed : Template.parse source = .ok template) (route : Route σ) (params : Dict Json) (s : σ) :
    route.BindsTail source template params s
      (canonicalize route.defaults.stripTrailingSlashes
        (route.substituted template params s)) := by
  constructor
  · exact template.longestAuthority_authority
  · rw [bindUrl_of_parse parsed]
    rfl
  · rintro rfl
    rfl

/-- Where slashes at the end are stripped, a bound path is never empty, and it ends with a slash
only as the root, which stands for a path of slashes alone. Where they are kept, it has as many as
were substituted, and nothing else makes it empty. -/
theorem bind_trailing_slashes {source : Text} {template : Template}
    (parsed : Template.parse source = .ok template) (route : Route σ) (params : Dict Json) (s : σ) :
    ∃ tail, route.BindsTail source template params s tail ∧
      TrailingSlashes route.defaults.stripTrailingSlashes
        (route.substituted template params s) tail := by
  refine ⟨_, bindsTail parsed route params s, ?_⟩
  exact trailingSlashes_canonicalize _ _

theorem bind_trailing_slashes_of_root_and_kept :
    (∃ route : Route Unit, Route.new "http://h/:d//".toList {} = .ok route ∧
      (route.bind [] ()).1 = "http://h".toList ++ ['/']) ∧
    ∃ route : Route Unit,
      Route.new "/:a/.z?b/\\.c//".toList { stripTrailingSlashes := false } = .ok route ∧
        slashesAtEnd (route.bind [(['a'], .ofText "v")] ()).1 = 2 := by
  constructor
  · obtain ⟨template, parsed, authority, slashesOnly⟩ : ∃ template,
        Template.parse "http://h/:d//".toList = .ok template ∧
        template.authority = "http://h".toList ∧
        ∀ c ∈ substituted (σ := Unit) ⟨template, {}⟩ template [] (), c = '/' :=
      ⟨_, if_neg (by decide), by decide +kernel, Text.forall_mem_of_all (by decide +kernel)⟩
    obtain ⟨tail, binds, slashes⟩ :=
      bind_trailing_slashes parsed (⟨template, {}⟩ : Route Unit) [] ()
    obtain ⟨-, -, root⟩ := slashes.stripped rfl
    refine ⟨⟨template, {}⟩, new_eq_ok_iff.mpr ⟨parsed, rfl⟩, ?_⟩
    rw [binds.own rfl, root.mpr slashesOnly, authority]
  · obtain ⟨template, parsed, authority, written⟩ : ∃ template,
        Template.parse "/:a/.z?b/\\.c//".toList = .ok template ∧ template.authority = [] ∧
        slashesAtEnd (substituted (σ := Unit) ⟨template, { stripTrailingSlashes := false }⟩ template
          [(['a'], .ofText "v")] ()) = 2 :=
      ⟨_, if_neg (by decide), by decide +kernel, by decide +kernel⟩
    obtain ⟨tail, binds, slashes⟩ := bind_trailing_slashes parsed
      (⟨template, { stripTrailingSlashes := false }⟩ : Route Unit) [(['a'], .ofText "v")] ()
    refine ⟨⟨template, { stripTrailingSlashes := false }⟩, new_eq_ok_iff.mpr ⟨parsed, rfl⟩, ?_⟩
    rw [binds.own rfl, authority, List.nil_append, (slashes.kept rfl).1, written]

end Route
end RoutePlan

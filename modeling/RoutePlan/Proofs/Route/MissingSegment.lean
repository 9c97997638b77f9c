import RoutePlan.Proofs.Escapes
import RoutePlan.Proofs.Route.Passes
import RoutePlan.Proofs.Template.Insertion

/-!
A path segment whose slot has no text. Before a slash its own slash is taken along, at the end it is
stripped; either way the URL is the one that the template without this segment is bound to. What
stands before the segment is written as if it were not there, for a missing slot at the end and one
before a slash differ in slashes at the end only.
-/
namespace RoutePlan

theorem Token.behind_append {n : Nat} {first : List Token}
    (within : n ≤ (reading first).length) (second : List Token) :
    behind n (first ++ second) = behind n first ++ second := by
  induction first generalizing n with
  | nil =>
    obtain rfl := Nat.le_zero.mp within
    rw [List.nil_append, behind_zero, behind_zero, List.nil_append]
  | cons token first ih =>
    cases n with
    | zero => rw [behind_zero, behind_zero]
    | succ n =>
      rw [reading_cons, List.length_append] at within
      rw [List.cons_append, behind_cons n.succ_pos, behind_cons n.succ_pos, ih (by omega)]

theorem Template.split_at {template : Template} {front later : List Token}
    (tokens : template.tokens = front ++ later)
    (within : authorityLength template.unescaped ≤ (Token.reading front).length) :
    template.authority = (Token.reading front).take (authorityLength template.unescaped) ∧
      template.body = Token.behind (authorityLength template.unescaped) front ++ later := by
  constructor
  · rw [authority, ← reading_tokens, tokens, Token.reading_append, List.take_append_of_le_length]
    rwa [← Token.reading_append, ← tokens, reading_tokens]
  · rw [body, tokens, Token.behind_append within]

/-! ### Writing what stands before a slash -/

theorem write_before_char (path : Text) (fillings : List Filling) (c : Char) :
    ∃ reached, ∀ rest, write path (fillings ++ .char c :: rest) = write (reached ++ [c]) rest := by
  induction fillings generalizing path with
  | nil => exact ⟨path, fun rest => rfl⟩
  | cons filling fillings ih =>
    cases filling with
    | char d => exact ih (path ++ [d])
    | value text => exact ih (path ++ text)
    | missing =>
      have next : ∀ rest,
          (fillings ++ Filling.char c :: rest).head? = (fillings ++ [Filling.char c]).head? := by
        intro rest
        cases fillings <;> rfl
      obtain ⟨reached, same⟩ := ih _
      refine ⟨reached, fun rest => ?_⟩
      rw [List.cons_append, write, next]
      exact same rest

theorem write_missing_before_slash (path : Text) (fillings rest : List Filling) :
    write path (fillings ++ .char '/' :: .missing :: .char '/' :: rest) =
      write path (fillings ++ .char '/' :: rest) := by
  obtain ⟨reached, same⟩ := write_before_char path fillings '/'
  rw [same, same, write, if_pos ⟨rfl, List.getLast?_concat⟩, List.dropLast_concat, write]

theorem write_missing_at_end (path : Text) (fillings : List Filling) :
    write path (fillings ++ [.char '/', .missing]) = write path (fillings ++ [.char '/']) := by
  obtain ⟨reached, same⟩ := write_before_char path fillings '/'
  rw [same, same]
  exact congrArg (write · []) (if_neg (by simp))

theorem rdropWhile_write_slash (path : Text) (fillings : List Filling) :
    (write path (fillings ++ [.char '/'])).rdropWhile (· == '/') =
      (write path fillings).rdropWhile (· == '/') := by
  have strips : ∀ path : Text,
      (path ++ ['/']).rdropWhile (· == '/') = path.rdropWhile (· == '/') :=
    fun path => List.rdropWhile_concat_pos _ _ _ (by decide)
  induction fillings generalizing path with
  | nil => exact strips path
  | cons filling fillings ih =>
    cases filling with
    | char c => exact ih (path ++ [c])
    | value text => exact ih (path ++ text)
    | missing =>
      cases fillings with
      | cons next fillings => exact ih _
      | nil =>
        simp only [List.cons_append, List.nil_append, write, strips]
        split
        · rename_i drops
          obtain ⟨front, rfl⟩ := List.getLast?_eq_some_iff.mp drops.2
          rw [List.dropLast_concat, if_neg (by simp), strips]
        · rw [if_neg (by simp)]

theorem canonicalize_write_missing {strip : Bool} {behind : List Filling}
    (start : behind = [] ∧ strip = true ∨ behind.head? = some (.char '/')) (path : Text)
    (ahead : List Filling) :
    canonicalize strip (write path (ahead ++ .char '/' :: .missing :: behind)) =
      canonicalize strip (write path (ahead ++ behind)) := by
  rcases start with ⟨rfl, rfl⟩ | slash
  · have sameKept := rdropWhile_write_slash path ahead
    rw [List.append_nil, write_missing_at_end, canonicalize_eq, canonicalize_eq, settled, settled,
      if_pos rfl, if_pos rfl, stripTrailingSlashes_eq, stripTrailingSlashes_eq, sameKept]
  · obtain ⟨rest, rfl⟩ := List.head?_eq_some_iff.mp slash
    rw [write_missing_before_slash]

namespace Route
variable {σ : Type}

theorem textFor_of_absent {route : Route σ} {params : Dict Json} {name : Text}
    (absent : params.get? name = some .null ∨
      params.get? name = none ∧ route.defaults.params.get? name = none) (s : σ) :
    route.textFor params name s = (none, s) := by
  unfold textFor
  rcases absent with null | ⟨noValue, noDefault⟩
  · rw [null]
    rfl
  · rw [noValue]
    dsimp only
    rw [run_bind, RouteDefaults.get?, noDefault]
    rfl

theorem expand_of_missing_segment {route : Route σ} {params : Dict Json} {slot : Slot}
    (absent : params.get? slot.name = some .null ∨
      params.get? slot.name = none ∧ route.defaults.params.get? slot.name = none)
    {longer shorter : Template} {front behind : List Token}
    (longerTokens : longer.tokens = front ++ .char '/' :: .slot slot :: behind)
    (shorterTokens : shorter.tokens = front ++ behind)
    (start : behind = [] ∧ route.defaults.stripTrailingSlashes = true ∨
      behind.head? = some (.char '/'))
    (sameLength : authorityLength shorter.unescaped = authorityLength longer.unescaped)
    (within : authorityLength longer.unescaped ≤ (Token.reading front).length) :
    route.expand shorter params = route.expand longer params := by
  funext s
  obtain ⟨longerAuthority, longerBody⟩ := Template.split_at longerTokens within
  obtain ⟨shorterAuthority, shorterBody⟩ :=
    Template.split_at shorterTokens (sameLength.trans_le within)
  rw [sameLength] at shorterAuthority shorterBody
  rw [expand_eq, expand_eq, longerAuthority, shorterAuthority, longerBody, shorterBody,
    fillAll_append, fillAll_append]
  have filledStart : ∀ s, (route.fillAll params behind s).1 = [] ∧
      route.defaults.stripTrailingSlashes = true ∨
        (route.fillAll params behind s).1.head? = some (.char '/') := by
    intro s
    rw [head?_fillAll]
    exact start.imp_left fun nothing => ⟨by rw [nothing.1, fillAll_nil], nothing.2⟩
  simp only [fillAll_char, fillAll_slot, textFor_of_absent absent, Slot.filling,
    canonicalize_write_missing (filledStart _)]

end Route

/-- A path segment whose slot has neither value nor default leaves no trace. If it stands behind the
scheme and host, and does not keep the two sources from having one as long, the source without it is
a template, too, and binds to the same URL: always if a slash follows the segment, and with trailing
slashes stripped if nothing does. -/
theorem Route.bind_without_missing_segment {before after name : Text} {longer : Template}
    {front : Text} (valid : Template.isSlotName name) (isWord : ∀ c ∈ name, Text.isWordChar c)
    (rooted : after = [] ∨ after.head? = some '/')
    (parsed : Template.parse (before ++ '/' :: ':' :: (name ++ after)) = .ok longer)
    (longest : LongestAuthority longer.unescaped front)
    (outside : front.length ≤ (Template.unescapeColons before).length) :
    longer.unescaped = Template.unescapeColons before ++ '/' :: ':' ::
        (name ++ Template.unescapeColons after) ∧
      ∃ shorter, Template.parse (before ++ after) = .ok shorter ∧
        ∀ otherFront, LongestAuthority shorter.unescaped otherFront →
          otherFront.length = front.length →
          ∀ (σ : Type) (defaults : RouteDefaults σ) (params : Dict Json),
            (params.get? name = some .null ∨
              params.get? name = none ∧ defaults.params.get? name = none) →
            (after = [] → defaults.stripTrailingSlashes = true) →
            ∃ route other : Route σ,
              Route.new (before ++ '/' :: ':' :: (name ++ after)) defaults = .ok route ∧
              Route.new (before ++ after) defaults = .ok other ∧
              other.bind params = route.bind params ∧
              ∀ any : Route σ, any.defaults = defaults →
                any.bindUrl (before ++ after) params =
                  any.bindUrl (before ++ '/' :: ':' :: (name ++ after)) params := by
  obtain ⟨shorter, shorterParsed, ahead, behind, isQueryValue, reads, start, shorterTokens,
    longerTokens⟩ := Template.tokens_insertion valid isWord rooted parsed
  constructor
  · rw [Template.unescaped_of_parse parsed, Template.unescapeColons_append (Or.inr rfl),
      Template.unescapeColons_cons (by simp), Template.unescapeColons_cons (by simp),
      Template.unescapeColons_word isWord]
  · refine ⟨shorter, shorterParsed, ?_⟩
    intro otherFront otherLongest sameLength σ defaults params absent strips
    obtain rfl := longestAuthority_unique longest longer.longestAuthority_authority
    obtain rfl := longestAuthority_unique otherLongest shorter.longestAuthority_authority
    rw [Template.length_authority] at outside
    rw [Template.length_authority, Template.length_authority] at sameLength
    have expanded : ∀ route : Route σ, route.defaults = defaults →
        route.expand shorter params = route.expand longer params := by
      rintro route rfl
      refine expand_of_missing_segment absent longerTokens shorterTokens ?_ sameLength ?_
      · exact start.imp_left fun nothing => ⟨nothing.2, strips nothing.1⟩
      · rwa [reads]
    refine ⟨⟨longer, defaults⟩, ⟨shorter, defaults⟩, new_eq_ok_iff.mpr ⟨parsed, rfl⟩,
      new_eq_ok_iff.mpr ⟨shorterParsed, rfl⟩, expanded ⟨shorter, defaults⟩ rfl, ?_⟩
    intro any sameDefaults
    funext s
    rw [bindUrl_of_parse shorterParsed, bindUrl_of_parse parsed, expanded any sameDefaults]

theorem Route.bind_without_missing_segment_among_others :
    ∃ route other : Route Unit,
      Route.new "http://h/a/:m/:n/:k?x=:n&y=:p".toList {} = .ok route ∧
      Route.new "http://h/a/:m/:k?x=:n&y=:p".toList {} = .ok other ∧
      (route.bind [(['m'], .null), (['p'], .ofText "v")] ()).1 = "http://h/a/?x=&y=v".toList ∧
      other.bind [(['m'], .null), (['p'], .ofText "v")] =
        route.bind [(['m'], .null), (['p'], .ofText "v")] := by
  let defaults : RouteDefaults Unit := {}
  obtain ⟨longer, parsed, authority, evaluated⟩ : ∃ longer,
      Template.parse ("http://h/a/:m".toList ++ '/' :: ':' :: (['n'] ++ "/:k?x=:n&y=:p".toList)) =
        .ok longer ∧
      longer.authority = "http://h".toList ∧
      (Route.bind ⟨longer, defaults⟩ [(['m'], .null), (['p'], .ofText "v")] ()).1 =
        "http://h/a/?x=&y=v".toList :=
    ⟨_, if_neg (by decide), by decide +kernel, by decide +kernel⟩
  obtain ⟨shorter, otherParsed, otherAuthority⟩ : ∃ shorter,
      Template.parse ("http://h/a/:m".toList ++ "/:k?x=:n&y=:p".toList) = .ok shorter ∧
      shorter.authority = "http://h".toList :=
    ⟨_, if_neg (by decide), by decide +kernel⟩
  obtain ⟨-, found, foundParsed, binds⟩ := bind_without_missing_segment (by decide)
    (Text.forall_mem_of_all (by decide)) (Or.inr rfl) parsed longer.longestAuthority_authority
    (by rw [authority]; decide)
  obtain rfl := Except.ok.inj (otherParsed.symm.trans foundParsed)
  obtain ⟨route, other, made, otherMade, same, -⟩ := binds shorter.authority
    shorter.longestAuthority_authority (by rw [authority, otherAuthority]) Unit defaults
    [(['m'], .null), (['p'], .ofText "v")] (Or.inr ⟨rfl, rfl⟩) (by decide)
  have ofTemplate : Route.new _ defaults = .ok ⟨longer, defaults⟩ :=
    new_eq_ok_iff.mpr ⟨parsed, rfl⟩
  obtain rfl := Except.ok.inj (made.symm.trans ofTemplate)
  exact ⟨_, other, made, otherMade, evaluated, same⟩

end RoutePlan

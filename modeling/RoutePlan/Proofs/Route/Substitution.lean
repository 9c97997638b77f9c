import Mathlib.Data.List.NodupEquivFin
import RoutePlan.Proofs.Percent
import RoutePlan.Proofs.Route.Invocations
import RoutePlan.Proofs.Template.QueryFlag

/-!
What the single occurrences of a slot are filled with. Each of them is looked up on its own, in the
state that the occurrences before it have left behind, and is encoded as its slot says. So one
occurrence behind an equals sign in the query decides how all of them are written; but a computed
default gives each of them a value of its own.
-/
namespace RoutePlan

def SameFilling (slot : Slot) (tokens : List Token) (fillings : List Filling) : Prop :=
  ∀ i j : Nat, tokens[i]? = some (.slot slot) → tokens[j]? = some (.slot slot) →
    fillings[i]? = fillings[j]?

theorem Slot.filling_injective (slot : Slot) {text? other? : Option Text}
    (same : slot.filling text? = slot.filling other?) : text? = other? := by
  cases text? with
  | none => cases other? with
    | none => rfl
    | some other => cases same
  | some text => cases other? with
    | none => cases same
    | some other =>
      have encoded : slot.encoding.encode text = slot.encoding.encode other :=
        Filling.value.inj same
      congr 1
      cases how : slot.encoding with
      | pathSegment =>
        rw [how] at encoded
        exact Percent.encode_injective Percent.keeps_path encoded
      | queryValue =>
        rw [how] at encoded
        exact Percent.encode_injective Percent.keeps_query encoded

namespace Route
variable {σ : Type}

def fillings (route : Route σ) (template : Template) (params : Dict Json) (s : σ) : List Filling :=
  (route.fillAll params template.body s).1

def stateAt (route : Route σ) (template : Template) (params : Dict Json) (s : σ) (i : Nat) : σ :=
  (route.fillAll params (template.body.take i) s).2

/-- Binding fills the tokens behind the scheme and host, one filling each, and canonicalizes what is
written with these. -/
structure Substitutes (route : Route σ) (source : Text) (template : Template) (params : Dict Json)
    (s : σ) : Prop where
  behind : ∃ inside, template.tokens = inside ++ template.body ∧
    Token.reading inside = template.authority ∧
    LongestAuthority template.unescaped template.authority
  oneEach : (route.fillings template params s).length = template.body.length
  overriding : (route.bindUrl source params s).1 = .ok (template.authority ++
    canonicalize route.defaults.stripTrailingSlashes
      (write [] (route.fillings template params s)))
  own : route.template = template → (route.bind params s).1 = template.authority ++
    canonicalize route.defaults.stripTrailingSlashes (write [] (route.fillings template params s))

/-! ### Filling one token after the other -/

theorem length_fillAll (route : Route σ) (params : Dict Json) (tokens : List Token) (s : σ) :
    (route.fillAll params tokens s).1.length = tokens.length := by
  induction tokens generalizing s with
  | nil => rfl
  | cons token rest ih => simp only [fillAll_cons, List.length_cons, ih]

theorem getElem?_fillAll (route : Route σ) (params : Dict Json) (tokens : List Token) (s : σ)
    (i : Nat) :
    (route.fillAll params tokens s).1[i]? =
      tokens[i]?.map fun token =>
        (route.fill params token (route.fillAll params (tokens.take i) s).2).1 := by
  induction tokens generalizing i s with
  | nil => rfl
  | cons token rest ih =>
    cases i with
    | zero => simp only [fillAll_cons, List.getElem?_cons_zero, List.take_zero, fillAll_nil,
        Option.map_some]
    | succ i => simp only [fillAll_cons, List.getElem?_cons_succ, List.take_succ_cons, ih]

variable {template : Template}

theorem filling_at (route : Route σ) (params : Dict Json) (s : σ) {slot : Slot} {i : Nat}
    (occurs : template.body[i]? = some (.slot slot)) :
    (route.fillings template params s)[i]? =
      some (slot.filling
        (route.textFor params slot.name (route.stateAt template params s i)).1) := by
  rw [fillings, getElem?_fillAll, occurs]
  rfl

theorem substitutes {source : Text} (parsed : Template.parse source = .ok template)
    (route : Route σ) (params : Dict Json) (s : σ) :
    route.Substitutes source template params s := by
  obtain ⟨inside, split, reads⟩ := Template.tokens_split parsed
  have expanded := congrArg Prod.fst (route.expand_eq params template s)
  constructor
  · exact ⟨inside, split, reads, template.longestAuthority_authority⟩
  · exact route.length_fillAll params template.body s
  · rw [bindUrl_of_parse parsed]
    exact congrArg Except.ok expanded
  · rintro rfl
    exact expanded

/-! ### Query values -/

/-- A slot is a query value exactly if one of the colons that open it stands right behind an equals
sign and somewhere behind a question mark. Then all its occurrences behind the scheme and host get
the query encoding, those of the path included. -/
theorem query_value_iff_occurrence {source : Text} (parsed : Template.parse source = .ok template)
    {slot : Slot} (listed : slot ∈ template.slots) :
    (slot.isQueryValue = true ↔
      ∃ i, Template.OpensSlot source i ∧ Template.wordAt source (i + 1) = slot.name ∧
        (source.take i).getLast? = some '=' ∧ '?' ∈ source.take i) ∧
    (slot.isQueryValue = true →
      ∀ (σ : Type) (route : Route σ) (params : Dict Json) (s : σ),
        route.Substitutes source template params s ∧
        ∀ i, template.body[i]? = some (.slot slot) →
          (route.fillings template params s)[i]? =
            match (route.textFor params slot.name (route.stateAt template params s i)).1 with
            | some text => some (.value (Percent.encodeQuery text))
            | none => some .missing) := by
  refine ⟨Template.isQueryValue_iff_position parsed listed, ?_⟩
  intro isQuery σ route params s
  refine ⟨substitutes parsed route params s, ?_⟩
  intro i occurs
  rw [filling_at route params s occurs]
  cases (route.textFor params slot.name (route.stateAt template params s i)).1 with
  | none => rfl
  | some text =>
    rw [Slot.filling, Slot.encoding, if_pos isQuery]
    rfl

theorem query_value_iff_occurrence_of_path :
    ∃ template, Template.parse "/:q/:p\\:q?=:q".toList = .ok template ∧
      (∃ i, Template.OpensSlot "/:q/:p\\:q?=:q".toList i ∧
        Template.wordAt "/:q/:p\\:q?=:q".toList (i + 1) = ['q'] ∧
        ("/:q/:p\\:q?=:q".toList.take i).getLast? = some '=' ∧
        '?' ∈ "/:q/:p\\:q?=:q".toList.take i) ∧
      (Route.fillings (⟨template, {}⟩ : Route Unit) template [(['q'], .ofText "a/b")] ())[1]? =
        some (.value "a%2Fb".toList) := by
  obtain ⟨template, parsed, listed, occurs⟩ : ∃ template,
      Template.parse "/:q/:p\\:q?=:q".toList = .ok template ∧
      ⟨['q'], true⟩ ∈ template.slots ∧ template.body[1]? = some (.slot ⟨['q'], true⟩) :=
    ⟨_, if_neg (by decide), by decide +kernel, by decide +kernel⟩
  obtain ⟨flag, filled⟩ := query_value_iff_occurrence parsed listed
  obtain ⟨-, encoded⟩ := filled rfl Unit ⟨template, {}⟩ [(['q'], .ofText "a/b")] ()
  have atPath : _ = some (Filling.value (Percent.encodeQuery "a/b".toList)) := encoded 1 occurs
  refine ⟨template, parsed, flag.mp rfl, atPath.trans ?_⟩
  decide +kernel

/-! ### Several occurrences of a slot -/

theorem sameFilling_iff (route : Route σ) (params : Dict Json) (s : σ) (slot : Slot) :
    SameFilling slot template.body (route.fillings template params s) ↔
      ∀ i j : Nat, template.body[i]? = some (.slot slot) → template.body[j]? = some (.slot slot) →
        (route.textFor params slot.name (route.stateAt template params s i)).1 =
          (route.textFor params slot.name (route.stateAt template params s j)).1 := by
  constructor
  · intro same i j first second
    have filled := same i j first second
    rw [filling_at route params s first, filling_at route params s second] at filled
    exact slot.filling_injective (Option.some.inj filled)
  · intro same i j first second
    rw [filling_at route params s first, filling_at route params s second, same i j first second]

theorem textFor_of_computed (route : Route σ) {params : Dict Json} {name : Text}
    {produce : StateM σ Json} (absent : params.get? name = none)
    (computed : route.defaults.computed? name = some produce) (s : σ) :
    (route.textFor params name s).1 = (produce s).1.paramText? := by
  have needed : route.needs params name := by simp [needs, absent, computed]
  rw [textFor_of_needs needed, invoke, computed]
  rfl

theorem sameFilling_iff_computed (route : Route σ) (params : Dict Json) (s : σ) (slot : Slot) :
    SameFilling slot template.body (route.fillings template params s) ↔
      ∀ produce, params.get? slot.name = none →
        route.defaults.computed? slot.name = some produce →
        ∀ i j : Nat, template.body[i]? = some (.slot slot) →
          template.body[j]? = some (.slot slot) →
          (produce (route.stateAt template params s i)).1.paramText? =
            (produce (route.stateAt template params s j)).1.paramText? := by
  rw [sameFilling_iff]
  constructor
  · intro same produce absent computed i j first second
    rw [← route.textFor_of_computed absent computed, ← route.textFor_of_computed absent computed]
    exact same i j first second
  · intro same i j first second
    by_cases needed : route.needs params slot.name
    · obtain ⟨absent, computed⟩ := Bool.and_eq_true_iff.mp needed
      obtain ⟨produce, found⟩ := Option.isSome_iff_exists.mp computed
      have noValue := Option.isNone_iff_eq_none.mp absent
      rw [route.textFor_of_computed noValue found, route.textFor_of_computed noValue found]
      exact same produce noValue found i j first second
    · rw [textFor_of_not_needs needed, textFor_of_not_needs needed]

/-! ### A counter at several occurrences -/

theorem two_le_count_iff {tokens : List Token} {token : Token} :
    2 ≤ tokens.count token ↔
      ∃ i j : Nat, i < j ∧ tokens[i]? = some token ∧ tokens[j]? = some token := by
  rw [← List.duplicate_iff_two_le_count, List.duplicate_iff_exists_distinct_get]
  constructor
  · intro twice
    obtain ⟨i, j, before, first, second⟩ := twice
    exact ⟨i, j, before, by simp [first], by simp [second]⟩
  · intro twice
    obtain ⟨i, j, before, first, second⟩ := twice
    obtain ⟨inside, atFirst⟩ := List.getElem?_eq_some_iff.mp first
    obtain ⟨inside', atSecond⟩ := List.getElem?_eq_some_iff.mp second
    exact ⟨⟨i, inside⟩, ⟨j, inside'⟩, before, atFirst.symm, atSecond.symm⟩

theorem text_of_nat (n : Nat) :
    (Json.number (.int n)).paramText? = some (Nat.toDigits 10 n) := by
  have notNegative : ¬ (n : Int) < 0 := by omega
  rw [Json.paramText?, Number.text, Text.ofInt, if_neg notNegative, Int.natAbs_natCast, Text.ofNat]

theorem text_of_nat_injective {m n : Nat}
    (same : (Json.number (.int m)).paramText? = (Json.number (.int n)).paramText?) : m = n := by
  have readsBack (n : Nat) : Nat.ofDigitChars 10 (Nat.toDigits 10 n) 0 = n :=
    Nat.ofDigitChars_toDigits (by decide) (Nat.le_refl 10)
  rw [text_of_nat, text_of_nat, Option.some.injEq] at same
  rw [← readsBack m, same, readsBack]

theorem computed?_counter (name : Text) :
    (counter name).computed? name = some fun made => (.number (.int made), made + 1) := by
  simp [counter, RouteDefaults.computed?, Dict.get?_cons]

theorem stateAt_counter (own : Template) (name : Text) (n i : Nat) :
    Route.stateAt ⟨own, counter name⟩ template [] n i =
      n + (Route.neededIn ⟨own, counter name⟩ [] (template.body.take i)).count name := by
  have computed : ∀ other ∈ Route.neededIn ⟨own, counter name⟩ [] (template.body.take i),
      ((counter name).computed? other).isSome := fun other => computed_of_mem_neededIn []
  rw [stateAt, fillAll_eq_fillFrom]
  exact (observe_invokeAll (observes_counter own name) computed n).trans (foldl_tally name _ n)

theorem count_neededIn_lt (route : Route σ) {params : Dict Json} {tokens : List Token}
    {slot : Slot} (needed : route.needs params slot.name) {i j : Nat} (before : i < j)
    (occurs : tokens[i]? = some (.slot slot)) :
    (route.neededIn params (tokens.take i)).count slot.name <
      (route.neededIn params (tokens.take j)).count slot.name := by
  obtain ⟨k, rfl⟩ := Nat.exists_eq_add_of_lt before
  obtain ⟨inside, here⟩ := List.getElem?_eq_some_iff.mp occurs
  have split : tokens.take (i + k + 1) =
      tokens.take i ++ .slot slot :: (tokens.drop (i + 1)).take k := by
    rw [Nat.add_assoc, List.take_add, List.drop_eq_getElem_cons inside, here, List.take_succ_cons]
  have names : route.neededIn params (tokens.take (i + k + 1)) =
      route.neededIn params (tokens.take i) ++
        slot.name :: route.neededIn params ((tokens.drop (i + 1)).take k) := by
    simp only [split, neededIn, List.filterMap_append, List.filterMap_cons, needed, if_true]
  rw [names, List.count_append, List.count_cons_self]
  omega

/-- One value for all occurrences of a slot, whatever the defaults are, is had where it occurs at
most once behind the scheme and host. -/
theorem sameFilling_always_iff (slot : Slot) :
    (∀ (σ : Type) (route : Route σ) (params : Dict Json) (s : σ),
      SameFilling slot template.body (route.fillings template params s)) ↔
      template.body.count (.slot slot) ≤ 1 := by
  constructor
  · intro same
    by_contra several
    obtain ⟨i, j, before, first, second⟩ := two_le_count_iff.mp (Nat.lt_of_not_le several)
    have needed : Route.needs ⟨template, counter slot.name⟩ [] slot.name := by
      rw [needs, computed?_counter]
      rfl
    have sameText := (sameFilling_iff_computed ⟨template, counter slot.name⟩ [] 0 slot).mp
      (same _ _ _ _) _ rfl (computed?_counter slot.name) i j first second
    have sameState := text_of_nat_injective sameText
    rw [stateAt_counter, stateAt_counter] at sameState
    have more := count_neededIn_lt ⟨template, counter slot.name⟩ needed before first
    omega
  · intro once σ route params s i j first second
    have notTwice : ¬ 2 ≤ template.body.count (.slot slot) := by omega
    rw [two_le_count_iff] at notTwice
    rcases Nat.lt_trichotomy i j with before | rfl | before
    · exact absurd ⟨i, j, before, first, second⟩ notTwice
    · rfl
    · exact absurd ⟨j, i, before, second, first⟩ notTwice

/-- All occurrences of a slot get one text in a bind unless a computed default, not overridden,
gives several in the states that it is run in. So a slot that occurs more than once does not keep
one value under every default. -/
theorem one_value_per_bind_iff {source : Text} (parsed : Template.parse source = .ok template) :
    (∀ (σ : Type) (route : Route σ) (params : Dict Json) (s : σ),
      route.Substitutes source template params s ∧
      ∀ slot, SameFilling slot template.body (route.fillings template params s) ↔
        ∀ produce, params.get? slot.name = none →
          route.defaults.computed? slot.name = some produce →
          ∀ i j : Nat, template.body[i]? = some (.slot slot) →
            template.body[j]? = some (.slot slot) →
            (produce (route.stateAt template params s i)).1.paramText? =
              (produce (route.stateAt template params s j)).1.paramText?) ∧
    ∀ slot,
      (∀ (σ : Type) (route : Route σ) (params : Dict Json) (s : σ),
        SameFilling slot template.body (route.fillings template params s)) ↔
        template.body.count (.slot slot) ≤ 1 := by
  constructor
  · intro σ route params s
    exact ⟨substitutes parsed route params s, sameFilling_iff_computed route params s⟩
  · exact sameFilling_always_iff

theorem one_value_per_bind_iff_path_and_query :
    ∃ template, Template.parse "http://:n/:n?x=:n&y=:m".toList = .ok template ∧
      (¬ ∀ (σ : Type) (route : Route σ) (params : Dict Json) (s : σ),
        SameFilling ⟨['n'], true⟩ template.body (route.fillings template params s)) ∧
      ∀ (σ : Type) (route : Route σ) (params : Dict Json) (s : σ),
        SameFilling ⟨['m'], true⟩ template.body (route.fillings template params s) := by
  obtain ⟨template, parsed, twice, once⟩ : ∃ template,
      Template.parse "http://:n/:n?x=:n&y=:m".toList = .ok template ∧
      ¬ template.body.count (.slot ⟨['n'], true⟩) ≤ 1 ∧
      template.body.count (.slot ⟨['m'], true⟩) ≤ 1 :=
    ⟨_, if_neg (by decide), by decide +kernel, by decide +kernel⟩
  obtain ⟨-, always⟩ := one_value_per_bind_iff parsed
  exact ⟨template, parsed, mt (always _).mp twice, (always _).mpr once⟩

/-- A counter gives the two occurrences of its slot two values in one bind. -/
theorem two_values_of_counter :
    ∃ route, Route.new "/:n/:n".toList (counter ['n']) = .ok route ∧
      (route.bind [] 0).1 = "/0/1".toList ∧
      ¬ SameFilling ⟨['n'], false⟩ route.template.body (route.fillings route.template [] 0) := by
  refine ⟨⟨_, _⟩, Route.new_eq_ok_iff.mpr ⟨if_neg (by decide), rfl⟩, by decide +kernel, ?_⟩
  intro same
  have first := same 1 3 (by decide +kernel) (by decide +kernel)
  revert first
  decide +kernel

end Route
end RoutePlan

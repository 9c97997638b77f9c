import RoutePlan.Param
import RoutePlan.Proofs.Text

/-!
Dotted paths into a value. A path leads where its components lead step by step, each to the member
of an object or to the item of an array. So paths compose at every dot, and whatever lies below a
value by keys without dots and by indices is found under the path that names them.
-/
namespace RoutePlan.Json

def SpellsIndex (component : Text) (i : Nat) : Prop :=
  ∃ digits, (component = digits ∨ component = '+' :: digits) ∧ digits ≠ [] ∧
    (∀ c ∈ digits, c.isDigit) ∧ Nat.ofDigitChars 10 digits 0 = i ∧ i < Numeral.wordBound

inductive Steps : Json → Text → Json → Prop where
  | member {members : List (Text × Json)} {key : Text} {value : Json}
      (holds : Dict.get? members key = some value) : Steps (.object members) key value
  | item {items : List Json} {component : Text} {i : Nat} {value : Json}
      (spells : SpellsIndex component i) (holds : items[i]? = some value) :
      Steps (.array items) component value

inductive Leads : Json → List Text → Json → Prop where
  | here (value : Json) : Leads value [] value
  | step {value next found : Json} {component : Text} {later : List Text}
      (first : Steps value component next) (rest : Leads next later found) :
      Leads value (component :: later) found

/-- What lies below a value, with the names of the steps on the way: keys without a dot, and indices
in decimal. An index is a word of 64 bits, as that of every array in memory. -/
inductive Reaches : Json → List Text → Json → Prop where
  | here (value : Json) : Reaches value [] value
  | key {members : List (Text × Json)} {name : Text} {next found : Json} {names : List Text}
      (noDot : '.' ∉ name) (holds : Dict.get? members name = some next)
      (later : Reaches next names found) : Reaches (.object members) (name :: names) found
  | index {items : List Json} {i : Nat} {next found : Json} {names : List Text}
      (word : i < Numeral.wordBound) (holds : items[i]? = some next)
      (later : Reaches next names found) : Reaches (.array items) (Text.ofNat i :: names) found

/-! ### Indices -/

theorem index?_eq_some_iff (component : Text) (i : Nat) :
    index? component = some i ↔ SpellsIndex component i := by
  have spelled (digits : Text) : (Text.nat? 10 digits).filter (· < Numeral.wordBound) = some i ↔
      digits ≠ [] ∧ (∀ c ∈ digits, c.isDigit) ∧ Nat.ofDigitChars 10 digits 0 = i ∧
        i < Numeral.wordBound := by
    rw [Option.filter_eq_some_iff, Text.nat?_ten_eq_some_iff, decide_eq_true_eq]
    exact ⟨fun ⟨⟨nonempty, digits, value⟩, word⟩ => ⟨nonempty, digits, value, word⟩,
      fun ⟨nonempty, digits, value, word⟩ => ⟨⟨nonempty, digits, value⟩, word⟩⟩
  unfold index?
  split
  · rename_i rest
    rw [spelled]
    constructor
    · intro number
      exact ⟨rest, Or.inr rfl, number⟩
    · intro spells
      obtain ⟨digits, whole | whole, nonempty, digit, value⟩ := spells
      · -- A plus is no digit.
        have plus : '+'.isDigit := digit '+' (whole ▸ List.mem_cons_self)
        contradiction
      · obtain rfl := (List.cons.inj whole).2
        exact ⟨nonempty, digit, value⟩
  · rename_i noPlus
    rw [spelled]
    constructor
    · intro number
      exact ⟨component, Or.inl rfl, number⟩
    · intro spells
      obtain ⟨digits, whole | whole, number⟩ := spells
      · exact whole ▸ number
      · exact absurd whole (noPlus digits)

theorem spellsIndex_ofNat {i : Nat} (word : i < Numeral.wordBound) :
    SpellsIndex (Text.ofNat i) i := by
  have spelled := (Text.nat?_ten_eq_some_iff _ _).mp (Text.nat?_ofNat i)
  obtain ⟨nonempty, digits, value⟩ := spelled
  exact ⟨_, Or.inl rfl, nonempty, digits, value, word⟩

/-! ### Steps -/

theorem child?_eq_some_iff (value : Json) (component : Text) (next : Json) :
    value.child? component = some next ↔ Steps value component next := by
  constructor
  · intro found
    cases value with
    | object members => exact .member found
    | array items =>
      obtain ⟨i, spells, holds⟩ := Option.bind_eq_some_iff.mp found
      exact .item ((index?_eq_some_iff component i).mp spells) holds
    | _ => cases found
  · intro step
    cases step with
    | member holds => exact holds
    | item spells holds =>
      exact Option.bind_eq_some_iff.mpr ⟨_, (index?_eq_some_iff _ _).mpr spells, holds⟩

theorem foldlM_child?_eq_some_iff (value : Json) (components : List Text) (found : Json) :
    components.foldlM child? value = some found ↔ Leads value components found := by
  induction components generalizing value with
  | nil =>
    constructor
    · intro same
      exact Option.some.inj same ▸ .here value
    · intro leads
      cases leads
      rfl
  | cons component later ih =>
    rw [List.foldlM_cons, Option.bind_eq_bind, Option.bind_eq_some_iff]
    constructor
    · intro steps
      obtain ⟨next, first, rest⟩ := steps
      exact .step ((child?_eq_some_iff _ _ _).mp first) ((ih next).mp rest)
    · intro leads
      cases leads with
      | step first rest => exact ⟨_, (child?_eq_some_iff _ _ _).mpr first, (ih _).mpr rest⟩

theorem atPath?_eq_some_iff (value : Json) (path : Text) (found : Json) :
    value.atPath? path = some found ↔
      ∃ components, Text.CutAt '.' path components ∧ Leads value components found := by
  rw [atPath?, foldlM_child?_eq_some_iff]
  constructor
  · intro leads
    exact ⟨_, (Text.cutAt_iff '.' path _).mpr rfl, leads⟩
  · intro cut
    obtain ⟨components, cut, leads⟩ := cut
    rwa [(Text.cutAt_iff '.' path components).mp cut] at leads

theorem atPath?_append (value : Json) (path more : Text) :
    value.atPath? (path ++ '.' :: more) = (value.atPath? path).bind (·.atPath? more) := by
  simp only [atPath?, Text.splitWhere_append, List.foldlM_append, Option.bind_eq_bind]

/-! ### Names -/

theorem Reaches.noDot {value found : Json} {names : List Text}
    (reaches : Reaches value names found) :
    ∀ name ∈ names, '.' ∉ name := by
  induction reaches with
  | here value => simp
  | key noDot holds later ih => exact List.forall_mem_cons.mpr ⟨noDot, ih⟩
  | index word holds later ih =>
    refine List.forall_mem_cons.mpr ⟨fun dot => ?_, ih⟩
    have digit : '.'.isDigit := Nat.isDigit_of_mem_toDigits (by decide) (by decide) dot
    contradiction

theorem Reaches.leads {value found : Json} {names : List Text}
    (reaches : Reaches value names found) : Leads value names found := by
  induction reaches with
  | here value => exact .here value
  | key noDot holds later ih => exact .step (.member holds) ih
  | index word holds later ih => exact .step (.item (spellsIndex_ofNat word) holds) ih

theorem Reaches.atPath?_join {value found : Json} {names : List Text}
    (reaches : Reaches value names found) (nonempty : names ≠ []) :
    value.atPath? (Text.join ['.'] names) = some found :=
  (atPath?_eq_some_iff _ _ _).mpr ⟨names, ⟨nonempty, reaches.noDot, rfl⟩, reaches.leads⟩

/-- A path leads exactly where its components lead, a path in two parts leads where the second part
leads from the end of the first, and what is reached by names is found under these, joined by
dots. -/
theorem atPath?_walks :
    (∀ (value : Json) (path : Text) (found : Json), value.atPath? path = some found ↔
      ∃ components, Text.CutAt '.' path components ∧ Leads value components found) ∧
    (∀ (value : Json) (path more : Text),
      value.atPath? (path ++ '.' :: more) = (value.atPath? path).bind (·.atPath? more)) ∧
    ∀ (value found : Json) (names : List Text), Reaches value names found → names ≠ [] →
      value.atPath? (Text.join ['.'] names) = some found :=
  ⟨atPath?_eq_some_iff, atPath?_append, fun _ _ _ reaches nonempty => reaches.atPath?_join nonempty⟩

theorem atPath?_walks_past_signed_index :
    ∃ value : Json, value.atPath? "a.+00.".toList = some (.ofText "x") ∧
      (value.atPath? ['a']).bind (·.atPath? "+00.".toList) = some (.ofText "x") ∧
      value.atPath? (Text.join ['.'] [['a'], Text.ofNat 0, []]) = some (.ofText "x") := by
  let items : List Json := [.object [([], .ofText "x")]]
  let value : Json := .object [(['a'], .array items)]
  obtain ⟨leads, composes, named⟩ := atPath?_walks
  have zero : SpellsIndex "+00".toList 0 :=
    ⟨['0', '0'], Or.inr rfl, by decide, by simp, by decide, by decide⟩
  have walk : Leads value [['a'], "+00".toList, []] (.ofText "x") :=
    .step (.member rfl) (.step (.item zero rfl) (.step (.member rfl) (.here _)))
  have cut : Text.CutAt '.' "a.+00.".toList [['a'], "+00".toList, []] :=
    ⟨by simp, by decide, by decide⟩
  have reaches : Reaches value [['a'], Text.ofNat 0, []] (.ofText "x") :=
    .key (by decide) rfl (.index (by decide) rfl (.key (by simp) rfl (.here _)))
  have found := (leads value "a.+00.".toList (.ofText "x")).mpr ⟨_, cut, walk⟩
  refine ⟨value, found, ?_, named _ _ _ reaches (by simp)⟩
  rw [← composes]
  exact found

end RoutePlan.Json

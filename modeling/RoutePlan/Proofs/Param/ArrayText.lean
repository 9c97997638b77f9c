import RoutePlan.Param
import RoutePlan.Proofs.Text

/-!
The text of an array inside a URL. It is made of the texts of the leaves, with commas between them,
and tells nothing of the brackets: those of a non-empty array in another can be left out.
-/
namespace RoutePlan.Json

mutual

/-- The texts of what is no array, from left to right. Null and an empty array leave an empty
text. -/
def leafTexts : Json → List Text
  | .null => [[]]
  | .string text => [text]
  | .bool value => [compact (.bool value)]
  | .number value => [compact (.number value)]
  | .object members => [compact (.object members)]
  | .array [] => [[]]
  | .array (item :: rest) => leafTexts item ++ itemsLeafTexts rest

def itemsLeafTexts : List Json → List Text
  | [] => []
  | item :: rest => leafTexts item ++ itemsLeafTexts rest

end

/-- The brackets of one non-empty array are left out, an array that is itself an item of an array.
Around that one there may be other arrays. -/
inductive Unbracketed : Json → Json → Prop where
  | here {inner : List Json} (nonempty : inner ≠ []) (before after : List Json) :
      Unbracketed (.array (before ++ .array inner :: after)) (.array (before ++ inner ++ after))
  | inside {value other : Json} (deeper : Unbracketed value other) (before after : List Json) :
      Unbracketed (.array (before ++ value :: after)) (.array (before ++ other :: after))

/-! ### Leaves -/

theorem array_induction {motive : Json → Prop}
    (leaf : ∀ value, (∀ items, value ≠ .array items) → motive value)
    (array : ∀ items, (∀ item ∈ items, motive item) → motive (.array items)) (value : Json) :
    motive value := by
  match value with
  | .array items => exact array items fun item _ => array_induction leaf array item
  | .null | .string _ | .bool _ | .number _ | .object _ => exact leaf _ (by simp)

theorem itemsLeafTexts_eq_flatMap (items : List Json) :
    itemsLeafTexts items = items.flatMap leafTexts := by
  induction items with
  | nil => rfl
  | cons item rest ih => rw [itemsLeafTexts, List.flatMap_cons, ih]

theorem leafTexts_array {items : List Json} (nonempty : items ≠ []) :
    leafTexts (.array items) = items.flatMap leafTexts := by
  cases items with
  | nil => contradiction
  | cons item rest => rw [leafTexts, List.flatMap_cons, itemsLeafTexts_eq_flatMap]

theorem leafTexts_ne_nil (value : Json) : leafTexts value ≠ [] := by
  induction value using array_induction with
  | leaf value notArray => cases value <;> simp_all [leafTexts]
  | array items ih =>
    cases items with
    | nil => simp [leafTexts]
    | cons item rest =>
      rw [leafTexts]
      exact List.append_ne_nil_of_left_ne_nil (ih item List.mem_cons_self) _

theorem join_itemTexts {items : List Json} (nonempty : items ≠ [])
    (joined : ∀ item ∈ items, item.paramText?.getD [] = Text.join [','] item.leafTexts) :
    Text.join [','] (itemTexts items) = Text.join [','] (items.flatMap leafTexts) := by
  induction items with
  | nil => contradiction
  | cons item rest ih =>
    have first := joined item List.mem_cons_self
    cases rest with
    | nil => simp [itemTexts, first, Text.join]
    | cons next later =>
      have following := ih (List.cons_ne_nil next later) fun other member =>
        joined other (List.mem_cons_of_mem _ member)
      have leavesNext : (next :: later).flatMap leafTexts ≠ [] := by
        simp [leafTexts_ne_nil next]
      rw [List.flatMap_cons, Text.join_append _ (leafTexts_ne_nil item) leavesNext, ← following,
        itemTexts, first, itemTexts, Text.join_cons_cons]

theorem getD_paramText? (value : Json) :
    value.paramText?.getD [] = Text.join [','] value.leafTexts := by
  induction value using array_induction with
  | leaf value notArray => cases value <;> simp_all [paramText?, leafTexts, compact, Text.join]
  | array items ih =>
    rw [paramText?, Option.getD_some]
    by_cases empty : items = []
    · subst empty
      rfl
    · rw [join_itemTexts empty ih, leafTexts_array empty]

theorem paramText?_eq_none_iff (value : Json) : value.paramText? = none ↔ value = .null := by
  cases value <;> simp [paramText?]

theorem paramText?_array (items : List Json) :
    (Json.array items).paramText? = some (Text.join [','] (leafTexts (.array items))) := by
  have text := getD_paramText? (.array items)
  rw [paramText?, Option.getD_some] at text
  rw [paramText?, text]

/-! ### Brackets -/

theorem Unbracketed.leafTexts_eq {value other : Json} (unbracketed : Unbracketed value other) :
    leafTexts value = leafTexts other := by
  induction unbracketed with
  | @here inner nonempty before after =>
    rw [leafTexts_array (by simp), leafTexts_array (by simp [nonempty])]
    simp only [List.flatMap_append, List.flatMap_cons, leafTexts_array nonempty,
      List.append_assoc]
  | inside deeper before after ih =>
    rw [leafTexts_array (by simp), leafTexts_array (by simp)]
    simp only [List.flatMap_append, List.flatMap_cons, ih]

theorem Unbracketed.paramText?_eq {value other : Json} (unbracketed : Unbracketed value other) :
    value.paramText? = other.paramText? := by
  have same := unbracketed.leafTexts_eq
  cases unbracketed <;> rw [paramText?_array, paramText?_array, same]

/-- Null alone has no text. The text of an array is that of its leaves, joined by commas, and it
stays the same when the brackets of a non-empty array inside it are left out. -/
theorem array_text_of_leaves :
    (∀ value : Json, value.paramText? = none ↔ value = .null) ∧
    (∀ items : List Json,
      (Json.array items).paramText? = some (Text.join [','] (leafTexts (.array items)))) ∧
    ∀ value other : Json, Unbracketed value other → value.paramText? = other.paramText? :=
  ⟨paramText?_eq_none_iff, paramText?_array, fun _ _ unbracketed => unbracketed.paramText?_eq⟩

theorem array_text_of_leaves_nested :
    ∃ value other : Json, Unbracketed value other ∧
      value.paramText? = some "1,,a,b,,\x7b\"k\":[1]\x7d".toList ∧
      other.paramText? = value.paramText? := by
  let one : Json := .number (.int 1)
  let inner : List Json := [.ofText "a,b", .array []]
  have brackets : Unbracketed
      (.array [one, .array [.null, .array inner], .object [(['k'], .array [one])]])
      (.array [one, .array [.null, .ofText "a,b", .array []], .object [(['k'], .array [one])]]) :=
    .inside (.here (by simp [inner]) [.null] []) [one] [.object [(['k'], .array [one])]]
  obtain ⟨-, arrays, unbracketed⟩ := array_text_of_leaves
  refine ⟨_, _, brackets, (arrays _).trans ?_, (unbracketed _ _ brackets).symm⟩
  decide +kernel

end RoutePlan.Json

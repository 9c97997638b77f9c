import RoutePlan.Param
import RoutePlan.Proofs.Json.RoundTrip

/-!
What a user gives as `NAME=VALUE`, where the value is the text that another value puts into a URL.
Truth values, integers of 64 bits and objects come back from their texts.
-/
namespace RoutePlan

theorem parseAssignment?_named {name : Text} (named : name ≠ []) (noEquals : '=' ∉ name)
    (text : Text) :
    parseAssignment? (name ++ '=' :: text) =
      some (name, (Json.parse? text).getD (.string text)) := by
  simp [parseAssignment?, Text.cutAt?_first noEquals, named]

/-- The values that their own texts assign. Null has no text, and strings and arrays are not written
as JSON. -/
inductive Assignable : Json → Prop where
  | bool (value : Bool) : Assignable (.bool value)
  | int {value : Int} (inRange : Number.InRange value) : Assignable (.number (.int value))
  | object {members : List (Text × Json)} (floatFree : Json.FloatFree 127 (.object members)) :
      Assignable (.object members)

theorem Assignable.text {value : Json} (assignable : Assignable value) :
    value.paramText? = some value.compact ∧ Json.FloatFree Json.depthLimit value := by
  cases assignable with
  | bool value => exact ⟨rfl, .bool value⟩
  | int inRange => exact ⟨rfl, .int inRange⟩
  | object floatFree => exact ⟨rfl, floatFree⟩

/-- Assigning the text of a value gives the value again. -/
theorem parseAssignment?_paramText {name : Text} {value : Json} (named : name ≠ [])
    (noEquals : '=' ∉ name) (assignable : Assignable value) :
    ∃ text, value.paramText? = some text ∧
      parseAssignment? (name ++ '=' :: text) = some (name, value) := by
  obtain ⟨written, floatFree⟩ := assignable.text
  refine ⟨value.compact, written, ?_⟩
  rw [parseAssignment?_named named noEquals, Json.parse?_compact floatFree, Option.getD_some]

theorem parseAssignment?_paramText_nested :
    "filter".toList ≠ [] ∧ '=' ∉ "filter".toList ∧
      ∃ members, Assignable (.object members) ∧
        (Json.object members).paramText? =
          some "\x7b\"a=b\":[\"=\\\"\\u0001é\",-1,\x7b\"\":null\x7d],\"ß\":true\x7d".toList ∧
        ∃ text, (Json.object members).paramText? = some text ∧
          parseAssignment? ("filter".toList ++ '=' :: text) =
            some ("filter".toList, .object members) := by
  let inner : List (Text × Json) := [([], .null)]
  let items : List Json := [.ofText "=\"\x01é", .number (.int (-1)), .object inner]
  let members : List (Text × Json) :=
    [("a=b".toList, .array items), ("ß".toList, .bool true)]
  have floatFreeItems : ∀ item ∈ items, Json.FloatFree 125 item := by
    intro item member
    simp only [items, List.mem_cons, List.not_mem_nil, or_false] at member
    rcases member with rfl | rfl | rfl
    · exact .string _
    · exact .int (by decide)
    · refine .object (List.pairwise_singleton _ _) fun entry single => ?_
      obtain rfl := List.mem_singleton.mp single
      exact .null
  have floatFree : ∀ member ∈ members, Json.FloatFree 126 member.2 := by
    intro entry member
    simp only [members, List.mem_cons, List.not_mem_nil, or_false] at member
    rcases member with rfl | rfl
    · exact .array floatFreeItems
    · exact .bool true
  have ordered : Dict.Ordered members := by
    unfold Dict.Ordered
    decide
  have assignable : Assignable (.object members) := .object (.object ordered floatFree)
  exact ⟨by decide, by decide, members, assignable, by decide +kernel,
    parseAssignment?_paramText (by decide) (by decide) assignable⟩

end RoutePlan

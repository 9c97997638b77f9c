import RoutePlan.Proofs.Route.Passes

/-!
Values behind equals signs. No pass over the path looks across an equals sign, and none begins with
anything but a slash, so that a value without slashes stays where it is and decides nothing: what
stands around its places is the same for every such value.
-/
namespace RoutePlan

/-- Text around places for one value, each right behind an equals sign: what stands in front of each
sign, and what follows the last place. -/
structure QueryContext where
  fronts : List Text
  last : Text

namespace QueryContext

def fill (context : QueryContext) (value : Text) : Text :=
  context.fronts.flatMap (fun front => front ++ '=' :: value) ++ context.last

def texts (context : QueryContext) : List Text :=
  context.fronts.map (· ++ ['=']) ++ [context.last]

theorem fill_nil (last value : Text) : fill ⟨[], last⟩ value = last := rfl

theorem fill_cons (front : Text) (fronts : List Text) (last value : Text) :
    fill ⟨front :: fronts, last⟩ value =
      front ++ '=' :: (value ++ fill ⟨fronts, last⟩ value) := by
  simp [fill]

theorem length_texts (context : QueryContext) :
    context.texts.length = context.fronts.length + 1 := by
  simp [texts]

theorem join_texts (context : QueryContext) (value : Text) :
    Text.join value context.texts = context.fill value := by
  obtain ⟨fronts, last⟩ := context
  induction fronts with
  | nil => simp [texts, Text.join, fill_nil]
  | cons front fronts ih =>
    have later : texts ⟨fronts, last⟩ ≠ [] := by simp [texts]
    have apart : texts ⟨front :: fronts, last⟩ = (front ++ ['=']) :: texts ⟨fronts, last⟩ := rfl
    rw [apart, Text.join, List.intercalate_cons_of_ne_nil later, ← Text.join, ih, fill_cons]
    simp only [List.append_assoc, List.cons_append, List.nil_append]

theorem length_fill (context : QueryContext) (value : Text) :
    (context.fill value).length =
      (context.fill []).length + context.fronts.length * value.length := by
  obtain ⟨fronts, last⟩ := context
  induction fronts with
  | nil => simp [fill_nil]
  | cons front fronts ih =>
    simp only [fill_cons, List.length_append, List.length_cons, List.length_nil,
      Nat.succ_mul] at ih ⊢
    omega

theorem fill_ne_nil {context : QueryContext} (places : context.fronts ≠ []) (value : Text) :
    context.fill value ≠ [] := by
  obtain ⟨fronts, last⟩ := context
  cases fronts with
  | nil => exact absurd rfl places
  | cons front fronts => simp [fill_cons]

theorem fill_injective {context : QueryContext} (places : context.fronts ≠ []) {value other : Text}
    (same : context.fill value = context.fill other) : value = other := by
  have lengths := congrArg List.length same
  rw [length_fill context value, length_fill context other] at lengths
  have positive := List.length_pos_iff.mpr places
  have sameLength : value.length = other.length :=
    Nat.eq_of_mul_eq_mul_left positive (Nat.add_left_cancel lengths)
  obtain ⟨fronts, last⟩ := context
  cases fronts with
  | nil => exact absurd rfl places
  | cons front fronts =>
    rw [fill_cons, fill_cons] at same
    have behind := (List.cons.inj (List.append_cancel_left same)).2
    exact List.append_inj_left behind sameLength

end QueryContext

/-- A rewriting of texts that leaves a value without slashes where it is, and whose other effects do
not depend on the value. -/
def Confined (pass : Text → Text) : Prop :=
  ∀ context : QueryContext, ∃ result : QueryContext,
    result.fronts.length = context.fronts.length ∧
      ∀ value, '/' ∉ value → pass (context.fill value) = result.fill value

theorem Confined.comp {second first : Text → Text} (later : Confined second)
    (earlier : Confined first) : Confined (second ∘ first) := by
  intro context
  obtain ⟨between, places, filled⟩ := earlier context
  obtain ⟨result, morePlaces, refilled⟩ := later between
  refine ⟨result, morePlaces.trans places, fun value noSlash => ?_⟩
  rw [Function.comp_apply, filled value noSlash, refilled value noSlash]

theorem last_behind_equals {front value : Text} (noSlash : '/' ∉ value) :
    (front ++ '=' :: value).getLast? ≠ some '/' := by
  intro slash
  rw [List.getLast?_append_cons] at slash
  rcases List.mem_cons.mp (List.mem_of_getLast? slash) with sign | inValue
  · cases sign
  · exact noSlash inValue

theorem confined_append_left (front : Text) : Confined (front ++ ·) := by
  rintro ⟨fronts, last⟩
  cases fronts with
  | nil => exact ⟨⟨[], front ++ last⟩, rfl, fun value _ => rfl⟩
  | cons first fronts =>
    refine ⟨⟨(front ++ first) :: fronts, last⟩, rfl, fun value _ => ?_⟩
    rw [QueryContext.fill_cons, QueryContext.fill_cons, List.append_assoc]

theorem confined_rdropWhile : Confined fun path => path.rdropWhile (· == '/') := by
  rintro ⟨fronts, last⟩
  refine ⟨⟨fronts, last.rdropWhile (· == '/')⟩, rfl, fun value noSlash => ?_⟩
  induction fronts with
  | nil => rfl
  | cons front fronts ih =>
    have split (rest : Text) : front ++ '=' :: (value ++ rest) = (front ++ '=' :: value) ++ rest :=
      (List.append_assoc front ('=' :: value) rest).symm
    dsimp only at ih ⊢
    rw [QueryContext.fill_cons, QueryContext.fill_cons, split, split,
      rdropWhile_append_of_last (last_behind_equals noSlash), ih]

theorem confined_stripTrailingSlashes : Confined stripTrailingSlashes := by
  rintro ⟨fronts, last⟩
  cases fronts with
  | nil => exact ⟨⟨[], stripTrailingSlashes last⟩, rfl, fun value _ => rfl⟩
  | cons front fronts =>
    obtain ⟨result, places, filled⟩ := confined_rdropWhile ⟨front :: fronts, last⟩
    have somePlace : result.fronts ≠ [] := List.ne_nil_of_length_eq_add_one places
    refine ⟨result, places, fun value noSlash => ?_⟩
    have nonempty := QueryContext.fill_ne_nil somePlace value
    rw [← filled value noSlash] at nonempty ⊢
    rw [stripTrailingSlashes_eq, if_neg (by simpa using nonempty)]

theorem confined_settled (strip : Bool) : Confined (settled strip) := by
  cases strip with
  | false => exact fun context => ⟨context, rfl, fun value _ => rfl⟩
  | true => exact confined_stripTrailingSlashes

theorem confined_collapseExtension : Confined collapseExtension := by
  rintro ⟨fronts, last⟩
  induction fronts with
  | nil => exact ⟨⟨[], collapseExtension last⟩, rfl, fun value _ => rfl⟩
  | cons front fronts ih =>
    rcases collapseExtension_append_equals front with ⟨collapsed, same⟩ | same
    · refine ⟨⟨collapsed :: fronts, last⟩, rfl, fun value _ => ?_⟩
      rw [QueryContext.fill_cons, same, QueryContext.fill_cons]
    · obtain ⟨⟨later, end_⟩, places, filled⟩ := ih
      refine ⟨⟨front :: later, end_⟩, congrArg (· + 1) places, fun value noSlash => ?_⟩
      rw [QueryContext.fill_cons, same, collapseExtension_append_of_noSlash noSlash,
        filled value noSlash, QueryContext.fill_cons]

theorem confined_restoreDots : Confined restoreDots := by
  rintro ⟨fronts, last⟩
  refine ⟨⟨fronts.map restoreDots, restoreDots last⟩, List.length_map _, fun value noSlash => ?_⟩
  induction fronts with
  | nil => rfl
  | cons front fronts ih =>
    rw [QueryContext.fill_cons, restoreDots_append_equals, restoreDots_append_of_noSlash noSlash,
      ih, List.map_cons, QueryContext.fill_cons]

theorem confined_canonicalize (strip : Bool) : Confined (canonicalize strip) :=
  confined_restoreDots.comp (confined_collapseExtension.comp (confined_settled strip))

end RoutePlan

import Mathlib.Data.List.Nodup
import RoutePlan.Template.Parse

/-!
The slot table of a template. It lists the names of the pieces that are slots and no others, each
once and in the order in which they come up first. An occurrence goes to the entry of its own name,
and every name is a word that is not a number.
-/
namespace RoutePlan.Template

def Piece.slotName? : Piece → Option Text
  | .text _ => none
  | .slot name _ => some name

def slotNames (slots : List Slot) : List Text := slots.map (·.name)

def addName (names : List Text) (name : Text) : List Text :=
  if name ∈ names then names else names ++ [name]

def firstNames (names : List Text) : List Text := names.foldl addName []

theorem slotNames_addOccurrence (slots : List Slot) (name : Text) (isQueryValue : Bool) :
    slotNames (addOccurrence slots name isQueryValue) = addName (slotNames slots) name := by
  have listed : slots.any (·.name = name) ↔ name ∈ slotNames slots := by
    simp [slotNames]
  unfold addOccurrence addName
  split
  · rename_i known
    rw [if_pos (listed.mp known)]
    simp only [slotNames, List.map_map]
    apply List.map_congr_left
    intro slot _
    simp only [Function.comp_apply]
    split <;> rfl
  · rename_i unknown
    rw [if_neg fun known => unknown (listed.mpr known)]
    simp [slotNames]

theorem slotNames_foldl (pieces : List Piece) (slots : List Slot) :
    slotNames (pieces.foldl addPiece slots) =
      (pieces.filterMap Piece.slotName?).foldl addName (slotNames slots) := by
  induction pieces generalizing slots with
  | nil => rfl
  | cons piece rest ih =>
    rw [List.foldl_cons, ih]
    cases piece with
    | text text => rfl
    | slot name isQueryValue =>
      simp only [addPiece, slotNames_addOccurrence, Piece.slotName?, List.filterMap_cons,
        List.foldl_cons]

theorem slotNames_slotTable (pieces : List Piece) :
    slotNames (slotTable pieces) = firstNames (pieces.filterMap Piece.slotName?) :=
  slotNames_foldl pieces []

theorem prefix_foldl_addName (later names : List Text) : names <+: later.foldl addName names := by
  induction later generalizing names with
  | nil => exact List.prefix_refl names
  | cons name later ih =>
    have grows : names <+: addName names name := by
      unfold addName
      split
      · exact List.prefix_refl names
      · exact List.prefix_append names [name]
    exact grows.trans (ih _)

theorem nodup_foldl_addName {names : List Text} (nodup : names.Nodup) (later : List Text) :
    (later.foldl addName names).Nodup := by
  induction later generalizing names with
  | nil => exact nodup
  | cons name later ih =>
    apply ih
    unfold addName
    split
    · exact nodup
    · rename_i fresh
      rw [← List.concat_eq_append]
      exact nodup.concat fresh

theorem mem_foldl_addName (later names : List Text) (name : Text) :
    name ∈ later.foldl addName names ↔ name ∈ names ∨ name ∈ later := by
  induction later generalizing names with
  | nil => simp
  | cons other later ih =>
    rw [List.foldl_cons, ih, addName, List.mem_cons]
    split
    · rename_i known
      constructor
      · rintro (there | later)
        · exact Or.inl there
        · exact Or.inr (Or.inr later)
      · rintro (there | rfl | later)
        · exact Or.inl there
        · exact Or.inl known
        · exact Or.inr later
    · rw [List.mem_append, List.mem_singleton, or_assoc]

theorem mem_firstNames (names : List Text) (name : Text) :
    name ∈ firstNames names ↔ name ∈ names := by
  rw [firstNames, mem_foldl_addName]
  simp

theorem nodup_firstNames (names : List Text) : (firstNames names).Nodup :=
  nodup_foldl_addName List.nodup_nil names

theorem mem_names_slotTable (pieces : List Piece) (name : Text) :
    name ∈ slotNames (slotTable pieces) ↔ name ∈ pieces.filterMap Piece.slotName? := by
  rw [slotNames_slotTable, mem_firstNames]

theorem findIdx_eq_idxOf (slots : List Slot) (name : Text) :
    slots.findIdx (·.name = name) = (slotNames slots).idxOf name := by
  rw [slotNames, List.idxOf, List.findIdx_map]
  congr 1
  funext slot
  exact (beq_eq_decide _ _).symm

theorem name_at_own_index {slots : List Slot} {name : Text} (listed : name ∈ slotNames slots) :
    (slots[slots.findIdx (·.name = name)]?).map (·.name) = some name := by
  have found : ∃ slot ∈ slots, decide (slot.name = name) = true := by
    simpa [slotNames] using listed
  have inside := List.findIdx_lt_length_of_exists found
  have same := List.findIdx_getElem (w := inside)
  rw [List.getElem?_eq_getElem inside]
  simpa using same

theorem slot_pieces_are_words (text : Text) (seenQuery afterEquals : Bool) {name : Text}
    (slot : name ∈ (pieces seenQuery afterEquals (Lexeme.scan text)).filterMap Piece.slotName?) :
    isSlotName name ∧ ∀ c ∈ name, Text.isWordChar c := by
  induction text using Lexeme.scan_induction generalizing seenQuery afterEquals with
  | nil => simp [pieces] at slot
  | char c rest notColon notEscape ih =>
    rw [Lexeme.scan_char notColon notEscape] at slot
    exact ih _ _ (by simpa [pieces, Piece.slotName?] using slot)
  | escapedColon word rest run ih =>
    rw [Lexeme.scan_escapedColon run] at slot
    exact ih _ _ (by simpa [pieces, Piece.slotName?] using slot)
  | colon word rest run ih =>
    rw [Lexeme.scan_colon run, pieces, List.filterMap_cons] at slot
    by_cases valid : isSlotName word
    · simp only [valid, if_true, Piece.slotName?, List.mem_cons] at slot
      rcases slot with rfl | later
      · exact ⟨valid, run.isWord⟩
      · exact ih _ _ later
    · simp only [valid, Piece.slotName?] at slot
      exact ih _ _ slot

theorem eq_ofPieces_of_parse {source : Text} {template : Template}
    (parsed : parse source = .ok template) :
    template = ofPieces source (pieces false false (Lexeme.scan source)) := by
  unfold parse at parsed
  split at parsed
  · cases parsed
  · exact (Except.ok.inj parsed).symm

theorem parsed_slots_are_words {source : Text} {template : Template}
    (parsed : parse source = .ok template) {slot : Slot} (member : slot ∈ template.slots) :
    isSlotName slot.name ∧ ∀ c ∈ slot.name, Text.isWordChar c := by
  rw [eq_ofPieces_of_parse parsed] at member
  have listed : slot.name ∈ slotNames (slotTable (pieces false false (Lexeme.scan source))) :=
    List.mem_map_of_mem member
  exact slot_pieces_are_words source false false ((mem_names_slotTable _ _).mp listed)

end RoutePlan.Template

import RoutePlan.Proofs.Template.WellFormed
import RoutePlan.Proofs.Template.Words

/-!
Templates under other names. Where the name at each slot of a source is replaced by its image, the
scan meets the same lexemes but for the names, because each image is a word between the colon and
the character that ended the old name. So the parts are the same, and the slot table is the old one
under the new names.
-/
namespace RoutePlan

/-- Images that can be the names of slots, different ones for different names. -/
structure Renaming (names : List Text) (image : Text → Text) : Prop where
  injective : ∀ first ∈ names, ∀ second ∈ names, image first = image second → first = second
  nonempty : ∀ name ∈ names, image name ≠ []
  isWord : ∀ name ∈ names, ∀ c ∈ image name, Text.isWordChar c
  notNumber : ∀ name ∈ names, ¬ (image name).all Char.isDigit
  notReserved : ∀ name ∈ names, image name ≠ "hasOwnProperty".toList

def Slot.renamed (image : Text → Text) (slot : Slot) : Slot := { slot with name := image slot.name }

namespace Template

/-- The source from `start` on, with the word behind each of the positions replaced by its image. -/
def replaceWords (image : Text → Text) (source : Text) (start : Nat) : List Nat → Text
  | [] => source.drop start
  | i :: later =>
    (source.drop start).take (i + 1 - start) ++ image (wordAt source (i + 1)) ++
      replaceWords image source (i + 1 + (wordAt source (i + 1)).length) later

def renameSource (image : Text → Text) (source : Text) : Text :=
  replaceWords image source 0 (slotPositions source)

def renamed (image : Text → Text) (template : Template) : Template where
  source := renameSource image template.source
  parts := template.parts
  slots := template.slots.map (Slot.renamed image)

/-! ### Lexemes -/

def renameLexeme (image : Text → Text) (lexeme : Lexeme) : Lexeme :=
  match lexeme with
  | .colon word => if isSlotName word then .colon (image word) else lexeme
  | _ => lexeme

def slotWords : List Lexeme → List Text
  | [] => []
  | .colon word :: rest => if isSlotName word then word :: slotWords rest else slotWords rest
  | _ :: rest => slotWords rest

def renameText (image : Text → Text) (text : Text) : Text :=
  ((Lexeme.scan text).map (renameLexeme image)).flatMap Lexeme.source

theorem slotName?_pieces (seenQuery afterEquals : Bool) (lexemes : List Lexeme) :
    (pieces seenQuery afterEquals lexemes).filterMap Piece.slotName? = slotWords lexemes := by
  induction lexemes generalizing seenQuery afterEquals with
  | nil => rfl
  | cons lexeme rest ih =>
    cases lexeme with
    | char c => exact ih _ _
    | escapedColon word => exact ih _ _
    | colon word =>
      by_cases valid : isSlotName word
      · simp [pieces, slotWords, valid, Piece.slotName?, ih]
      · simp only [pieces, slotWords, valid, Bool.false_eq_true, if_false]
        exact ih _ _

section
variable (image : Text → Text)

@[simp] theorem renameText_nil : renameText image [] = [] := by simp [renameText]

theorem renameText_char {c : Char} {rest : Text} (notColon : c ≠ ':')
    (notEscape : ¬ (c = '\\' ∧ rest.head? = some ':')) :
    renameText image (c :: rest) = c :: renameText image rest := by
  rw [renameText, Lexeme.scan_char notColon notEscape]
  rfl

theorem renameText_escapedColon {word rest : Text} (run : Text.WordRun word rest) :
    renameText image ('\\' :: ':' :: (word ++ rest)) =
      '\\' :: ':' :: (word ++ renameText image rest) := by
  rw [renameText, Lexeme.scan_escapedColon run]
  rfl

theorem renameText_colon {word rest : Text} (run : Text.WordRun word rest) :
    renameText image (':' :: (word ++ rest)) =
      ':' :: ((if isSlotName word then image word else word) ++ renameText image rest) := by
  rw [renameText, Lexeme.scan_colon run, List.map_cons, List.flatMap_cons, renameLexeme]
  split <;> rfl

theorem head?_renameText (text : Text) : (renameText image text).head? = text.head? := by
  induction text using Lexeme.scan_induction with
  | nil => simp
  | char c rest notColon notEscape ih => rw [renameText_char image notColon notEscape]; rfl
  | escapedColon word rest run ih => rw [renameText_escapedColon image run]; rfl
  | colon word rest run ih => rw [renameText_colon image run]; rfl

theorem wordRun_renameText {word rest : Text} (run : Text.WordRun word rest) {other : Text}
    (isWord : ∀ c ∈ other, Text.isWordChar c) : Text.WordRun other (renameText image rest) where
  isWord := isWord
  ends := by
    rw [head?_renameText]
    exact run.ends

/-! ### The source as it is replaced -/

theorem replaceWords_skip {source first rest : Text} {start : Nat} {positions : List Nat}
    (ahead : source.drop start = first ++ rest)
    (later : ∀ i ∈ positions, start + first.length ≤ i) :
    replaceWords image source start positions =
      first ++ replaceWords image source (start + first.length) positions := by
  have past := drop_past ahead
  cases positions with
  | nil => rw [replaceWords, replaceWords, past, ahead]
  | cons i positions =>
    have reached := later i (by simp)
    have split : i + 1 - start = first.length + (i + 1 - (start + first.length)) := by omega
    simp only [replaceWords, past, ahead, split, List.take_length_add_append, List.append_assoc]

theorem replaceWords_eq_renameText (source text : Text) (start : Nat)
    (ahead : source.drop start = text) :
    replaceWords image source start (positionsOf start (Lexeme.scan text)) =
      renameText image text := by
  have skip {lexeme : Lexeme} {rest : Text} (start : Nat) (plain : opens lexeme = false)
      (ahead : source.drop start = lexeme.source ++ rest)
      (ih : ∀ start, source.drop start = rest →
        replaceWords image source start (positionsOf start (Lexeme.scan rest)) =
          renameText image rest) :
      replaceWords image source start (positionsOf start (lexeme :: Lexeme.scan rest)) =
        lexeme.source ++ renameText image rest := by
    simp only [positionsOf, plain, Bool.false_eq_true, if_false]
    rw [replaceWords_skip image ahead (le_of_mem_positionsOf _ _), ih _ (drop_past ahead)]
  induction text using Lexeme.scan_induction generalizing start with
  | nil => simp [positionsOf, replaceWords, ahead]
  | char c rest notColon notEscape ih =>
    rw [Lexeme.scan_char notColon notEscape, renameText_char image notColon notEscape]
    exact skip start rfl ahead ih
  | escapedColon word rest run ih =>
    rw [Lexeme.scan_escapedColon run, renameText_escapedColon image run]
    exact skip start rfl ahead ih
  | colon word rest run ih =>
    rw [Lexeme.scan_colon run, renameText_colon image run]
    by_cases valid : isSlotName word
    · have afterColon : source.drop (start + [':'].length) = word ++ rest := drop_past ahead
      have name : wordAt source (start + 1) = word := wordAt_run run afterColon
      have first : (source.drop start).take (start + 1 - start) = [':'] := by
        rw [ahead, Nat.add_sub_cancel_left]
        rfl
      have stop : start + (word.length + 1) = start + 1 + word.length := by omega
      have later := ih _ (drop_past afterColon)
      simp only [positionsOf, opens, valid, if_true, replaceWords, Lexeme.source,
        List.length_cons, name, first, stop]
      exact congrArg ((':' :: image word) ++ ·) later
    · rw [if_neg valid]
      exact skip start (by simpa [opens] using valid) ahead ih

theorem renameSource_eq (source : Text) : renameSource image source = renameText image source := by
  rw [renameSource, slotPositions_eq_scan]
  exact replaceWords_eq_renameText image source source 0 rfl

/-! ### What the scan meets -/

theorem isSlotName_image {names : List Text} {image : Text → Text} (allowed : Renaming names image)
    {name : Text} (member : name ∈ names) : isSlotName (image name) :=
  (isSlotName_iff _).mpr ⟨allowed.nonempty name member, allowed.notNumber name member⟩

theorem scan_renameText {names : List Text} (allowed : Renaming names image) (text : Text)
    (listed : ∀ word ∈ slotWords (Lexeme.scan text), word ∈ names) :
    Lexeme.scan (renameText image text) = (Lexeme.scan text).map (renameLexeme image) := by
  induction text using Lexeme.scan_induction with
  | nil => simp
  | char c rest notColon notEscape ih =>
    rw [Lexeme.scan_char notColon notEscape] at listed ⊢
    rw [← head?_renameText image] at notEscape
    have notEscape' := notEscape
    rw [head?_renameText] at notEscape'
    rw [renameText_char image notColon notEscape', Lexeme.scan_char notColon notEscape, ih listed]
    rfl
  | escapedColon word rest run ih =>
    rw [Lexeme.scan_escapedColon run] at listed ⊢
    have runs := wordRun_renameText image run run.isWord
    rw [renameText_escapedColon image run, Lexeme.scan_escapedColon runs, ih listed]
    rfl
  | colon word rest run ih =>
    rw [Lexeme.scan_colon run] at listed ⊢
    rw [renameText_colon image run, List.map_cons, renameLexeme]
    by_cases valid : isSlotName word
    · simp only [slotWords, valid, if_true, List.forall_mem_cons] at listed
      have runs := wordRun_renameText image run (allowed.isWord word listed.1)
      rw [if_pos valid, if_pos valid, Lexeme.scan_colon runs, ih listed.2]
    · simp only [slotWords, valid, Bool.false_eq_true, if_false] at listed
      have runs := wordRun_renameText image run run.isWord
      rw [if_neg valid, if_neg valid, Lexeme.scan_colon runs, ih listed]

def renamePiece (image : Text → Text) : Piece → Piece
  | .text text => .text text
  | .slot name isQueryValue => .slot (image name) isQueryValue

theorem pieces_renameLexeme {names : List Text} (allowed : Renaming names image)
    (lexemes : List Lexeme) (seenQuery afterEquals : Bool)
    (listed : ∀ word ∈ slotWords lexemes, word ∈ names) :
    pieces seenQuery afterEquals (lexemes.map (renameLexeme image)) =
      (pieces seenQuery afterEquals lexemes).map (renamePiece image) := by
  induction lexemes generalizing seenQuery afterEquals with
  | nil => rfl
  | cons lexeme rest ih =>
    cases lexeme with
    | char c => exact congrArg (Piece.text [c] :: ·) (ih _ _ listed)
    | escapedColon word => exact congrArg (Piece.text (':' :: word) :: ·) (ih _ _ listed)
    | colon word =>
      by_cases valid : isSlotName word
      · simp only [slotWords, valid, if_true, List.forall_mem_cons] at listed
        simp only [List.map_cons, renameLexeme, valid, if_true, pieces,
          isSlotName_image allowed listed.1, renamePiece, ih _ _ listed.2]
      · simp only [slotWords, valid, Bool.false_eq_true, if_false] at listed
        simp only [List.map_cons, renameLexeme, valid, Bool.false_eq_true, if_false, pieces,
          renamePiece, ih _ _ listed]

/-! ### The slot table and the parts -/

theorem name_renamed_iff {slot : Slot} {name : Text}
    (injective : image slot.name = image name → slot.name = name) :
    (slot.renamed image).name = image name ↔ slot.name = name :=
  ⟨injective, congrArg image⟩

theorem any_renamed {slots : List Slot} {name : Text}
    (injective : ∀ slot ∈ slots, image slot.name = image name → slot.name = name) :
    (slots.map (Slot.renamed image)).any (·.name = image name) = slots.any (·.name = name) := by
  rw [Bool.eq_iff_iff]
  simp only [List.any_map, List.any_eq_true, Function.comp_apply, decide_eq_true_iff]
  constructor
  · intro found
    obtain ⟨slot, member, same⟩ := found
    exact ⟨slot, member, injective slot member same⟩
  · intro found
    obtain ⟨slot, member, same⟩ := found
    exact ⟨slot, member, congrArg image same⟩

theorem findIdx_renamed {slots : List Slot} {name : Text}
    (injective : ∀ slot ∈ slots, image slot.name = image name → slot.name = name) :
    (slots.map (Slot.renamed image)).findIdx (·.name = image name) =
      slots.findIdx (·.name = name) := by
  induction slots with
  | nil => rfl
  | cons slot rest ih =>
    have later := ih fun other member => injective other (List.mem_cons_of_mem _ member)
    simp only [List.map_cons, List.findIdx_cons, later,
      name_renamed_iff image (injective slot List.mem_cons_self)]

theorem addOccurrence_renamed {slots : List Slot} {name : Text} (isQueryValue : Bool)
    (injective : ∀ slot ∈ slots, image slot.name = image name → slot.name = name) :
    addOccurrence (slots.map (Slot.renamed image)) (image name) isQueryValue =
      (addOccurrence slots name isQueryValue).map (Slot.renamed image) := by
  unfold addOccurrence
  rw [any_renamed image injective]
  split
  · rw [List.map_map, List.map_map]
    apply List.map_congr_left
    intro slot member
    simp only [Function.comp_apply, name_renamed_iff image (injective slot member)]
    split <;> rfl
  · rw [List.map_append]
    rfl

theorem foldl_renamed {names : List Text} (allowed : Renaming names image)
    (pieces : List Piece) (slots : List Slot) (known : ∀ slot ∈ slots, slot.name ∈ names)
    (listed : ∀ name ∈ pieces.filterMap Piece.slotName?, name ∈ names) :
    (pieces.map (renamePiece image)).foldl addPiece (slots.map (Slot.renamed image)) =
      (pieces.foldl addPiece slots).map (Slot.renamed image) := by
  induction pieces generalizing slots with
  | nil => rfl
  | cons piece rest ih =>
    cases piece with
    | text text => exact ih slots known listed
    | slot name isQueryValue =>
      simp only [Piece.slotName?, List.filterMap_cons, List.forall_mem_cons] at listed
      have injective : ∀ slot ∈ slots, image slot.name = image name → slot.name = name :=
        fun slot member => allowed.injective _ (known slot member) _ listed.1
      have grown : ∀ slot ∈ addOccurrence slots name isQueryValue, slot.name ∈ names := by
        intro slot member
        have inTable : slot.name ∈ slotNames (addOccurrence slots name isQueryValue) :=
          List.mem_map_of_mem member
        rw [slotNames_addOccurrence] at inTable
        rcases (mem_foldl_addName [name] _ _).mp inTable with old | new
        · obtain ⟨other, there, same⟩ := List.mem_map.mp old
          exact same ▸ known other there
        · exact List.mem_singleton.mp new ▸ listed.1
      rw [List.map_cons, List.foldl_cons, renamePiece, addPiece,
        addOccurrence_renamed image isQueryValue injective]
      exact ih _ grown listed.2

theorem slotTable_renamed {names : List Text} (allowed : Renaming names image)
    {pieces : List Piece} (listed : ∀ name ∈ pieces.filterMap Piece.slotName?, name ∈ names) :
    slotTable (pieces.map (renamePiece image)) =
      (slotTable pieces).map (Slot.renamed image) :=
  foldl_renamed image allowed pieces [] (by simp) listed

theorem joinPieces_renamed {indexOf newIndexOf : Text → Nat} {pieces : List Piece}
    (same : ∀ name ∈ pieces.filterMap Piece.slotName?, newIndexOf (image name) = indexOf name) :
    joinPieces newIndexOf (pieces.map (renamePiece image)) = joinPieces indexOf pieces := by
  induction pieces with
  | nil => rfl
  | cons piece rest ih =>
    cases piece with
    | text text => rw [List.map_cons, renamePiece, joinPieces, joinPieces, ih same]
    | slot name isQueryValue =>
      simp only [Piece.slotName?, List.filterMap_cons, List.forall_mem_cons] at same
      rw [List.map_cons, renamePiece, joinPieces, joinPieces, same.1, ih same.2]

theorem ofPieces_renamed {names : List Text} (allowed : Renaming names image)
    {pieces : List Piece} (listed : ∀ name ∈ pieces.filterMap Piece.slotName?, name ∈ names)
    (source newSource : Text) :
    ofPieces newSource (pieces.map (renamePiece image)) =
      { source := newSource, parts := (ofPieces source pieces).parts,
        slots := (ofPieces source pieces).slots.map (Slot.renamed image) } := by
  have table := slotTable_renamed image allowed listed
  have known : ∀ slot ∈ slotTable pieces, slot.name ∈ names := by
    intro slot member
    exact listed _ ((mem_names_slotTable pieces slot.name).mp (List.mem_map_of_mem member))
  unfold ofPieces
  rw [table]
  dsimp only
  rw [joinPieces_renamed]
  intro name member
  apply findIdx_renamed
  exact fun slot inTable => allowed.injective _ (known slot inTable) _ (listed name member)

/-! ### The reserved word -/

theorem takeWhile_renameText (text : Text) :
    (renameText image text).takeWhile Text.isWordChar = text.takeWhile Text.isWordChar := by
  induction text using Lexeme.scan_induction with
  | nil => simp
  | char c rest notColon notEscape ih =>
    rw [renameText_char image notColon notEscape, List.takeWhile_cons, List.takeWhile_cons, ih]
  | escapedColon word rest run ih => rw [renameText_escapedColon image run]; rfl
  | colon word rest run ih => rw [renameText_colon image run]; rfl

theorem mem_wordRuns_of_tail {text run : Text} {property : Prop}
    (ofTail : run ∈ (renameText image text).wordRuns.tail →
      run ∈ text.wordRuns.tail ∨ property)
    (member : run ∈ (renameText image text).wordRuns) : run ∈ text.wordRuns ∨ property := by
  rw [Text.mem_wordRuns, takeWhile_renameText] at member
  rw [Text.mem_wordRuns]
  rcases member with first | later
  · exact Or.inl (Or.inl first)
  · exact (ofTail later).imp_left Or.inr

theorem mem_tail_wordRuns_renameText {names : List Text} (allowed : Renaming names image)
    (text : Text) (listed : ∀ word ∈ slotWords (Lexeme.scan text), word ∈ names) {run : Text}
    (member : run ∈ (renameText image text).wordRuns.tail) :
    run ∈ text.wordRuns.tail ∨ ∃ name ∈ names, run = image name := by
  have colonRuns {word rest : Text} (run : Text.WordRun word rest) :
      Text.wordRuns (':' :: (word ++ rest)) = [] :: word :: rest.wordRuns.tail := by
    rw [Text.wordRuns_of_not_isWordChar (by decide), run.wordRuns]
  induction text using Lexeme.scan_induction with
  | nil => exact Or.inl (by simpa using member)
  | char c rest notColon notEscape ih =>
    rw [Lexeme.scan_char notColon notEscape] at listed
    rw [renameText_char image notColon notEscape, Text.tail_wordRuns_cons] at member
    rw [Text.tail_wordRuns_cons]
    by_cases isWord : Text.isWordChar c
    · rw [if_pos isWord] at member ⊢
      exact ih listed member
    · rw [if_neg isWord] at member ⊢
      exact mem_wordRuns_of_tail image (ih listed) member
  | escapedColon word rest run ih =>
    rw [Lexeme.scan_escapedColon run] at listed
    rw [renameText_escapedColon image run, Text.wordRuns_of_not_isWordChar (by decide),
      colonRuns (wordRun_renameText image run run.isWord)] at member
    rw [Text.wordRuns_of_not_isWordChar (by decide), colonRuns run]
    simp only [List.tail_cons, List.mem_cons] at member ⊢
    have later := ih listed
    tauto
  | colon word rest run ih =>
    rw [Lexeme.scan_colon run] at listed
    rw [renameText_colon image run] at member
    rw [colonRuns run]
    by_cases valid : isSlotName word
    · simp only [slotWords, valid, if_true, List.forall_mem_cons] at listed
      have isWord := allowed.isWord word listed.1
      rw [if_pos valid, colonRuns (wordRun_renameText image run isWord)] at member
      simp only [List.tail_cons, List.mem_cons] at member ⊢
      rcases member with isImage | later
      · exact Or.inr ⟨word, listed.1, isImage⟩
      · exact (ih listed.2 later).imp_left Or.inr
    · simp only [slotWords, valid, Bool.false_eq_true, if_false] at listed
      rw [if_neg valid, colonRuns (wordRun_renameText image run run.isWord)] at member
      simp only [List.tail_cons, List.mem_cons] at member ⊢
      have later := ih listed
      tauto

/-- Replacing the name at every slot by its image gives a template with the same parts, and with the
slots under the new names. -/
theorem parse_renameSource {source : Text} {template : Template}
    (parsed : parse source = .ok template)
    (allowed : Renaming (slotNames template.slots) image) :
    parse (renameSource image source) = .ok (template.renamed image) := by
  have accepted := not_reserved_of_parse parsed
  obtain rfl := eq_ofPieces_of_parse parsed
  have namesListed : ∀ name ∈ (pieces false false (Lexeme.scan source)).filterMap Piece.slotName?,
      name ∈ slotNames (slotTable (pieces false false (Lexeme.scan source))) :=
    fun name => (mem_names_slotTable _ name).mpr
  have listed := namesListed
  rw [slotName?_pieces] at listed
  have unreserved : ¬ (renameText image source).wordRuns.contains reservedName := by
    rw [List.contains_iff_mem]
    intro member
    have words := mem_wordRuns_of_tail image
      (mem_tail_wordRuns_renameText image allowed source listed) member
    rcases words with old | ⟨name, there, same⟩
    · exact accepted old
    · exact allowed.notReserved name there same.symm
  rw [parse, renameSource_eq, if_neg unreserved, scan_renameText image allowed source listed,
    pieces_renameLexeme image allowed _ _ _ listed,
    ofPieces_renamed image allowed namesListed source, renamed, renameSource_eq]
  rfl

end
end Template
end RoutePlan

import RoutePlan.Proofs.Template.Pieces

/-!
Which slots are query values. The table keeps one flag for all occurrences of a name, and the flag
is set as soon as one of them stands right behind an equals sign and somewhere behind a question
mark. Neither character can be part of a word, so the scan passes over none of them.
-/
namespace RoutePlan.Template

/-- Right behind an equals sign, and with a question mark somewhere before it. -/
def InQuery (source : Text) (i : Nat) : Prop :=
  (source.take i).getLast? = some '=' ∧ '?' ∈ source.take i

instance (source : Text) (i : Nat) : Decidable (InQuery source i) :=
  inferInstanceAs (Decidable (_ ∧ _))

/-! ### Flags in the slot table -/

def Flagged (slots : List Slot) (name : Text) : Prop :=
  ∃ slot ∈ slots, slot.name = name ∧ slot.isQueryValue = true

theorem flagged_addOccurrence (slots : List Slot) (name other : Text) (isQueryValue : Bool) :
    Flagged (addOccurrence slots name isQueryValue) other ↔
      Flagged slots other ∨ other = name ∧ isQueryValue = true := by
  unfold addOccurrence
  split
  · rename_i known
    constructor
    · intro flagged
      obtain ⟨slot, member, isOther, isQuery⟩ := flagged
      obtain ⟨old, there, rfl⟩ := List.mem_map.mp member
      by_cases same : old.name = name
      · rw [if_pos same] at isOther isQuery
        rcases Bool.or_eq_true_iff.mp isQuery with before | now
        · exact Or.inl ⟨old, there, isOther, before⟩
        · exact Or.inr ⟨isOther.symm.trans same, now⟩
      · rw [if_neg same] at isOther isQuery
        exact Or.inl ⟨old, there, isOther, isQuery⟩
    · intro flagged
      rcases flagged with ⟨old, there, isOther, before⟩ | ⟨same, now⟩
      · refine ⟨_, List.mem_map_of_mem there, ?_, ?_⟩
        · split <;> exact isOther
        · split <;> simp [before]
      · obtain ⟨old, there, isName⟩ := List.any_eq_true.mp known
        have listed : old.name = name := of_decide_eq_true isName
        refine ⟨_, List.mem_map_of_mem there, ?_, ?_⟩
        · rw [if_pos listed]
          exact listed.trans same.symm
        · rw [if_pos listed, now, Bool.or_true]
  · constructor
    · intro flagged
      obtain ⟨slot, member, isOther, isQuery⟩ := flagged
      rcases List.mem_append.mp member with there | new
      · exact Or.inl ⟨slot, there, isOther, isQuery⟩
      · obtain rfl := List.mem_singleton.mp new
        exact Or.inr ⟨isOther.symm, isQuery⟩
    · intro flagged
      rcases flagged with ⟨old, there, isOther, before⟩ | ⟨rfl, now⟩
      · exact ⟨old, List.mem_append_left _ there, isOther, before⟩
      · exact ⟨_, List.mem_append_right _ List.mem_cons_self, rfl, now⟩

theorem flagged_foldl (pieces : List Piece) (slots : List Slot) (name : Text) :
    Flagged (pieces.foldl addPiece slots) name ↔
      Flagged slots name ∨ Piece.slot name true ∈ pieces := by
  induction pieces generalizing slots with
  | nil => simp
  | cons piece rest ih =>
    rw [List.foldl_cons, ih]
    cases piece with
    | text text => simp [addPiece]
    | slot other isQueryValue =>
      have same : Piece.slot name true = .slot other isQueryValue ↔
          name = other ∧ isQueryValue = true := by
        rw [Piece.slot.injEq, eq_comm (a := true)]
      rw [addPiece, flagged_addOccurrence, List.mem_cons, same, or_assoc]

theorem isQueryValue_iff_piece {pieces : List Piece} {slot : Slot}
    (listed : slot ∈ slotTable pieces) :
    slot.isQueryValue = true ↔ Piece.slot slot.name true ∈ pieces := by
  have flagged := flagged_foldl pieces [] slot.name
  have names : (slotNames (slotTable pieces)).Nodup := by
    rw [slotNames_slotTable]
    exact nodup_firstNames _
  constructor
  · intro isQuery
    have inTable : Flagged (slotTable pieces) slot.name := ⟨slot, listed, rfl, isQuery⟩
    simpa [Flagged] using flagged.mp inTable
  · intro occurs
    obtain ⟨other, there, sameName, isQuery⟩ := flagged.mpr (Or.inr occurs)
    have same : other = slot := List.inj_on_of_nodup_map names there listed sameName
    exact same ▸ isQuery

theorem pieceTokens_slot {pieces : List Piece} {name : Text} {isQueryValue : Bool}
    (member : Piece.slot name isQueryValue ∈ pieces) :
    pieceTokens (slotTable pieces) (.slot name isQueryValue) =
      [.slot ⟨name, decide (Piece.slot name true ∈ pieces)⟩] := by
  have named : name ∈ pieces.filterMap Piece.slotName? :=
    List.mem_filterMap.mpr ⟨_, member, rfl⟩
  obtain ⟨slot, listed, found, rfl⟩ := found_at_own_index ((mem_names_slotTable _ _).mpr named)
  have flag : slot.isQueryValue = decide (Piece.slot slot.name true ∈ pieces) := by
    rw [Bool.eq_iff_iff, isQueryValue_iff_piece listed, decide_eq_true_iff]
  simp only [pieceTokens, Piece.part, partTokens, found, ← flag]

/-! ### Flags by position -/

theorem noEquals_of_isWord {word : Text} (isWord : ∀ c ∈ word, Text.isWordChar c) :
    '=' ∉ word := fun member => absurd (isWord '=' member) (by decide)

theorem last_of_word (before : Text) {word : Text} (isWord : ∀ c ∈ word, Text.isWordChar c) :
    (before ++ ':' :: word).getLast? ≠ some '=' := by
  intro last
  rw [List.getLast?_append_cons] at last
  rcases List.mem_cons.mp (List.mem_of_getLast? last) with colon | inWord
  · cases colon
  · exact noEquals_of_isWord isWord inWord

def Piece.occurrence? : Piece → Option (Text × Bool)
  | .text _ => none
  | .slot name isQueryValue => some (name, isQueryValue)

/-- What the scan has kept of the text before a lexeme. -/
structure Tracks (before : Text) (seenQuery afterEquals : Bool) : Prop where
  question : seenQuery = true ↔ '?' ∈ before
  sign : afterEquals = true ↔ before.getLast? = some '='

theorem tracks_nil : Tracks [] false false := by constructor <;> simp

section
variable {before : Text} {seenQuery afterEquals : Bool}

theorem Tracks.char (tracks : Tracks before seenQuery afterEquals) (c : Char) :
    Tracks (before ++ [c]) (seenQuery || c == '?') (c == '=') := by
  constructor
  · rw [Bool.or_eq_true, tracks.question, beq_iff_eq, List.mem_append, List.mem_singleton,
      eq_comm]
  · simp

theorem Tracks.word (tracks : Tracks before seenQuery afterEquals) {word : Text}
    (isWord : ∀ c ∈ word, Text.isWordChar c) : Tracks (before ++ ':' :: word) seenQuery false := by
  have absent : '?' ∉ word := fun member => absurd (isWord '?' member) (by decide)
  constructor
  · simpa [absent] using tracks.question
  · simpa using last_of_word before isWord

theorem Tracks.escapedWord (tracks : Tracks before seenQuery afterEquals) {word : Text}
    (isWord : ∀ c ∈ word, Text.isWordChar c) :
    Tracks (before ++ '\\' :: ':' :: word) seenQuery false := by
  have behindBackslash := (tracks.char '\\').word isWord
  rwa [← List.append_cons, (by decide : ('\\' == '?') = false), Bool.or_false]
    at behindBackslash

/-- The flag that the scan gives an occurrence is what its position in the source tells. -/
theorem occurrences_eq_scan {source : Text} (text : Text) (whole : source = before ++ text)
    (tracks : Tracks before seenQuery afterEquals) :
    (pieces seenQuery afterEquals (Lexeme.scan text)).filterMap Piece.occurrence? =
      (positionsOf before.length (Lexeme.scan text)).map fun i =>
        (wordAt source (i + 1), decide (InQuery source i)) := by
  induction text using Lexeme.scan_induction generalizing before seenQuery afterEquals with
  | nil => simp [pieces, positionsOf]
  | char c rest notColon notEscape ih =>
    rw [Lexeme.scan_char notColon notEscape]
    have past : source = (before ++ [c]) ++ rest := by simp [whole]
    have later := ih past (tracks.char c)
    rw [List.length_append] at later
    exact later
  | escapedColon word rest run ih =>
    rw [Lexeme.scan_escapedColon run]
    have past : source = (before ++ '\\' :: ':' :: word) ++ rest := by simp [whole]
    have later := ih past (tracks.escapedWord run.isWord)
    rw [List.length_append] at later
    exact later
  | colon word rest run ih =>
    rw [Lexeme.scan_colon run]
    have past : source = (before ++ ':' :: word) ++ rest := by simp [whole]
    have later := ih past (tracks.word run.isWord)
    rw [List.length_append] at later
    by_cases valid : isSlotName word
    · have ahead : source.drop before.length = [':'] ++ (word ++ rest) := by simp [whole]
      have name : wordAt source (before.length + 1) = word := wordAt_run run (drop_past ahead)
      have front : source.take before.length = before := by rw [whole, List.take_left]
      have flag : (seenQuery && afterEquals) = decide (InQuery source before.length) := by
        rw [Bool.eq_iff_iff, Bool.and_eq_true, decide_eq_true_iff, InQuery, front,
          tracks.question, tracks.sign, and_comm]
      simp only [pieces, positionsOf, opens, valid, if_true, List.filterMap_cons,
        Piece.occurrence?, List.map_cons, name, flag]
      exact congrArg (_ :: ·) later
    · simp only [pieces, positionsOf, opens, valid, List.filterMap_cons, Piece.occurrence?]
      exact later

end

theorem mem_slotPositions {source : Text} {i : Nat} :
    i ∈ slotPositions source ↔ OpensSlot source i := by
  rw [slotPositions, List.mem_filter, List.mem_range, decide_eq_true_iff]
  refine and_iff_right_of_imp fun opened => ?_
  exact (List.getElem?_eq_some_iff.mp opened.1).1

theorem isQueryValue_iff_position {source : Text} {template : Template}
    (parsed : parse source = .ok template) {slot : Slot} (listed : slot ∈ template.slots) :
    slot.isQueryValue = true ↔
      ∃ i, OpensSlot source i ∧ wordAt source (i + 1) = slot.name ∧ InQuery source i := by
  obtain rfl := eq_ofPieces_of_parse parsed
  have occurrences := occurrences_eq_scan source (List.nil_append source).symm tracks_nil
  rw [List.length_nil, ← slotPositions_eq_scan] at occurrences
  have occurs : Piece.slot slot.name true ∈ pieces false false (Lexeme.scan source) ↔
      (slot.name, true) ∈
        (pieces false false (Lexeme.scan source)).filterMap Piece.occurrence? := by
    rw [List.mem_filterMap]
    constructor
    · exact fun member => ⟨_, member, rfl⟩
    · intro found
      obtain ⟨piece, member, isPiece⟩ := found
      cases piece with
      | text text => cases isPiece
      | slot name isQueryValue => cases isPiece; exact member
  rw [isQueryValue_iff_piece listed, occurs, occurrences, List.mem_map]
  constructor
  · intro found
    obtain ⟨i, there, same⟩ := found
    obtain ⟨name, inQuery⟩ := Prod.mk.inj same
    exact ⟨i, mem_slotPositions.mp there, name, of_decide_eq_true inQuery⟩
  · intro found
    obtain ⟨i, opened, name, inQuery⟩ := found
    exact ⟨i, mem_slotPositions.mpr opened, Prod.ext name (decide_eq_true inQuery)⟩

end RoutePlan.Template

import Mathlib.Data.List.Chain
import Mathlib.Data.List.Dedup
import Mathlib.Data.List.Infix
import RoutePlan.Proofs.Template.Occurrences

/-!
What every parsed template satisfies. The slot table grows at its end only, so that an occurrence
keeps the index that its name had when it came up first; and a literal is cut nowhere but at a slot,
behind which the word of the slot has ended.
-/
namespace RoutePlan.Template

def Part.index? : Part → Option Nat
  | .literal _ => none
  | .slot index => some index

def slotIndices (parts : List Part) : List Nat := parts.filterMap Part.index?

/-- Two literals never meet, and what follows a slot does not carry on its name. -/
def Part.Meets : Part → Part → Prop
  | .literal _, .literal _ => False
  | .slot _, .literal text => ∀ c, text.head? = some c → ¬ Text.isWordChar c
  | _, .slot _ => True

structure WellFormed (template : Template) : Prop where
  inside : ∀ i, Part.slot i ∈ template.parts → i < template.slots.length
  occurs : ∀ i < template.slots.length, Part.slot i ∈ template.parts
  distinct : (slotNames template.slots).Nodup
  inOrder : ∀ before i after, template.parts = before ++ .slot i :: after → .slot i ∉ before →
    i = (slotIndices before).dedup.length
  named : ∀ slot ∈ template.slots, slot.name ≠ [] ∧ (∀ c ∈ slot.name, Text.isWordChar c) ∧
    ¬ slot.name.all Char.isDigit ∧ slot.name ≠ "hasOwnProperty".toList
  filled : Part.literal [] ∉ template.parts
  apart : template.parts.IsChain Part.Meets

/-! ### Indices -/

theorem mem_indices_iff (front later : List Text) (i : Nat) :
    i ∈ front.map ((firstNames (front ++ later)).idxOf ·) ↔ i < (firstNames front).length := by
  obtain ⟨more, whole⟩ : firstNames front <+: firstNames (front ++ later) := by
    rw [firstNames, firstNames, List.foldl_append]
    exact prefix_foldl_addName later _
  have index : ∀ name ∈ front,
      (firstNames (front ++ later)).idxOf name = (firstNames front).idxOf name := by
    intro name member
    rw [← whole, List.idxOf_append_of_mem ((mem_firstNames front name).mpr member)]
  constructor
  · intro member
    obtain ⟨name, there, rfl⟩ := List.mem_map.mp member
    rw [index name there, List.idxOf_lt_length_iff]
    exact (mem_firstNames front name).mpr there
  · intro below
    have there := (mem_firstNames front _).mp (List.getElem_mem below)
    refine List.mem_map.mpr ⟨_, there, ?_⟩
    rw [index _ there, (nodup_firstNames front).idxOf_getElem]

theorem idxOf_first {before : List Text} {name : Text} (fresh : name ∉ before)
    (after : List Text) :
    (firstNames (before ++ name :: after)).idxOf name = (firstNames before).length := by
  have absent : name ∉ firstNames before := fun there => fresh ((mem_firstNames _ _).mp there)
  obtain ⟨more, whole⟩ := prefix_foldl_addName after (firstNames before ++ [name])
  have table : firstNames (before ++ name :: after) = firstNames before ++ [name] ++ more := by
    rw [whole, firstNames, List.foldl_append, List.foldl_cons, ← firstNames, addName,
      if_neg absent]
  rw [table, List.append_assoc, List.idxOf_append_of_notMem absent, List.singleton_append,
    List.idxOf_cons_self, Nat.add_zero]

theorem dedup_length_of_mem_iff {indices : List Nat} {n : Nat}
    (below : ∀ i, i ∈ indices ↔ i < n) : indices.dedup.length = n := by
  have same : indices.dedup.Perm (List.range n) := by
    rw [List.perm_ext_iff_of_nodup (List.nodup_dedup _) List.nodup_range]
    intro i
    rw [List.mem_dedup, List.mem_range, below]
  rw [same.length_eq, List.length_range]

/-! ### Parts -/

theorem mem_slotIndices (parts : List Part) (i : Nat) :
    i ∈ slotIndices parts ↔ Part.slot i ∈ parts := by
  rw [slotIndices, List.mem_filterMap]
  constructor
  · rintro ⟨part, member, index⟩
    cases part with
    | literal text => cases index
    | slot j => cases index; exact member
  · intro member
    exact ⟨_, member, rfl⟩

theorem slotIndices_joinPieces (indexOf : Text → Nat) (pieces : List Piece) :
    slotIndices (joinPieces indexOf pieces) = (pieces.filterMap Piece.slotName?).map indexOf := by
  unfold slotIndices
  induction pieces with
  | nil => rfl
  | cons piece rest ih =>
    cases piece with
    | slot name isQueryValue =>
      simp only [joinPieces, List.filterMap_cons, Part.index?, Piece.slotName?, ih, List.map_cons]
    | text text =>
      rw [List.filterMap_cons_none rfl, ← ih]
      rcases joinPieces_text indexOf text rest with ⟨more, parts, joined, whole⟩ | ⟨-, whole⟩
      · rw [whole, joined]
        rfl
      · rw [whole]
        rfl

theorem index_eq_idxOf (pieces : List Piece) (name : Text) :
    (slotTable pieces).findIdx (·.name = name) =
      (firstNames (pieces.filterMap Piece.slotName?)).idxOf name := by
  rw [← slotNames_slotTable, findIdx_eq_idxOf]

theorem texts_nonempty (seenQuery afterEquals : Bool) (lexemes : List Lexeme) :
    Piece.text [] ∉ pieces seenQuery afterEquals lexemes := by
  induction lexemes generalizing seenQuery afterEquals with
  | nil => simp [pieces]
  | cons lexeme rest ih =>
    cases lexeme with
    | char c => simp [pieces, ih]
    | escapedColon word => simp [pieces, ih]
    | colon word =>
      by_cases valid : isSlotName word
      · simp [pieces, valid, ih]
      · simp [pieces, valid, ih]

theorem literals_nonempty (indexOf : Text → Nat) {pieces : List Piece}
    (nonempty : Piece.text [] ∉ pieces) : Part.literal [] ∉ joinPieces indexOf pieces := by
  induction pieces with
  | nil => simp [joinPieces]
  | cons piece rest ih =>
    have inRest := ih fun there => nonempty (List.mem_cons_of_mem _ there)
    cases piece with
    | slot name isQueryValue => simpa [joinPieces] using inRest
    | text text =>
      have textNonempty : text ≠ [] := by
        rintro rfl
        exact nonempty List.mem_cons_self
      rcases joinPieces_text indexOf text rest with ⟨more, parts, joined, whole⟩ | ⟨-, whole⟩
      · rw [joined] at inRest
        rw [whole]
        intro empty
        rcases List.mem_cons.mp empty with first | later
        · simp [textNonempty] at first
        · exact inRest (List.mem_cons_of_mem _ later)
      · simpa [whole, Ne.symm textNonempty] using inRest

theorem meets_joinPieces_text (indexOf : Text → Nat) (text : Text) {rest : List Piece}
    (apart : (joinPieces indexOf rest).IsChain Part.Meets) :
    (joinPieces indexOf (.text text :: rest)).IsChain Part.Meets := by
  rcases joinPieces_text indexOf text rest with ⟨more, parts, joined, whole⟩ | ⟨noLiteral, whole⟩
  · rw [joined, List.isChain_cons] at apart
    rw [whole, List.isChain_cons]
    refine ⟨fun part first => ?_, apart.2⟩
    have meets := apart.1 part first
    cases part with
    | literal other => exact meets
    | slot index => trivial
  · rw [whole, List.isChain_cons]
    refine ⟨fun part first => ?_, apart⟩
    cases part with
    | literal other => exact noLiteral other first
    | slot index => trivial

theorem first_literal (indexOf : Text → Nat) (seenQuery afterEquals : Bool) (text : Text)
    {literal : Text}
    (first : (joinPieces indexOf (pieces seenQuery afterEquals (Lexeme.scan text))).head? =
      some (.literal literal)) :
    literal.head? = some ':' ∨ literal.head? = text.head? := by
  have opening {c : Char} {more : Text} {rest : List Piece}
      (first : (joinPieces indexOf (.text (c :: more) :: rest)).head? = some (.literal literal)) :
      literal.head? = some c := by
    rcases joinPieces_text indexOf (c :: more) rest with ⟨_, _, -, whole⟩ | ⟨-, whole⟩
    · rw [whole] at first
      cases first
      rfl
    · rw [whole] at first
      cases first
      rfl
  induction text using Lexeme.scan_induction with
  | nil => simp [pieces, joinPieces] at first
  | char c rest notColon notEscape ih =>
    rw [Lexeme.scan_char notColon notEscape] at first
    exact Or.inr (opening first)
  | escapedColon word rest run ih =>
    rw [Lexeme.scan_escapedColon run] at first
    exact Or.inl (opening first)
  | colon word rest run ih =>
    rw [Lexeme.scan_colon run, pieces] at first
    by_cases valid : isSlotName word
    · simp [valid, joinPieces] at first
    · rw [if_neg valid] at first
      exact Or.inl (opening first)

theorem meets_scan (indexOf : Text → Nat) (seenQuery afterEquals : Bool) (text : Text) :
    (joinPieces indexOf (pieces seenQuery afterEquals (Lexeme.scan text))).IsChain Part.Meets := by
  induction text using Lexeme.scan_induction generalizing seenQuery afterEquals with
  | nil => simp [pieces, joinPieces]
  | char c rest notColon notEscape ih =>
    rw [Lexeme.scan_char notColon notEscape]
    exact meets_joinPieces_text indexOf _ (ih _ _)
  | escapedColon word rest run ih =>
    rw [Lexeme.scan_escapedColon run]
    exact meets_joinPieces_text indexOf _ (ih _ _)
  | colon word rest run ih =>
    rw [Lexeme.scan_colon run, pieces]
    by_cases valid : isSlotName word
    · rw [if_pos valid, joinPieces, List.isChain_cons]
      refine ⟨fun part first => ?_, ih _ _⟩
      cases part with
      | slot index => trivial
      | literal literal =>
        intro c begins
        rcases first_literal indexOf _ _ rest first with colon | same
        · obtain rfl : ':' = c := Option.some.inj (colon.symm.trans begins)
          decide
        · exact run.ends c (same.symm.trans begins)
    · rw [if_neg valid]
      exact meets_joinPieces_text indexOf _ (ih _ _)

/-! ### Reserved names -/

theorem slot_pieces_are_runs (text : Text) (seenQuery afterEquals : Bool) {name : Text}
    (slot : name ∈ (pieces seenQuery afterEquals (Lexeme.scan text)).filterMap Piece.slotName?) :
    name ∈ text.wordRuns.tail := by
  -- The run before the first colon is left out, for it may begin further to the left.
  have skip {c : Char} {rest : Text} (later : name ∈ (Text.wordRuns rest).tail) :
      name ∈ (Text.wordRuns (c :: rest)).tail := by
    by_cases isWord : Text.isWordChar c
    · obtain ⟨run, runs, before, after⟩ := Text.wordRuns_of_isWordChar isWord rest
      rw [before] at later
      rw [after]
      exact later
    · rw [Text.wordRuns_of_not_isWordChar isWord]
      exact List.mem_of_mem_tail later
  have afterColon {word rest : Text} (run : Text.WordRun word rest) :
      (Text.wordRuns (':' :: (word ++ rest))).tail = word :: (Text.wordRuns rest).tail := by
    rw [Text.wordRuns_of_not_isWordChar (by decide), run.wordRuns, List.tail_cons]
  induction text using Lexeme.scan_induction generalizing seenQuery afterEquals with
  | nil => simp [pieces] at slot
  | char c rest notColon notEscape ih =>
    rw [Lexeme.scan_char notColon notEscape] at slot
    exact skip (ih _ _ slot)
  | escapedColon word rest run ih =>
    rw [Lexeme.scan_escapedColon run] at slot
    apply skip
    rw [afterColon run]
    exact List.mem_cons_of_mem _ (ih _ _ slot)
  | colon word rest run ih =>
    rw [Lexeme.scan_colon run, pieces, List.filterMap_cons] at slot
    rw [afterColon run]
    by_cases valid : isSlotName word
    · simp only [valid, if_true, Piece.slotName?, List.mem_cons] at slot
      rcases slot with rfl | later
      · exact List.mem_cons_self
      · exact List.mem_cons_of_mem _ (ih _ _ later)
    · simp only [valid, Piece.slotName?] at slot
      exact List.mem_cons_of_mem _ (ih _ _ slot)

theorem not_reserved_of_parse {source : Text} {template : Template}
    (parsed : parse source = .ok template) : reservedName ∉ source.wordRuns := by
  unfold parse at parsed
  split at parsed
  · cases parsed
  · rename_i notReserved
    simpa using notReserved

/-! ### Parsed templates -/

theorem slots_length (source : Text) (pieces : List Piece) :
    (ofPieces source pieces).slots.length =
      (firstNames (pieces.filterMap Piece.slotName?)).length := by
  rw [← slotNames_slotTable, slotNames, List.length_map]
  rfl

theorem slotIndices_ofPieces (source : Text) (pieces : List Piece) :
    slotIndices (ofPieces source pieces).parts =
      (pieces.filterMap Piece.slotName?).map
        ((firstNames (pieces.filterMap Piece.slotName?)).idxOf ·) := by
  rw [ofPieces, slotIndices_joinPieces]
  exact List.map_congr_left fun name _ => index_eq_idxOf pieces name

theorem slot_mem_parts_iff (source : Text) (pieces : List Piece) (i : Nat) :
    Part.slot i ∈ (ofPieces source pieces).parts ↔ i < (ofPieces source pieces).slots.length := by
  have whole := mem_indices_iff (pieces.filterMap Piece.slotName?) [] i
  rw [List.append_nil] at whole
  rw [← mem_slotIndices, slotIndices_ofPieces, whole, slots_length]

theorem new_index (source : Text) (pieces : List Piece) {before after : List Part} {i : Nat}
    (split : (ofPieces source pieces).parts = before ++ .slot i :: after)
    (fresh : Part.slot i ∉ before) : i = (slotIndices before).dedup.length := by
  have indices := slotIndices_ofPieces source pieces
  generalize pieces.filterMap Piece.slotName? = names at indices
  have cut : slotIndices (before ++ .slot i :: after) =
      slotIndices before ++ i :: slotIndices after := by
    rw [slotIndices, List.filterMap_append, List.filterMap_cons]
    rfl
  rw [split, cut] at indices
  obtain ⟨front, back, rfl, atFront, atBack⟩ := List.map_eq_append_iff.mp indices.symm
  obtain ⟨name, later, rfl, own, -⟩ := List.map_eq_cons_iff.mp atBack
  have freshName : name ∉ front := by
    intro there
    apply fresh
    rw [← mem_slotIndices, ← atFront, ← own]
    exact List.mem_map_of_mem there
  rw [← own, idxOf_first freshName, ← atFront]
  exact (dedup_length_of_mem_iff (mem_indices_iff front (name :: later))).symm

/-- Parsing gives a slot table without gaps or repetitions, in the order in which the names come up,
and parts that are as long as they can be. -/
theorem parse_wellFormed {source : Text} {template : Template}
    (parsed : parse source = .ok template) : template.WellFormed := by
  obtain rfl := eq_ofPieces_of_parse parsed
  exact {
    inside := fun i => (slot_mem_parts_iff source _ i).mp
    occurs := fun i => (slot_mem_parts_iff source _ i).mpr
    distinct := by
      have names := slotNames_slotTable (pieces false false (Lexeme.scan source))
      exact names ▸ nodup_firstNames _
    inOrder := fun before i after split fresh => new_index source _ split fresh
    named := by
      intro slot member
      obtain ⟨isName, isWord⟩ := parsed_slots_are_words parsed member
      obtain ⟨nonempty, notNumber⟩ := (isSlotName_iff slot.name).mp isName
      refine ⟨nonempty, isWord, notNumber, fun reserved => not_reserved_of_parse parsed ?_⟩
      have listed : slot.name ∈ slotNames (slotTable (pieces false false (Lexeme.scan source))) :=
        List.mem_map_of_mem member
      have run := slot_pieces_are_runs source false false ((mem_names_slotTable _ _).mp listed)
      rw [reserved] at run
      exact List.mem_of_mem_tail run
    filled := literals_nonempty _ (texts_nonempty _ _ _)
    apart := meets_scan _ _ _ source }

theorem parse_wellFormed_repeated_slots :
    ∃ template, parse "/:b\\:a:8:a?x=:a&y=:b".toList = .ok template ∧ template.WellFormed ∧
      slotNames template.slots = [['b'], ['a']] ∧ slotIndices template.parts = [0, 1, 1, 0] := by
  have parsed : parse "/:b\\:a:8:a?x=:a&y=:b".toList = .ok _ := if_neg (by decide)
  exact ⟨_, parsed, parse_wellFormed parsed, by decide +kernel, by decide +kernel⟩

end RoutePlan.Template

import RoutePlan.Proofs.Template.Authority
import RoutePlan.Proofs.Template.Occurrences

/-!
The parts of a template, read one piece after the other. Joining neighbouring texts changes no
reading that takes a literal character by character, and so the unescaped text and the tokens follow
the lexemes of the source.
-/
namespace RoutePlan

def Lexeme.plain : Lexeme → Text
  | .char c => [c]
  | .escapedColon word => ':' :: word
  | .colon word => ':' :: word

namespace Template

theorem plain_scan (text : Text) :
    (Lexeme.scan text).flatMap Lexeme.plain = unescapeColons text := by
  induction text using Lexeme.scan_induction with
  | nil => rw [Lexeme.scan_nil, List.flatMap_nil, unescapeColons_nil]
  | char c rest notColon notEscape ih =>
    rw [Lexeme.scan_char notColon notEscape, List.flatMap_cons, ih, unescapeColons_cons notEscape]
    rfl
  | escapedColon word rest run ih =>
    rw [Lexeme.scan_escapedColon run, List.flatMap_cons, ih, unescapeColons_escape,
      unescapeColons_word run.isWord]
    rfl
  | colon word rest run ih =>
    have notEscape : ¬ (':' = '\\' ∧ (word ++ rest).head? = some ':') := by simp
    rw [Lexeme.scan_colon run, List.flatMap_cons, ih, unescapeColons_cons notEscape,
      unescapeColons_word run.isWord]
    rfl

def Piece.part (indexOf : Text → Nat) : Piece → Part
  | .text t => .literal t
  | .slot name _ => .slot (indexOf name)

theorem flatMap_joinPieces {α : Type} {read : Part → List α}
    (additive : ∀ first second,
      read (.literal (first ++ second)) = read (.literal first) ++ read (.literal second))
    (indexOf : Text → Nat) (pieces : List Piece) :
    (joinPieces indexOf pieces).flatMap read =
      pieces.flatMap fun piece => read (piece.part indexOf) := by
  induction pieces with
  | nil => rfl
  | cons piece rest ih =>
    rw [List.flatMap_cons, ← ih]
    cases piece with
    | slot name isQueryValue => rfl
    | text text =>
      rcases joinPieces_text indexOf text rest with ⟨more, parts, joined, whole⟩ | ⟨-, whole⟩
      · rw [whole, joined, List.flatMap_cons, List.flatMap_cons, additive, List.append_assoc]
        rfl
      · rw [whole, List.flatMap_cons]
        rfl

theorem found_at_own_index {slots : List Slot} {name : Text} (listed : name ∈ slotNames slots) :
    ∃ slot ∈ slots, slots[slots.findIdx (·.name = name)]? = some slot ∧ slot.name = name := by
  obtain ⟨slot, found, same⟩ := Option.map_eq_some_iff.mp (name_at_own_index listed)
  exact ⟨slot, List.mem_of_getElem? found, found, same⟩

theorem plain_pieces {slots : List Slot} (lexemes : List Lexeme) (seenQuery afterEquals : Bool)
    (listed : ∀ name ∈ (pieces seenQuery afterEquals lexemes).filterMap Piece.slotName?,
      name ∈ slotNames slots) :
    ((pieces seenQuery afterEquals lexemes).flatMap fun piece =>
      partText slots (piece.part fun name => slots.findIdx (·.name = name))) =
        lexemes.flatMap Lexeme.plain := by
  induction lexemes generalizing seenQuery afterEquals with
  | nil => rfl
  | cons lexeme rest ih =>
    cases lexeme with
    | char c => exact congrArg ([c] ++ ·) (ih _ _ listed)
    | escapedColon word => exact congrArg ((':' :: word) ++ ·) (ih _ _ listed)
    | colon word =>
      by_cases valid : isSlotName word
      · simp only [pieces, valid, if_true, List.filterMap_cons, Piece.slotName?, List.mem_cons,
          forall_eq_or_imp] at listed
        obtain ⟨slot, -, found, same⟩ := found_at_own_index listed.1
        have reads : partText slots (.slot (slots.findIdx (·.name = word))) = ':' :: word := by
          simp only [partText, found, same]
        simp only [pieces, valid, if_true, List.flatMap_cons, ih _ _ listed.2]
        exact congrArg (· ++ rest.flatMap Lexeme.plain) reads
      · simp only [pieces, valid, Bool.false_eq_true, if_false] at listed ⊢
        exact congrArg ((':' :: word) ++ ·) (ih _ _ listed)

theorem unescaped_eq_plain {source : Text} {template : Template}
    (parsed : parse source = .ok template) :
    template.unescaped = (Lexeme.scan source).flatMap Lexeme.plain := by
  rw [eq_ofPieces_of_parse parsed, unescaped, ofPieces]
  dsimp only
  rw [flatMap_joinPieces fun first second => rfl]
  exact plain_pieces _ _ _ fun name => (mem_names_slotTable _ name).mpr

def pieceTokens (slots : List Slot) (piece : Piece) : List Token :=
  partTokens slots (piece.part fun name => slots.findIdx (·.name = name))

theorem tokens_eq_pieces {source : Text} {template : Template}
    (parsed : parse source = .ok template) :
    template.tokens =
      (pieces false false (Lexeme.scan source)).flatMap (pieceTokens template.slots) := by
  obtain rfl := eq_ofPieces_of_parse parsed
  exact flatMap_joinPieces (fun first second => List.map_append) _ _

end Template
end RoutePlan

import RoutePlan.Error
import RoutePlan.Template
import RoutePlan.Template.Lexeme

/-!
Reading a template from its source: which colons open a slot, which slots are query values, and the
slot table.
-/
namespace RoutePlan.Template

def reservedName : Text := "hasOwnProperty".toList

/-- A slot is named by a word that is neither empty nor a number. -/
def isSlotName (word : Text) : Bool := word.any fun c => !c.isDigit

inductive Piece where
  | text (text : Text)
  | slot (name : Text) (isQueryValue : Bool)
  deriving DecidableEq

/-- An occurrence is a query value if a `?` was seen and the colon stands right after a `=`. -/
def pieces (seenQuery afterEquals : Bool) : List Lexeme → List Piece
  | [] => []
  | .char c :: rest => .text [c] :: pieces (seenQuery || c == '?') (c == '=') rest
  | .escapedColon word :: rest => .text (':' :: word) :: pieces seenQuery false rest
  | .colon word :: rest =>
    (if isSlotName word then .slot word (seenQuery && afterEquals) else .text (':' :: word)) ::
      pieces seenQuery false rest

def addOccurrence (slots : List Slot) (name : Text) (isQueryValue : Bool) : List Slot :=
  if slots.any (·.name = name) then
    slots.map fun slot =>
      if slot.name = name then { slot with isQueryValue := slot.isQueryValue || isQueryValue }
      else slot
  else slots ++ [⟨name, isQueryValue⟩]

def addPiece (slots : List Slot) : Piece → List Slot
  | .text _ => slots
  | .slot name isQueryValue => addOccurrence slots name isQueryValue

def slotTable (pieces : List Piece) : List Slot := pieces.foldl addPiece []

def joinPieces (indexOf : Text → Nat) : List Piece → List Part
  | [] => []
  | .slot name _ :: rest => .slot (indexOf name) :: joinPieces indexOf rest
  | .text text :: rest =>
    match joinPieces indexOf rest with
    | .literal more :: parts => .literal (text ++ more) :: parts
    | parts => .literal text :: parts

def ofPieces (source : Text) (pieces : List Piece) : Template :=
  let slots := slotTable pieces
  { source, slots, parts := joinPieces (fun name => slots.findIdx (·.name = name)) pieces }

/-- Every word of the source counts for the reserved name, slot or not. -/
def parse (source : Text) : Except RouteError Template :=
  if source.wordRuns.contains reservedName then .error (.invalidParameterName reservedName)
  else .ok (ofPieces source (pieces false false (Lexeme.scan source)))

end RoutePlan.Template

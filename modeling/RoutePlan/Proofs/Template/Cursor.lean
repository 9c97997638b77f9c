import RoutePlan.Proofs.Template.QueryFlag
import RoutePlan.Proofs.Template.WellFormed
import RoutePlan.Proofs.Text.Bytes

/-!
A template read by byte position. Each round of the loop looks at the text from its position on and
moves behind one lexeme. It stands at a boundary in every round, moves on in every round but the
last, and ends with the template that the lexemes give.
-/
namespace RoutePlan.Template

structure Draft where
  parts : List Part
  slots : List Slot
  pending : Text

structure Cursor where
  position : Nat
  seenQuery : Bool
  draft : Draft

namespace Draft

def empty : Draft := ⟨[], [], []⟩

def finished (draft : Draft) : List Part :=
  if draft.pending.isEmpty then draft.parts else draft.parts ++ [.literal draft.pending]

def enter? (slots : List Slot) (name : Text) (isQueryValue : Bool) :
    Option (List Slot × Nat) :=
  match slots.findIdx? (·.name = name) with
  | none => some (slots ++ [⟨name, isQueryValue⟩], slots.length)
  | some index => do
    let slot ← slots[index]?
    return (slots.set index { slot with isQueryValue := slot.isQueryValue || isQueryValue }, index)

def add? (draft : Draft) : Piece → Option Draft
  | .text text => some { draft with pending := draft.pending ++ text }
  | .slot name isQueryValue => do
    let (slots, index) ← enter? draft.slots name isQueryValue
    return ⟨draft.finished ++ [.slot index], slots, []⟩

end Draft

namespace Cursor

def start : Cursor := ⟨0, false, .empty⟩

inductive Round where
  | stop
  | next (cursor : Cursor)

def word? (source : Text) (position : Nat) : Option (Text × Nat) := do
  let rest ← source.from? position
  let length := rest.lengthUntil fun c => !Text.isWordChar c
  return (← rest.upTo? length, position + length)

def isQueryValue? (source : Text) (cursor : Cursor) : Option Bool :=
  if cursor.seenQuery then (source.upTo? cursor.position).map (·.getLast? == some '=')
  else some false

def pass? (cursor : Cursor) (piece : Piece) (position : Nat) : Option Round :=
  (cursor.draft.add? piece).map fun draft => .next { cursor with position, draft }

def take? (source : Text) (cursor : Cursor) : Text → Option Round
  | [] => some .stop
  | c :: rest => do
    if c = '\\' ∧ rest.head? = some ':' then
      let (word, position) ← word? source (cursor.position + 2)
      cursor.pass? (.text (':' :: word)) position
    else if c = ':' then
      let (word, position) ← word? source (cursor.position + 1)
      if isSlotName word then cursor.pass? (.slot word (← cursor.isQueryValue? source)) position
      else cursor.pass? (.text (':' :: word)) position
    else
      pass? { cursor with seenQuery := cursor.seenQuery || c == '?' } (.text [c])
        (cursor.position + c.utf8Size)

/-- One round. It leads nowhere if it looks outside of the source or of the slot table. -/
def step? (source : Text) (cursor : Cursor) : Option Round := do
  cursor.take? source (← source.from? cursor.position)

theorem position_le_of_word? {source word : Text} {position stop : Nat}
    (found : word? source position = some (word, stop)) : position ≤ stop := by
  obtain ⟨rest, -, found⟩ := Option.bind_eq_some_iff.mp found
  obtain ⟨front, -, same⟩ := Option.bind_eq_some_iff.mp found
  cases same
  exact Nat.le_add_right _ _

theorem position_of_pass? {cursor next : Cursor} {piece : Piece} {position : Nat}
    (passed : cursor.pass? piece position = some (.next next)) : next.position = position := by
  obtain ⟨draft, -, same⟩ := Option.map_eq_some_iff.mp passed
  cases same
  rfl

theorem step?_advances {source : Text} {cursor next : Cursor}
    (moved : cursor.step? source = some (.next next)) :
    cursor.position < source.byteLength ∧ cursor.position < next.position := by
  obtain ⟨rest, found, moved⟩ := Option.bind_eq_some_iff.mp moved
  obtain ⟨front, rfl, size⟩ := Text.split_of_from? found
  cases rest with
  | nil => cases moved
  | cons c rest =>
    have positive := c.utf8Size_pos
    refine ⟨by rw [Text.byteLength_append, Text.byteLength_cons]; omega, ?_⟩
    rw [take?] at moved
    split at moved
    · obtain ⟨⟨word, position⟩, word, moved⟩ := Option.bind_eq_some_iff.mp moved
      have := position_le_of_word? word
      rw [position_of_pass? moved]
      omega
    · split at moved
      · obtain ⟨⟨word, position⟩, word, moved⟩ := Option.bind_eq_some_iff.mp moved
        have := position_le_of_word? word
        dsimp only at moved
        split at moved
        · obtain ⟨isQueryValue, -, moved⟩ := Option.bind_eq_some_iff.mp moved
          rw [position_of_pass? moved]
          omega
        · rw [position_of_pass? moved]
          omega
      · rw [position_of_pass? moved]
        exact Nat.lt_add_of_pos_right positive

def run? (source : Text) (cursor : Cursor) : Option Cursor :=
  match _ : cursor.step? source with
  | none => none
  | some .stop => some cursor
  | some (.next next) => run? source next
termination_by source.byteLength - cursor.position
decreasing_by
  have advances := step?_advances ‹_›
  omega

theorem run?_stop {source : Text} {cursor : Cursor} (stopped : cursor.step? source = some .stop) :
    run? source cursor = some cursor := by
  rw [run?]
  split <;> simp_all

theorem run?_next {source : Text} {cursor next : Cursor}
    (moved : cursor.step? source = some (.next next)) : run? source cursor = run? source next := by
  rw [run?]
  split <;> simp_all

/-- The cursors that the loop passes through. -/
inductive Reached (source : Text) : Cursor → Prop where
  | start : Reached source start
  | next {cursor next : Cursor} (before : Reached source cursor)
      (moved : cursor.step? source = some (.next next)) : Reached source next

end Cursor

/-! ### What the pieces add -/

theorem findIdx_foldl_addPiece {slots : List Slot} {name : Text} (listed : name ∈ slotNames slots)
    (pieces : List Piece) :
    (pieces.foldl addPiece slots).findIdx (·.name = name) = slots.findIdx (·.name = name) := by
  obtain ⟨more, whole⟩ :=
    prefix_foldl_addName (pieces.filterMap Piece.slotName?) (slotNames slots)
  rw [findIdx_eq_idxOf, findIdx_eq_idxOf, slotNames_foldl, ← whole,
    List.idxOf_append_of_mem listed]

theorem set_eq_map {slots : List Slot} {name : Text} {index : Nat} {slot : Slot}
    (distinct : (slotNames slots).Nodup) (found : slots.findIdx? (·.name = name) = some index)
    (there : slots[index]? = some slot) (change : Slot → Slot) :
    slots.set index (change slot) =
      slots.map fun other => if other.name = name then change other else other := by
  induction slots generalizing index with
  | nil => cases found
  | cons first rest ih =>
    obtain ⟨fresh, distinctRest⟩ := List.nodup_cons.mp distinct
    rw [List.findIdx?_cons] at found
    by_cases same : first.name = name
    · rw [if_pos (decide_eq_true same)] at found
      cases found
      cases there
      have others : rest.map (fun other => if other.name = name then change other else other) =
          rest.map id := by
        apply List.map_congr_left
        intro other member
        have differs : ¬ other.name = name := fun isName =>
          fresh (List.mem_map.mpr ⟨other, member, isName.trans same.symm⟩)
        exact if_neg differs
      rw [List.map_cons, if_pos same, others, List.map_id, List.set_cons_zero]
    · rw [if_neg (by simpa using same)] at found
      obtain ⟨later, foundLater, rfl⟩ := Option.map_eq_some_iff.mp found
      rw [List.map_cons, if_neg same, List.set_cons_succ, ih distinctRest foundLater there]

theorem joinPieces_texts (indexOf : Text → Nat) (first second : Text) (rest : List Piece) :
    joinPieces indexOf (.text first :: .text second :: rest) =
      joinPieces indexOf (.text (first ++ second) :: rest) := by
  cases joined : joinPieces indexOf rest with
  | nil => simp [joinPieces, joined]
  | cons part parts => cases part <;> simp [joinPieces, joined]

namespace Draft

def add (draft : Draft) : Piece → Draft
  | .text text => { draft with pending := draft.pending ++ text }
  | .slot name isQueryValue =>
    let slots := addOccurrence draft.slots name isQueryValue
    ⟨draft.finished ++ [.slot (slots.findIdx (·.name = name))], slots, []⟩

def Distinct (draft : Draft) : Prop := (slotNames draft.slots).Nodup

theorem slots_add (draft : Draft) (piece : Piece) :
    (draft.add piece).slots = addPiece draft.slots piece := by
  cases piece <;> rfl

theorem slots_foldl (pieces : List Piece) (draft : Draft) :
    (pieces.foldl add draft).slots = pieces.foldl addPiece draft.slots := by
  induction pieces generalizing draft with
  | nil => rfl
  | cons piece rest ih => rw [List.foldl_cons, ih, slots_add, List.foldl_cons]

theorem Distinct.add {draft : Draft} (distinct : draft.Distinct) (piece : Piece) :
    (draft.add piece).Distinct := by
  cases piece with
  | text text => exact distinct
  | slot name isQueryValue =>
    rw [Distinct, slots_add, addPiece, slotNames_addOccurrence]
    exact nodup_foldl_addName distinct [name]

theorem enter?_eq {slots : List Slot} (distinct : (slotNames slots).Nodup) (name : Text)
    (isQueryValue : Bool) :
    enter? slots name isQueryValue =
      some (addOccurrence slots name isQueryValue,
        (addOccurrence slots name isQueryValue).findIdx (·.name = name)) := by
  rw [findIdx_eq_idxOf, slotNames_addOccurrence, addName, enter?]
  cases found : slots.findIdx? (·.name = name) with
  | none =>
    have unknown : ∀ slot ∈ slots, ¬ slot.name = name := by simpa using found
    have absent : name ∉ slotNames slots := by simpa [slotNames] using unknown
    have fresh : ¬ slots.any (·.name = name) := by simpa using unknown
    rw [if_neg absent, List.idxOf_append_of_notMem absent, addOccurrence, if_neg fresh]
    simp [slotNames]
  | some index =>
    obtain ⟨inside, isName, -⟩ := List.findIdx?_eq_some_iff_getElem.mp found
    have member := List.getElem_mem inside
    have listed : name ∈ slotNames slots :=
      List.mem_map.mpr ⟨_, member, of_decide_eq_true isName⟩
    have known : slots.any (·.name = name) := List.any_eq_true.mpr ⟨_, member, isName⟩
    have there := List.getElem?_eq_getElem inside
    have index := (List.findIdx?_eq_some_iff_findIdx_eq.mp found).2
    dsimp only
    rw [if_pos listed, ← findIdx_eq_idxOf, index, addOccurrence, if_pos known,
      ← set_eq_map distinct found there, there]
    rfl

theorem add?_eq {draft : Draft} (distinct : draft.Distinct) (piece : Piece) :
    draft.add? piece = some (draft.add piece) := by
  cases piece with
  | text text => rfl
  | slot name isQueryValue =>
    rw [add?, enter?_eq distinct]
    rfl

def pendingPieces (draft : Draft) : List Piece :=
  if draft.pending.isEmpty then [] else [.text draft.pending]

theorem finished_eq (draft : Draft) (indexOf : Text → Nat) (pieces : List Piece)
    (stops : ∀ literal, (joinPieces indexOf pieces).head? ≠ some (.literal literal)) :
    draft.parts ++ joinPieces indexOf (draft.pendingPieces ++ pieces) =
      draft.finished ++ joinPieces indexOf pieces := by
  unfold pendingPieces finished
  split
  · rfl
  · rcases joinPieces_text indexOf draft.pending pieces with ⟨more, parts, joined, -⟩ | ⟨-, whole⟩
    · exact absurd (by rw [joined]; rfl) (stops more)
    · rw [List.singleton_append, whole, List.append_assoc]
      rfl

theorem joinPieces_pending {text : Text} (nonempty : text ≠ []) (draft : Draft)
    (indexOf : Text → Nat) (rest : List Piece) :
    joinPieces indexOf ((draft.add (.text text)).pendingPieces ++ rest) =
      joinPieces indexOf (draft.pendingPieces ++ .text text :: rest) := by
  have longer : draft.pending ++ text ≠ [] := by simp [nonempty]
  have pending : (draft.add (.text text)).pendingPieces = [.text (draft.pending ++ text)] :=
    if_neg (by simpa [add] using longer)
  rw [pending, List.singleton_append]
  unfold pendingPieces
  split
  · rename_i nothing
    rw [List.isEmpty_iff.mp nothing]
    rfl
  · exact (joinPieces_texts indexOf draft.pending text rest).symm

theorem finished_foldl {pieces : List Piece} (filled : Piece.text [] ∉ pieces) (draft : Draft) :
    (pieces.foldl add draft).finished =
      draft.parts ++
        joinPieces (fun name => (pieces.foldl addPiece draft.slots).findIdx (·.name = name))
          (draft.pendingPieces ++ pieces) := by
  induction pieces generalizing draft with
  | nil =>
    have closed := draft.finished_eq (fun name => draft.slots.findIdx (·.name = name)) [] nofun
    simp only [joinPieces, List.append_nil] at closed
    rw [List.append_nil]
    exact closed.symm
  | cons piece rest ih =>
    have filledRest : Piece.text [] ∉ rest := fun member => filled (List.mem_cons_of_mem _ member)
    rw [List.foldl_cons, ih filledRest, slots_add, ← List.foldl_cons]
    cases piece with
    | text text =>
      have nonempty : text ≠ [] := by
        rintro rfl
        exact filled List.mem_cons_self
      rw [joinPieces_pending nonempty]
      rfl
    | slot name isQueryValue =>
      have listed : name ∈ slotNames (addOccurrence draft.slots name isQueryValue) := by
        rw [slotNames_addOccurrence]
        exact (mem_foldl_addName [name] _ name).mpr (Or.inr List.mem_cons_self)
      have index := findIdx_foldl_addPiece listed rest
      have stops (indexOf : Text → Nat) (literal : Text) :
          (joinPieces indexOf (.slot name isQueryValue :: rest)).head? ≠
            some (.literal literal) := by simp [joinPieces]
      rw [draft.finished_eq _ _ (stops _), joinPieces, List.foldl_cons, addPiece, index]
      exact List.append_assoc _ _ _

end Draft

/-! ### One round -/

def pieceOf (seenQuery afterEquals : Bool) : Lexeme → Piece
  | .char c => .text [c]
  | .escapedColon word => .text (':' :: word)
  | .colon word =>
    if isSlotName word then .slot word (seenQuery && afterEquals) else .text (':' :: word)

theorem pieces_cons (seenQuery afterEquals : Bool) (lexeme : Lexeme) (rest : List Lexeme) :
    pieces seenQuery afterEquals (lexeme :: rest) =
      pieceOf seenQuery afterEquals lexeme ::
        pieces (seenQuery || decide (lexeme = .char '?')) (decide (lexeme = .char '=')) rest := by
  cases lexeme <;> simp [pieces, pieceOf, beq_eq_decide]

namespace Cursor

def pass (cursor : Cursor) (afterEquals : Bool) (lexeme : Lexeme) : Cursor where
  position := cursor.position + lexeme.source.byteLength
  seenQuery := cursor.seenQuery || decide (lexeme = .char '?')
  draft := cursor.draft.add (pieceOf cursor.seenQuery afterEquals lexeme)

def roundOn (cursor : Cursor) (afterEquals : Bool) : List Lexeme → Round
  | [] => .stop
  | lexeme :: _ => .next (cursor.pass afterEquals lexeme)

theorem byteLength_colon (word : Text) :
    (Lexeme.colon word).source.byteLength = 1 + word.byteLength :=
  Text.byteLength_cons ':' word

theorem byteLength_escapedColon (word : Text) :
    (Lexeme.escapedColon word).source.byteLength = 2 + word.byteLength :=
  Text.byteLength_append ['\\', ':'] word

theorem word?_eq {source before word rest : Text} (whole : source = before ++ (word ++ rest))
    (run : Text.WordRun word rest) {position : Nat} (stands : position = before.byteLength) :
    word? source position = some (word, position + word.byteLength) := by
  rw [word?, whole, stands, Text.from?_append]
  simp only [Option.bind_eq_bind, Option.bind_some, run.lengthUntil, Text.upTo?_append]
  rfl

theorem pass?_eq {cursor : Cursor} (distinct : cursor.draft.Distinct) (piece : Piece)
    (position : Nat) :
    cursor.pass? piece position =
      some (.next { cursor with position, draft := cursor.draft.add piece }) := by
  rw [pass?, Draft.add?_eq distinct]
  rfl

theorem isQueryValue?_eq {cursor : Cursor} {before : Text}
    (stands : cursor.position = before.byteLength) (rest : Text) :
    cursor.isQueryValue? (before ++ rest) =
      some (cursor.seenQuery && before.getLast? == some '=') := by
  rw [isQueryValue?, stands, Text.upTo?_append]
  cases cursor.seenQuery <;> rfl

theorem take?_eq {cursor : Cursor} {before : Text} (stands : cursor.position = before.byteLength)
    (distinct : cursor.draft.Distinct) (rest : Text) :
    cursor.take? (before ++ rest) rest =
      some (cursor.roundOn (before.getLast? == some '=') (Lexeme.scan rest)) := by
  cases rest using Lexeme.scan_induction with
  | nil => simp [take?, roundOn]
  | char c rest notColon notEscape _ =>
    rw [take?, if_neg notEscape, if_neg notColon, pass?_eq (by exact distinct),
      Lexeme.scan_char notColon notEscape]
    simp [roundOn, pass, pieceOf, Lexeme.source, beq_eq_decide]
  | escapedColon word rest run _ =>
    have behind : cursor.position + 2 = (before ++ ['\\', ':']).byteLength := by
      rw [stands, Text.byteLength_append]
      rfl
    rw [take?, if_pos ⟨rfl, rfl⟩, word?_eq (by simp) run behind, Lexeme.scan_escapedColon run]
    dsimp only [Option.bind_eq_bind, Option.bind_some]
    rw [pass?_eq distinct]
    simp [roundOn, pass, pieceOf, byteLength_escapedColon, Nat.add_assoc]
  | colon word rest run _ =>
    have behind : cursor.position + 1 = (before ++ [':']).byteLength := by
      rw [stands, Text.byteLength_append]
      rfl
    rw [take?, if_neg (by simp), if_pos rfl, word?_eq (by simp) run behind, Lexeme.scan_colon run]
    dsimp only [Option.bind_eq_bind, Option.bind_some]
    split
    · rename_i valid
      rw [isQueryValue?_eq stands, Option.bind_some, pass?_eq distinct]
      simp [roundOn, pass, pieceOf, byteLength_colon, valid, Nat.add_assoc]
    · rename_i number
      rw [pass?_eq distinct]
      simp [roundOn, pass, pieceOf, byteLength_colon, number, Nat.add_assoc]

/-- A round takes one lexeme, and nothing that it looks at is out of range. -/
theorem step?_eq {cursor : Cursor} {before : Text} (stands : cursor.position = before.byteLength)
    (distinct : cursor.draft.Distinct) (rest : Text) :
    cursor.step? (before ++ rest) =
      some (cursor.roundOn (before.getLast? == some '=') (Lexeme.scan rest)) := by
  rw [step?, stands, Text.from?_append]
  exact take?_eq stands distinct rest

/-! ### All rounds -/

theorem scan_eq_cons {text : Text} {lexeme : Lexeme} {later : List Lexeme}
    (scanned : Lexeme.scan text = lexeme :: later) :
    ∃ rest, text = lexeme.source ++ rest ∧ Lexeme.scan rest = later := by
  cases text using Lexeme.scan_induction with
  | nil =>
    rw [Lexeme.scan_nil] at scanned
    cases scanned
  | char c rest notColon notEscape _ =>
    rw [Lexeme.scan_char notColon notEscape] at scanned
    cases scanned
    exact ⟨rest, rfl, rfl⟩
  | escapedColon word rest run _ =>
    rw [Lexeme.scan_escapedColon run] at scanned
    cases scanned
    exact ⟨rest, rfl, rfl⟩
  | colon word rest run _ =>
    rw [Lexeme.scan_colon run] at scanned
    cases scanned
    exact ⟨rest, rfl, rfl⟩

theorem behind_equals_iff {text : Text} {lexeme : Lexeme} {later : List Lexeme}
    (scanned : Lexeme.scan text = lexeme :: later) (before : Text) :
    ((before ++ lexeme.source).getLast? == some '=') = decide (lexeme = .char '=') := by
  cases text using Lexeme.scan_induction with
  | nil =>
    rw [Lexeme.scan_nil] at scanned
    cases scanned
  | char c rest notColon notEscape _ =>
    rw [Lexeme.scan_char notColon notEscape] at scanned
    cases scanned
    simp [Lexeme.source, beq_eq_decide]
  | escapedColon word rest run _ =>
    rw [Lexeme.scan_escapedColon run] at scanned
    cases scanned
    simpa [Lexeme.source] using last_of_word (before ++ ['\\']) run.isWord
  | colon word rest run _ =>
    rw [Lexeme.scan_colon run] at scanned
    cases scanned
    simpa [Lexeme.source] using last_of_word before run.isWord

theorem source_ne_nil (lexeme : Lexeme) : lexeme.source ≠ [] := by
  cases lexeme <;> simp [Lexeme.source]

/-- What holds of every cursor that the loop passes through. -/
structure Sound (source : Text) (cursor : Cursor) : Prop where
  boundary : source.IsBoundary cursor.position
  distinct : cursor.draft.Distinct

theorem sound_start (source : Text) : Sound source start where
  boundary := Text.isBoundary_append [] source
  distinct := List.nodup_nil

/-- A round has an outcome, and the next cursor stands further on. -/
theorem Sound.round {source : Text} {cursor : Cursor} (sound : Sound source cursor) :
    ∃ round, cursor.step? source = some round ∧
      ∀ next, round = .next next → cursor.position < next.position ∧ Sound source next := by
  obtain ⟨before, rest, rfl, stands⟩ := Text.isBoundary_iff.mp sound.boundary
  refine ⟨_, step?_eq stands.symm sound.distinct rest, ?_⟩
  intro next moved
  cases scanned : Lexeme.scan rest with
  | nil =>
    rw [scanned] at moved
    cases moved
  | cons lexeme later =>
    rw [scanned] at moved
    cases moved
    obtain ⟨further, rfl, -⟩ := scan_eq_cons scanned
    have boundary := Text.isBoundary_append (before ++ lexeme.source) further
    rw [Text.byteLength_append, stands, List.append_assoc] at boundary
    exact ⟨Nat.lt_add_of_pos_right (Text.byteLength_pos (source_ne_nil lexeme)), boundary,
      sound.distinct.add _⟩

theorem sound_of_reached {source : Text} {cursor : Cursor} (reached : Reached source cursor) :
    Sound source cursor := by
  induction reached with
  | start => exact sound_start source
  | next _ moved sound =>
    obtain ⟨round, outcome, further⟩ := sound.round
    rw [moved] at outcome
    exact (further _ (Option.some.inj outcome).symm).2

theorem run?_eq {cursor : Cursor} {before rest : Text} {lexemes : List Lexeme}
    (stands : cursor.position = before.byteLength) (distinct : cursor.draft.Distinct)
    (scanned : Lexeme.scan rest = lexemes) :
    (run? (before ++ rest) cursor).map (·.draft) =
      some ((pieces cursor.seenQuery (before.getLast? == some '=') lexemes).foldl Draft.add
        cursor.draft) := by
  have round := step?_eq stands distinct rest
  rw [scanned] at round
  induction lexemes generalizing cursor before rest with
  | nil =>
    rw [run?_stop round]
    rfl
  | cons lexeme later ih =>
    obtain ⟨further, rfl, scannedLater⟩ := scan_eq_cons scanned
    have standsLater : (cursor.pass (before.getLast? == some '=') lexeme).position =
        (before ++ lexeme.source).byteLength := by
      rw [Text.byteLength_append, ← stands]
      rfl
    have roundLater := step?_eq standsLater (distinct.add _) further
    rw [scannedLater] at roundLater
    have rest := ih standsLater (distinct.add _) scannedLater roundLater
    rw [behind_equals_iff scanned, List.append_assoc] at rest
    rw [run?_next round, rest, pieces_cons, List.foldl_cons]
    rfl

end Cursor

def readAt? (source : Text) : Option Template :=
  (Cursor.run? source .start).map fun cursor =>
    ⟨source, cursor.draft.finished, cursor.draft.slots⟩

def parseAt? (source : Text) : Option (Except RouteError Template) :=
  if source.wordRuns.contains reservedName then some (.error (.invalidParameterName reservedName))
  else (readAt? source).map .ok

theorem readAt?_eq (source : Text) :
    readAt? source = some (ofPieces source (pieces false false (Lexeme.scan source))) := by
  have stands : Cursor.start.position = Text.byteLength [] := rfl
  have read : (Cursor.run? source .start).map (·.draft) =
      some ((pieces false false (Lexeme.scan source)).foldl Draft.add .empty) :=
    Cursor.run?_eq stands List.nodup_nil rfl
  obtain ⟨cursor, run, draft⟩ := Option.map_eq_some_iff.mp read
  have finished := Draft.finished_foldl (texts_nonempty false false (Lexeme.scan source)) .empty
  rw [readAt?, run, Option.map_some, draft, finished, Draft.slots_foldl]
  rfl

theorem parseAt?_eq (source : Text) : parseAt? source = some (parse source) := by
  unfold parseAt? parse
  split
  · rfl
  · rw [readAt?_eq]
    rfl

end RoutePlan.Template

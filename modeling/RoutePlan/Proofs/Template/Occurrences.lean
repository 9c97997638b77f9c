import RoutePlan.Proofs.Template.SlotTable

/-!
Which colons of a source open a slot, told from the characters around each of them, and what a
reading makes of the text between. The scan decides the same from left to right: a colon it meets
outside a word is escaped exactly when a backslash stands before it.
-/
namespace RoutePlan.Template

def wordAt (source : Text) (i : Nat) : Text := (source.drop i).takeWhile Text.isWordChar

def OpensSlot (source : Text) (i : Nat) : Prop :=
  source[i]? = some ':' ∧ (i = 0 ∨ source[i - 1]? ≠ some '\\') ∧
    wordAt source (i + 1) ≠ [] ∧ ¬ (wordAt source (i + 1)).all Char.isDigit

instance (source : Text) (i : Nat) : Decidable (OpensSlot source i) :=
  inferInstanceAs (Decidable (_ ∧ _ ∧ _ ∧ _))

def slotPositions (source : Text) : List Nat :=
  (List.range source.length).filter fun i => OpensSlot source i

def stretches (source : Text) (start : Nat) : List Nat → List Text
  | [] => [source.drop start]
  | i :: later =>
    (source.drop start).take (i - start) ::
      stretches source (i + 1 + (wordAt source (i + 1)).length) later

def unescapeColons (text : Text) : Text := Text.replace "\\:".toList [':'] text

def Part.slotName? (slots : List Slot) : Part → Option Text
  | .literal _ => none
  | .slot index => (slots[index]?).map (·.name)

def occurrenceNames (template : Template) : List Text :=
  template.parts.filterMap (Part.slotName? template.slots)

def prepend (text : Text) : List Text → List Text
  | [] => [text]
  | first :: later => (text ++ first) :: later

def literals : List Part → List Text
  | [] => [[]]
  | .literal text :: rest => prepend text (literals rest)
  | .slot _ :: rest => [] :: literals rest

theorem isSlotName_iff (word : Text) :
    isSlotName word ↔ word ≠ [] ∧ ¬ word.all Char.isDigit := by
  rw [isSlotName, ← List.not_all_eq_any_not, Bool.not_eq_true']
  constructor
  · intro someOther
    refine ⟨?_, by simp [someOther]⟩
    rintro rfl
    cases someOther
  · rintro ⟨-, someOther⟩
    exact Bool.eq_false_iff.mpr someOther

/-! ### Positions -/

def positionsFrom (escaped : Bool) (start : Nat) : Text → List Nat
  | [] => []
  | c :: rest =>
    let later := positionsFrom (c == '\\') (start + 1) rest
    if c == ':' && !escaped && isSlotName (rest.takeWhile Text.isWordChar) then start :: later
    else later

theorem opensSlot_iff (before : Text) (c : Char) (rest : Text) :
    OpensSlot (before ++ c :: rest) before.length ↔
      c = ':' ∧ before.getLast? ≠ some '\\' ∧ isSlotName (rest.takeWhile Text.isWordChar) := by
  have here : (before ++ c :: rest)[before.length]? = some c := by simp
  have word : wordAt (before ++ c :: rest) (before.length + 1) =
      rest.takeWhile Text.isWordChar := by
    rw [wordAt, List.drop_append, List.drop_eq_nil_of_le (Nat.le_succ _)]
    simp
  have previous : (before.length = 0 ∨ (before ++ c :: rest)[before.length - 1]? ≠ some '\\') ↔
      before.getLast? ≠ some '\\' := by
    rcases List.eq_nil_or_concat before with rfl | ⟨front, last, rfl⟩
    · simp
    · simp
  rw [OpensSlot, here, word, previous, isSlotName_iff, Option.some.injEq]

theorem filter_opensSlot (before text : Text) :
    (List.range' before.length text.length).filter (fun i => OpensSlot (before ++ text) i) =
      positionsFrom (before.getLast? == some '\\') before.length text := by
  induction text generalizing before with
  | nil => rfl
  | cons c rest ih =>
    have later := ih (before ++ [c])
    simp only [List.append_assoc, List.singleton_append, List.length_append, List.length_singleton,
      List.getLast?_append, List.getLast?_singleton, Option.some_or] at later
    have opened : decide (OpensSlot (before ++ c :: rest) before.length) =
        (c == ':' && !(before.getLast? == some '\\') &&
          isSlotName (rest.takeWhile Text.isWordChar)) := by
      rw [Bool.eq_iff_iff, decide_eq_true_iff, opensSlot_iff]
      simp [and_assoc]
    rw [List.length_cons, List.range'_succ, List.filter_cons, positionsFrom, later, opened]
    simp

theorem slotPositions_eq (source : Text) : slotPositions source = positionsFrom false 0 source := by
  have all := filter_opensSlot [] source
  simpa [slotPositions, List.range_eq_range'] using all

theorem positionsFrom_word {word : Text} (isWord : ∀ c ∈ word, Text.isWordChar c) (start : Nat)
    (rest : Text) :
    positionsFrom false start (word ++ rest) = positionsFrom false (start + word.length) rest := by
  induction word generalizing start with
  | nil => rfl
  | cons c word ih =>
    have notColon : c ≠ ':' := by
      rintro rfl
      exact absurd (isWord ':' (by simp)) (by decide)
    have notBackslash : c ≠ '\\' := by
      rintro rfl
      exact absurd (isWord '\\' (by simp)) (by decide)
    have later := ih (fun c member => isWord c (List.mem_cons_of_mem _ member)) (start + 1)
    simp only [List.cons_append, positionsFrom, beq_eq_false_iff_ne.mpr notColon,
      beq_eq_false_iff_ne.mpr notBackslash, Bool.false_and, Bool.false_eq_true, if_false, later,
      List.length_cons]
    congr 1
    omega

/-! ### What the scan finds -/

def opens : Lexeme → Bool
  | .colon word => isSlotName word
  | _ => false

def positionsOf (start : Nat) : List Lexeme → List Nat
  | [] => []
  | lexeme :: rest =>
    let later := positionsOf (start + lexeme.source.length) rest
    if opens lexeme then start :: later else later

def stretchesOf : List Lexeme → List Text
  | [] => [[]]
  | lexeme :: rest =>
    if opens lexeme then [] :: stretchesOf rest else prepend lexeme.source (stretchesOf rest)

theorem positionsFrom_eq_scan (text : Text) (escaped : Bool) (start : Nat)
    (whole : ¬ (escaped ∧ text.head? = some ':')) :
    positionsFrom escaped start text = positionsOf start (Lexeme.scan text) := by
  -- A lexeme never ends inside an escape, so that `whole` holds again behind each.
  induction text using Lexeme.scan_induction generalizing escaped start with
  | nil => simp [positionsFrom, positionsOf]
  | char c rest notColon notEscape ih =>
    have next : ¬ ((c == '\\') ∧ rest.head? = some ':') := by simpa using notEscape
    rw [Lexeme.scan_char notColon notEscape]
    simp only [positionsFrom, positionsOf, opens, Lexeme.source, List.length_singleton,
      beq_eq_false_iff_ne.mpr notColon, Bool.false_and, Bool.false_eq_true, if_false]
    exact ih (c == '\\') (start + 1) next
  | escapedColon word rest run ih =>
    rw [Lexeme.scan_escapedColon run]
    have stop : start + (word.length + 1 + 1) = start + 1 + 1 + word.length := by omega
    simp only [positionsFrom, positionsOf, opens, Lexeme.source, List.length_cons, stop,
      Char.reduceBEq, Bool.false_and, Bool.not_true, Bool.and_false, Bool.false_eq_true, if_false]
    rw [positionsFrom_word run.isWord]
    exact ih false _ (by simp)
  | colon word rest run ih =>
    have unescaped : escaped = false := by simpa using whole
    have stop : start + (word.length + 1) = start + 1 + word.length := by omega
    have later := ih false (start + 1 + word.length) (by simp)
    rw [Lexeme.scan_colon run]
    simp only [positionsFrom, positionsOf, opens, Lexeme.source, List.length_cons, stop, unescaped,
      run.takeWhile, Char.reduceBEq, Bool.not_false, Bool.and_self, Bool.true_and]
    rw [positionsFrom_word run.isWord, later]

theorem slotPositions_eq_scan (source : Text) :
    slotPositions source = positionsOf 0 (Lexeme.scan source) := by
  rw [slotPositions_eq, positionsFrom_eq_scan source false 0 (by simp)]

theorem drop_past {source first rest : Text} {start : Nat}
    (ahead : source.drop start = first ++ rest) : source.drop (start + first.length) = rest := by
  rw [← List.drop_drop, ahead, List.drop_left]

theorem wordAt_run {source word rest : Text} {start : Nat} (run : Text.WordRun word rest)
    (ahead : source.drop start = word ++ rest) : wordAt source start = word := by
  rw [wordAt, ahead, run.takeWhile]

theorem le_of_mem_positionsOf (lexemes : List Lexeme) (start : Nat) :
    ∀ i ∈ positionsOf start lexemes, start ≤ i := by
  induction lexemes generalizing start with
  | nil => simp [positionsOf]
  | cons lexeme rest ih =>
    have later : ∀ i ∈ positionsOf (start + lexeme.source.length) rest, start ≤ i :=
      fun i member => Nat.le_trans (Nat.le_add_right _ _) (ih _ i member)
    simp only [positionsOf]
    split
    · intro i member
      rcases List.mem_cons.mp member with rfl | member
      · exact Nat.le_refl i
      · exact later i member
    · exact later

theorem stretches_prepend {source first rest : Text} {start : Nat} {positions : List Nat}
    (ahead : source.drop start = first ++ rest)
    (later : ∀ i ∈ positions, start + first.length ≤ i) :
    stretches source start positions =
      prepend first (stretches source (start + first.length) positions) := by
  have past := drop_past ahead
  cases positions with
  | nil => rw [stretches, stretches, past, ahead, prepend]
  | cons i positions =>
    have reached := later i (by simp)
    have split : i - start = first.length + (i - (start + first.length)) := by omega
    rw [stretches, stretches, past, ahead, prepend, split, List.take_length_add_append]

theorem stretches_eq_scan (source text : Text) (start : Nat) (ahead : source.drop start = text) :
    stretches source start (positionsOf start (Lexeme.scan text)) =
      stretchesOf (Lexeme.scan text) := by
  -- A lexeme that opens no slot lengthens the stretch in front of the first later position.
  have lengthen {lexeme : Lexeme} {rest : Text} (start : Nat) (plain : opens lexeme = false)
      (ahead : source.drop start = lexeme.source ++ rest)
      (ih : ∀ start, source.drop start = rest →
        stretches source start (positionsOf start (Lexeme.scan rest)) =
          stretchesOf (Lexeme.scan rest)) :
      stretches source start (positionsOf start (lexeme :: Lexeme.scan rest)) =
        stretchesOf (lexeme :: Lexeme.scan rest) := by
    simp only [positionsOf, stretchesOf, plain, Bool.false_eq_true, if_false]
    rw [stretches_prepend ahead (le_of_mem_positionsOf _ _), ih _ (drop_past ahead)]
  induction text using Lexeme.scan_induction generalizing start with
  | nil => simp [positionsOf, stretchesOf, stretches, ahead]
  | char c rest notColon notEscape ih =>
    rw [Lexeme.scan_char notColon notEscape]
    exact lengthen start rfl ahead ih
  | escapedColon word rest run ih =>
    rw [Lexeme.scan_escapedColon run]
    exact lengthen start rfl ahead ih
  | colon word rest run ih =>
    rw [Lexeme.scan_colon run]
    by_cases valid : isSlotName word
    · have afterColon : source.drop (start + [':'].length) = word ++ rest := drop_past ahead
      have name : wordAt source (start + 1) = word := wordAt_run run afterColon
      have stop : start + (word.length + 1) = start + 1 + word.length := by omega
      simp only [positionsOf, stretchesOf, opens, valid, if_true, stretches, Nat.sub_self,
        List.take_zero, Lexeme.source, List.length_cons, name, stop]
      exact congrArg ([] :: ·) (ih _ (drop_past afterColon))
    · exact lengthen start (by simpa [opens] using valid) ahead ih

theorem names_eq_scan (source text : Text) (start : Nat) (seenQuery afterEquals : Bool)
    (ahead : source.drop start = text) :
    (positionsOf start (Lexeme.scan text)).map (fun i => wordAt source (i + 1)) =
      (pieces seenQuery afterEquals (Lexeme.scan text)).filterMap Piece.slotName? := by
  induction text using Lexeme.scan_induction generalizing start seenQuery afterEquals with
  | nil => simp [positionsOf, pieces]
  | char c rest notColon notEscape ih =>
    rw [Lexeme.scan_char notColon notEscape]
    exact ih _ _ _ (drop_past (show source.drop start = [c] ++ rest from ahead))
  | escapedColon word rest run ih =>
    rw [Lexeme.scan_escapedColon run]
    exact ih _ _ _ (drop_past (show source.drop start = ('\\' :: ':' :: word) ++ rest from ahead))
  | colon word rest run ih =>
    have afterColon : source.drop (start + [':'].length) = word ++ rest := drop_past ahead
    have name : wordAt source (start + 1) = word := wordAt_run run afterColon
    have later := ih (start + (':' :: word).length) seenQuery false
      (drop_past (show source.drop start = (':' :: word) ++ rest from ahead))
    rw [Lexeme.scan_colon run]
    by_cases valid : isSlotName word
    · simp only [positionsOf, opens, valid, if_true, List.map_cons, name, pieces,
        List.filterMap_cons, Piece.slotName?]
      exact congrArg (word :: ·) later
    · simp only [positionsOf, opens, valid, pieces, List.filterMap_cons, Piece.slotName?]
      exact later

/-! ### Unescaping -/

@[simp] theorem unescapeColons_nil : unescapeColons [] = [] := rfl

theorem unescapeColons_escape (text : Text) :
    unescapeColons ('\\' :: ':' :: text) = ':' :: unescapeColons text := rfl

theorem unescapeColons_cons {c : Char} {text : Text}
    (notEscape : ¬ (c = '\\' ∧ text.head? = some ':')) :
    unescapeColons (c :: text) = c :: unescapeColons text := by
  have stays : ¬ "\\:".toList <+: c :: text := by
    rintro ⟨more, same⟩
    obtain ⟨rfl, rfl⟩ : '\\' = c ∧ ':' :: more = text := List.cons.inj same
    exact notEscape ⟨rfl, rfl⟩
  exact Text.replace_cons stays _

theorem unescapeColons_word {word : Text} (isWord : ∀ c ∈ word, Text.isWordChar c) (rest : Text) :
    unescapeColons (word ++ rest) = word ++ unescapeColons rest := by
  induction word with
  | nil => rfl
  | cons c word ih =>
    have notEscape : ¬ (c = '\\' ∧ (word ++ rest).head? = some ':') := by
      rintro ⟨rfl, -⟩
      exact absurd (isWord '\\' (by simp)) (by decide)
    rw [List.cons_append, unescapeColons_cons notEscape,
      ih fun c member => isWord c (List.mem_cons_of_mem _ member), List.cons_append]

def literalsOf : List Piece → List Text
  | [] => [[]]
  | .text text :: rest => prepend text (literalsOf rest)
  | .slot _ _ :: rest => [] :: literalsOf rest

theorem stretchesOf_first (lexemes : List Lexeme) :
    ∃ first later, stretchesOf lexemes = first :: later ∧
      first <+: lexemes.flatMap Lexeme.source := by
  induction lexemes with
  | nil => exact ⟨[], [], rfl, List.nil_prefix⟩
  | cons lexeme rest ih =>
    obtain ⟨first, later, same, isPrefix⟩ := ih
    unfold stretchesOf
    split
    · exact ⟨[], _, rfl, List.nil_prefix⟩
    · rw [same]
      refine ⟨lexeme.source ++ first, later, rfl, ?_⟩
      rw [List.flatMap_cons]
      exact (List.prefix_append_right_inj _).mpr isPrefix

theorem map_unescape_prepend {lexemes : List Lexeme} {source literal : Text}
    (unescapes : ∀ text, text <+: lexemes.flatMap Lexeme.source →
      unescapeColons (source ++ text) = literal ++ unescapeColons text) :
    (prepend source (stretchesOf lexemes)).map unescapeColons =
      prepend literal ((stretchesOf lexemes).map unescapeColons) := by
  obtain ⟨first, later, same, isPrefix⟩ := stretchesOf_first lexemes
  simp only [same, prepend, List.map_cons, unescapes first isPrefix]

theorem unescaped_stretches (text : Text) (seenQuery afterEquals : Bool) :
    (stretchesOf (Lexeme.scan text)).map unescapeColons =
      literalsOf (pieces seenQuery afterEquals (Lexeme.scan text)) := by
  induction text using Lexeme.scan_induction generalizing seenQuery afterEquals with
  | nil => simp [stretchesOf, pieces, literalsOf]
  | char c rest notColon notEscape ih =>
    rw [Lexeme.scan_char notColon notEscape]
    simp only [stretchesOf, opens, Bool.false_eq_true, if_false, pieces, literalsOf, ← ih]
    apply map_unescape_prepend
    rw [Lexeme.source_scan]
    intro text isPrefix
    apply unescapeColons_cons
    rintro ⟨isBackslash, isColon⟩
    have opensWithColon : text.head? = some ':' := isColon
    obtain ⟨more, rfl⟩ := isPrefix
    exact notEscape ⟨isBackslash, by rw [List.head?_append, opensWithColon, Option.some_or]⟩
  | escapedColon word rest run ih =>
    rw [Lexeme.scan_escapedColon run]
    simp only [stretchesOf, opens, Bool.false_eq_true, if_false, pieces, literalsOf, ← ih]
    apply map_unescape_prepend
    intro text _
    rw [Lexeme.source, List.cons_append, List.cons_append, unescapeColons_escape,
      unescapeColons_word run.isWord, List.cons_append]
  | colon word rest run ih =>
    rw [Lexeme.scan_colon run]
    by_cases valid : isSlotName word
    · simp only [stretchesOf, opens, valid, if_true, pieces, literalsOf, List.map_cons, ← ih,
        unescapeColons_nil]
    · simp only [stretchesOf, opens, valid, Bool.false_eq_true, if_false, pieces, literalsOf, ← ih]
      apply map_unescape_prepend
      intro text _
      rw [Lexeme.source, List.cons_append, unescapeColons_cons (by simp),
        unescapeColons_word run.isWord, List.cons_append]

/-! ### Parts -/

theorem prepend_prepend (first second : Text) (stretches : List Text) :
    prepend first (prepend second stretches) = prepend (first ++ second) stretches := by
  cases stretches with
  | nil => rfl
  | cons third later => simp only [prepend, List.append_assoc]

theorem joinPieces_text (indexOf : Text → Nat) (text : Text) (rest : List Piece) :
    (∃ more parts, joinPieces indexOf rest = .literal more :: parts ∧
      joinPieces indexOf (.text text :: rest) = .literal (text ++ more) :: parts) ∨
    (∀ more, (joinPieces indexOf rest).head? ≠ some (.literal more)) ∧
      joinPieces indexOf (.text text :: rest) = .literal text :: joinPieces indexOf rest := by
  rw [joinPieces]
  split
  · rename_i more parts joined
    exact Or.inl ⟨more, parts, joined, rfl⟩
  · rename_i noLiteral
    refine Or.inr ⟨fun more first => ?_, rfl⟩
    obtain ⟨parts, joined⟩ := List.head?_eq_some_iff.mp first
    exact noLiteral more parts joined

theorem literals_joinPieces (indexOf : Text → Nat) (pieces : List Piece) :
    literals (joinPieces indexOf pieces) = literalsOf pieces := by
  induction pieces with
  | nil => rfl
  | cons piece rest ih =>
    cases piece with
    | slot name isQueryValue => rw [joinPieces, literals, literalsOf, ih]
    | text text =>
      rw [literalsOf, ← ih]
      rcases joinPieces_text indexOf text rest with ⟨more, parts, joined, whole⟩ | ⟨-, whole⟩
      · rw [whole, joined, literals, literals, prepend_prepend]
      · rw [whole, literals]

theorem names_joinPieces (slots : List Slot) (pieces : List Piece)
    (listed : ∀ name ∈ pieces.filterMap Piece.slotName?, name ∈ slotNames slots) :
    (joinPieces (fun name => slots.findIdx (·.name = name)) pieces).filterMap
      (Part.slotName? slots) = pieces.filterMap Piece.slotName? := by
  induction pieces with
  | nil => rfl
  | cons piece rest ih =>
    cases piece with
    | slot name isQueryValue =>
      simp only [Piece.slotName?, List.filterMap_cons, List.mem_cons, forall_eq_or_imp] at listed
      obtain ⟨known, later⟩ := listed
      simp only [joinPieces, List.filterMap_cons, Part.slotName?, name_at_own_index known,
        Piece.slotName?, ih later]
    | text text =>
      have later := ih listed
      rcases joinPieces_text (fun name => slots.findIdx (·.name = name)) text rest with
        ⟨more, parts, joined, whole⟩ | ⟨-, whole⟩
      · rw [joined] at later
        rw [whole]
        exact later
      · rw [whole]
        exact later

/-! ### What parsing finds -/

/-- Parsing puts a slot exactly where a colon opens one, under the name that follows the colon, and
keeps the text between the slots but for the backslashes of escaped colons. -/
theorem parse_occurrences {source : Text} {template : Template}
    (parsed : parse source = .ok template) :
    occurrenceNames template =
        (slotPositions source).map (fun i => wordAt source (i + 1)) ∧
      literals template.parts =
        (stretches source 0 (slotPositions source)).map unescapeColons := by
  rw [eq_ofPieces_of_parse parsed, slotPositions_eq_scan]
  have whole : source.drop 0 = source := rfl
  constructor
  · rw [names_eq_scan source source 0 false false whole]
    exact names_joinPieces _ _ fun name member => (mem_names_slotTable _ _).mpr member
  · rw [stretches_eq_scan source source 0 whole, unescaped_stretches source false false]
    exact literals_joinPieces _ _

theorem parse_occurrences_past_escape_and_number :
    ∃ template, parse "/\\:a:80?:b=:b".toList = .ok template ∧
      slotPositions "/\\:a:80?:b=:b".toList = [8, 11] ∧
      occurrenceNames template = [['b'], ['b']] ∧
      literals template.parts = ["/:a:80?".toList, ['='], []] := by
  have parsed : parse "/\\:a:80?:b=:b".toList = .ok _ := if_neg (by decide)
  obtain ⟨names, texts⟩ := parse_occurrences parsed
  exact ⟨_, parsed, by decide, names.trans (by decide), texts.trans (by decide)⟩

end RoutePlan.Template

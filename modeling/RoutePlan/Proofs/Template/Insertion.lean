import RoutePlan.Proofs.Route.Canonical
import RoutePlan.Proofs.Template.QueryFlag
import RoutePlan.Proofs.Template.Words

/-!
A path segment put into a source, at its end or before a slash. No word and no escape reaches over a
slash, so the lexemes before and behind the segment are the same with it and without it. If the
segment is a slot, the other tokens stay what they are, for behind a slash there is no query value.
-/
namespace RoutePlan

namespace Text

theorem wordRuns_append_break {c : Char} (notWord : ¬ isWordChar c) (before after : Text) :
    wordRuns (before ++ c :: after) = wordRuns before ++ wordRuns after := by
  induction before with
  | nil => exact wordRuns_of_not_isWordChar notWord after
  | cons d before ih =>
    rw [List.cons_append]
    by_cases isWord : isWordChar d
    · obtain ⟨run, later, runs, longer⟩ := wordRuns_of_isWordChar isWord before
      obtain ⟨run', later', runs', longer'⟩ := wordRuns_of_isWordChar isWord (before ++ c :: after)
      rw [runs', runs, List.cons_append] at ih
      obtain ⟨rfl, rfl⟩ := List.cons.inj ih
      rw [longer', longer, List.cons_append]
    · rw [wordRuns_of_not_isWordChar isWord, ih, wordRuns_of_not_isWordChar isWord,
        List.cons_append]

theorem mem_wordRuns_of_insertion {before after run : Text} (rooted : Rooted after)
    (segment : Text) (member : run ∈ wordRuns (before ++ after)) :
    run ∈ wordRuns (before ++ '/' :: (segment ++ after)) := by
  have slashBreaks : ¬ isWordChar '/' := by decide
  rw [wordRuns_append_break slashBreaks, List.mem_append]
  rcases rooted with rfl | slash
  · rw [List.append_nil] at member
    exact Or.inl member
  · obtain ⟨rest, rfl⟩ := List.head?_eq_some_iff.mp slash
    rw [wordRuns_append_break slashBreaks, List.mem_append] at member
    rw [wordRuns_append_break slashBreaks, List.mem_append]
    exact member.imp_right Or.inr

end Text

theorem Rooted.eq_slash {text : Text} (rooted : Rooted text) {c : Char}
    (first : text.head? = some c) : c = '/' := by
  rcases rooted with rfl | slash
  · cases first
  · exact Option.some.inj (first.symm.trans slash)

theorem Rooted.wordRun {after word : Text} (rooted : Rooted after)
    (isWord : ∀ c ∈ word, Text.isWordChar c) : Text.WordRun word after := by
  refine ⟨isWord, fun c first => ?_⟩
  rw [rooted.eq_slash first]
  decide

theorem Text.WordRun.append {word rest after : Text} (run : WordRun word rest)
    (rooted : Rooted after) : WordRun word (rest ++ after) := by
  cases rest with
  | nil => exact rooted.wordRun run.isWord
  | cons c rest => exact ⟨run.isWord, run.ends⟩

theorem Lexeme.scan_append {after : Text} (rooted : Rooted after) (before : Text) :
    scan (before ++ after) = scan before ++ scan after := by
  induction before using scan_induction with
  | nil => rw [scan_nil, List.nil_append, List.nil_append]
  | char c rest notColon notEscape ih =>
    have stillNotEscape : ¬ (c = '\\' ∧ (rest ++ after).head? = some ':') := by
      rintro ⟨isBackslash, isColon⟩
      cases rest with
      | nil => exact absurd (rooted.eq_slash isColon) (by decide)
      | cons d rest => exact notEscape ⟨isBackslash, isColon⟩
    rw [List.cons_append, scan_char notColon stillNotEscape, scan_char notColon notEscape, ih,
      List.cons_append]
  | escapedColon word rest run ih =>
    rw [List.cons_append, List.cons_append, List.append_assoc,
      scan_escapedColon (run.append rooted), scan_escapedColon run, ih, List.cons_append]
  | colon word rest run ih =>
    rw [List.cons_append, List.append_assoc, scan_colon (run.append rooted), scan_colon run, ih,
      List.cons_append]

theorem Lexeme.scan_rooted {text : Text} (rooted : Rooted text) :
    text = [] ∧ scan text = [] ∨ ∃ later, scan text = .char '/' :: later := by
  rcases rooted with rfl | slash
  · exact Or.inl ⟨rfl, scan_nil⟩
  · obtain ⟨rest, rfl⟩ := List.head?_eq_some_iff.mp slash
    exact Or.inr ⟨scan rest, scan_char (by decide) (by simp)⟩

namespace Template

theorem unescapeColons_append {after : Text} (rooted : Rooted after) (before : Text) :
    unescapeColons (before ++ after) = unescapeColons before ++ unescapeColons after := by
  rcases rooted with rfl | slash
  · rw [List.append_nil, unescapeColons_nil, List.append_nil]
  · obtain ⟨rest, rfl⟩ := List.head?_eq_some_iff.mp slash
    exact Text.replace_append_break (by decide) (by decide) _ before rest

theorem pieces_append (lexemes : List Lexeme) (seenQuery afterEquals : Bool) :
    ∃ seenQuery' afterEquals', ∀ later,
      pieces seenQuery afterEquals (lexemes ++ later) =
        pieces seenQuery afterEquals lexemes ++ pieces seenQuery' afterEquals' later := by
  induction lexemes generalizing seenQuery afterEquals with
  | nil => exact ⟨seenQuery, afterEquals, fun later => rfl⟩
  | cons lexeme rest ih =>
    cases lexeme with
    | char c =>
      obtain ⟨seen, after, same⟩ := ih (seenQuery || c == '?') (c == '=')
      exact ⟨seen, after, fun later => congrArg (_ :: ·) (same later)⟩
    | escapedColon word =>
      obtain ⟨seen, after, same⟩ := ih seenQuery false
      exact ⟨seen, after, fun later => congrArg (_ :: ·) (same later)⟩
    | colon word =>
      obtain ⟨seen, after, same⟩ := ih seenQuery false
      exact ⟨seen, after, fun later => congrArg (_ :: ·) (same later)⟩

section
variable {before after name : Text}

theorem pieces_insertion (valid : isSlotName name) (isWord : ∀ c ∈ name, Text.isWordChar c)
    (rooted : Rooted after) (before : Text) :
    ∃ behind, (after = [] ∧ behind = [] ∨ behind.head? = some (.text ['/'])) ∧
      pieces false false (Lexeme.scan (before ++ after)) =
        pieces false false (Lexeme.scan before) ++ behind ∧
      pieces false false (Lexeme.scan (before ++ '/' :: ':' :: (name ++ after))) =
        pieces false false (Lexeme.scan before) ++ .text ['/'] :: .slot name false :: behind := by
  obtain ⟨seenQuery, afterEquals, same⟩ := pieces_append (Lexeme.scan before) false false
  have scanned : Lexeme.scan ('/' :: ':' :: (name ++ after)) =
      .char '/' :: .colon name :: Lexeme.scan after := by
    rw [Lexeme.scan_char (by decide) (by simp), Lexeme.scan_colon (rooted.wordRun isWord)]
  have read : pieces seenQuery afterEquals (.char '/' :: .colon name :: Lexeme.scan after) =
      .text ['/'] :: .slot name false :: pieces seenQuery false (Lexeme.scan after) := by
    simp [pieces, valid]
  refine ⟨pieces seenQuery false (Lexeme.scan after), ?_, ?_, ?_⟩
  · rcases Lexeme.scan_rooted rooted with ⟨nothing, empty⟩ | ⟨later, opens⟩
    · exact Or.inl ⟨nothing, by rw [empty, pieces]⟩
    · exact Or.inr (by rw [opens, pieces]; rfl)
  · rw [Lexeme.scan_append rooted, same]
    rcases Lexeme.scan_rooted rooted with ⟨nothing, empty⟩ | ⟨later, opens⟩
    · rw [empty, pieces, pieces]
    · rw [opens, pieces, pieces]
  · rw [Lexeme.scan_append (Or.inr rfl), same, scanned, read]

theorem pieceTokens_congr {pieces others : List Piece}
    (sameFlags : ∀ name, Piece.slot name true ∈ pieces ↔ Piece.slot name true ∈ others)
    {piece : Piece} (inPieces : piece ∈ pieces) (inOthers : piece ∈ others) :
    pieceTokens (slotTable pieces) piece = pieceTokens (slotTable others) piece := by
  cases piece with
  | text text => rfl
  | slot name isQueryValue =>
    rw [pieceTokens_slot inPieces, pieceTokens_slot inOthers, decide_eq_decide.mpr (sameFlags name)]

theorem pieceTokens_insertion {ahead behind longer : List Piece}
    (whole : longer = ahead ++ .text ['/'] :: .slot name false :: behind) :
    (ahead ++ behind).flatMap (pieceTokens (slotTable (ahead ++ behind))) =
        ahead.flatMap (pieceTokens (slotTable longer)) ++
          behind.flatMap (pieceTokens (slotTable longer)) ∧
      ∃ isQueryValue, longer.flatMap (pieceTokens (slotTable longer)) =
        ahead.flatMap (pieceTokens (slotTable longer)) ++ .char '/' ::
          .slot ⟨name, isQueryValue⟩ :: behind.flatMap (pieceTokens (slotTable longer)) := by
  have sameFlags : ∀ other,
      Piece.slot other true ∈ ahead ++ behind ↔ Piece.slot other true ∈ longer := by
    simp [whole]
  have stays : ∀ piece ∈ ahead ++ behind, piece ∈ longer := by
    intro piece member
    rcases List.mem_append.mp member with first | later
    · simp [whole, first]
    · simp [whole, later]
  have inserted : Piece.slot name false ∈ longer := by simp [whole]
  constructor
  · rw [← List.flatMap_append]
    exact List.flatMap_congr fun piece member =>
      pieceTokens_congr sameFlags member (stays piece member)
  · refine ⟨decide (Piece.slot name true ∈ longer), ?_⟩
    nth_rewrite 2 [whole]
    rw [List.flatMap_append, List.flatMap_cons, List.flatMap_cons, pieceTokens_slot inserted]
    rfl

theorem tokens_of_pieces {source : Text} {template : Template}
    (parsed : parse source = .ok template) {read : List Piece}
    (same : pieces false false (Lexeme.scan source) = read) :
    template.tokens = read.flatMap (pieceTokens (slotTable read)) := by
  subst same
  have tokens := tokens_eq_pieces parsed
  obtain rfl := eq_ofPieces_of_parse parsed
  exact tokens

theorem reading_pieces {slots : List Slot} {source : Text}
    (listed : ∀ name ∈ (pieces false false (Lexeme.scan source)).filterMap Piece.slotName?,
      name ∈ slotNames slots) :
    Token.reading ((pieces false false (Lexeme.scan source)).flatMap (pieceTokens slots)) =
      unescapeColons source := by
  rw [← plain_scan, ← plain_pieces _ _ _ listed, Token.reading, List.flatMap_assoc]
  exact List.flatMap_congr fun piece _ => reading_partTokens slots _

theorem parse_of_insertion (rooted : Rooted after) (segment : Text) {longer : Template}
    (parsed : parse (before ++ '/' :: (segment ++ after)) = .ok longer) :
    ∃ shorter, parse (before ++ after) = .ok shorter := by
  have accepted : ¬ (before ++ after).wordRuns.contains reservedName := by
    intro reserved
    have inLonger := Text.mem_wordRuns_of_insertion rooted segment
      (List.contains_iff_mem.mp reserved)
    rw [parse, if_pos (List.contains_iff_mem.mpr inLonger)] at parsed
    cases parsed
  exact ⟨_, if_neg accepted⟩

/-- Without the segment the source is a template, too. Its tokens are those of the longer one, less
the slash and the slot. -/
theorem tokens_insertion (valid : isSlotName name) (isWord : ∀ c ∈ name, Text.isWordChar c)
    (rooted : Rooted after) {longer : Template}
    (parsed : parse (before ++ '/' :: ':' :: (name ++ after)) = .ok longer) :
    ∃ shorter, parse (before ++ after) = .ok shorter ∧
      ∃ front behind isQueryValue, Token.reading front = unescapeColons before ∧
        (after = [] ∧ behind = [] ∨ behind.head? = some (.char '/')) ∧
        shorter.tokens = front ++ behind ∧
        longer.tokens = front ++ .char '/' :: .slot ⟨name, isQueryValue⟩ :: behind := by
  obtain ⟨shorter, parsedShorter⟩ := parse_of_insertion rooted (':' :: name) parsed
  obtain ⟨behind, start, shorterPieces, longerPieces⟩ :=
    pieces_insertion valid isWord rooted before
  obtain ⟨shorterTokens, isQueryValue, longerTokens⟩ := pieceTokens_insertion longerPieces
  rw [← tokens_of_pieces parsedShorter shorterPieces] at shorterTokens
  rw [← tokens_of_pieces parsed rfl] at longerTokens
  refine ⟨shorter, parsedShorter, _, _, isQueryValue, ?_, ?_, shorterTokens, longerTokens⟩
  · apply reading_pieces
    intro other occurs
    rw [mem_names_slotTable, longerPieces, List.filterMap_append]
    exact List.mem_append_left _ occurs
  · rcases start with ⟨nothing, rfl⟩ | opens
    · exact Or.inl ⟨nothing, rfl⟩
    · obtain ⟨more, rfl⟩ := List.head?_eq_some_iff.mp opens
      exact Or.inr rfl

end
end Template
end RoutePlan

import RoutePlan.Proofs.Route.Filling
import RoutePlan.Proofs.Template.Pieces
import RoutePlan.Proofs.Template.WellFormed
import RoutePlan.Proofs.Template.Words

/-!
Escaped colons. Unescaping turns each backslash before a colon and that colon into the colon alone.
The other way around, every text can be had from a template: with a backslash before each of its
colons there is no slot left, whatever stood before the colons, and the words are the same.
-/
namespace RoutePlan
namespace Template

def escapeColons (text : Text) : Text :=
  text.flatMap fun c => if c = ':' then "\\:".toList else [c]

@[simp] theorem escapeColons_nil : escapeColons [] = [] := rfl

theorem escapeColons_colon (rest : Text) :
    escapeColons (':' :: rest) = '\\' :: ':' :: escapeColons rest := rfl

theorem escapeColons_cons {c : Char} (notColon : c ≠ ':') (rest : Text) :
    escapeColons (c :: rest) = c :: escapeColons rest := by
  rw [escapeColons, List.flatMap_cons, if_neg notColon]
  rfl

theorem head?_escapeColons (text : Text) : (escapeColons text).head? ≠ some ':' := by
  cases text with
  | nil => simp
  | cons c rest =>
    by_cases isColon : c = ':'
    · subst isColon
      simp [escapeColons_colon]
    · simp [escapeColons_cons isColon, isColon]

theorem unescape_escape (text : Text) : unescapeColons (escapeColons text) = text := by
  induction text with
  | nil => rfl
  | cons c rest ih =>
    by_cases isColon : c = ':'
    · subst isColon
      rw [escapeColons_colon, unescapeColons_escape, ih]
    · have notEscape : ¬ (c = '\\' ∧ (escapeColons rest).head? = some ':') :=
        fun both => head?_escapeColons rest both.2
      rw [escapeColons_cons isColon, unescapeColons_cons notEscape, ih]

/-! ### Slots and words of an escaped text -/

theorem positionsFrom_escapeColons (escaped : Bool) (start : Nat) (text : Text) :
    positionsFrom escaped start (escapeColons text) = [] := by
  induction text generalizing escaped start with
  | nil => rfl
  | cons c rest ih =>
    by_cases isColon : c = ':'
    · subst isColon
      simp [escapeColons_colon, positionsFrom, ih]
    · simp [escapeColons_cons isColon, positionsFrom, isColon, ih]

theorem noSlots_escapeColons (text : Text) :
    (pieces false false (Lexeme.scan (escapeColons text))).filterMap Piece.slotName? = [] := by
  have whole : (escapeColons text).drop 0 = escapeColons text := rfl
  rw [← names_eq_scan (escapeColons text) _ 0 false false whole, ← slotPositions_eq_scan,
    slotPositions_eq, positionsFrom_escapeColons, List.map_nil]

theorem takeWhile_escapeColons (text : Text) :
    (escapeColons text).takeWhile Text.isWordChar = text.takeWhile Text.isWordChar := by
  induction text with
  | nil => rfl
  | cons c rest ih =>
    by_cases isColon : c = ':'
    · subst isColon
      rfl
    · rw [escapeColons_cons isColon, List.takeWhile_cons, List.takeWhile_cons, ih]

theorem mem_tail_wordRuns_escapeColons {run : Text} (nonempty : run ≠ []) {text : Text}
    (member : run ∈ (escapeColons text).wordRuns.tail) : run ∈ text.wordRuns.tail := by
  have first {rest : Text}
      (ih : run ∈ (escapeColons rest).wordRuns.tail → run ∈ rest.wordRuns.tail)
      (member : run ∈ (escapeColons rest).wordRuns) : run ∈ rest.wordRuns := by
    rw [Text.mem_wordRuns, takeWhile_escapeColons] at member
    exact (Text.mem_wordRuns rest run).mpr (member.imp_right ih)
  induction text with
  | nil => exact member
  | cons c rest ih =>
    rw [Text.tail_wordRuns_cons]
    by_cases isColon : c = ':'
    · subst isColon
      rw [escapeColons_colon, Text.wordRuns_of_not_isWordChar (by decide), List.tail_cons,
        Text.wordRuns_of_not_isWordChar (by decide)] at member
      exact first ih ((List.mem_cons.mp member).resolve_left nonempty)
    · rw [escapeColons_cons isColon, Text.tail_wordRuns_cons] at member
      split
      · rename_i isWord
        rw [if_pos isWord] at member
        exact ih member
      · rename_i notWord
        rw [if_neg notWord] at member
        exact first ih member

theorem hasRun_of_escapeColons {text run : Text} (nonempty : run ≠ [])
    (found : (escapeColons text).HasRun run) : text.HasRun run := by
  rw [← Text.mem_wordRuns_iff, Text.mem_wordRuns, takeWhile_escapeColons] at found
  rw [← Text.mem_wordRuns_iff, Text.mem_wordRuns]
  exact found.imp_right (mem_tail_wordRuns_escapeColons nonempty)

/-! ### Templates without slots -/

theorem unescaped_of_parse {source : Text} {template : Template}
    (parsed : parse source = .ok template) : template.unescaped = unescapeColons source := by
  rw [unescaped_eq_plain parsed, plain_scan]

theorem noSlots_of_parse {text : Text} {template : Template}
    (parsed : parse (escapeColons text) = .ok template) :
    template.slots = [] ∧ ∀ i, Part.slot i ∉ template.parts := by
  obtain rfl := eq_ofPieces_of_parse parsed
  constructor
  · have names := slotNames_slotTable (pieces false false (Lexeme.scan (escapeColons text)))
    rw [noSlots_escapeColons] at names
    exact List.map_eq_nil_iff.mp names
  · intro i member
    rw [← mem_slotIndices, slotIndices_ofPieces, noSlots_escapeColons] at member
    cases member

theorem tokens_of_noSlots {template : Template} (noSlots : ∀ i, Part.slot i ∉ template.parts) :
    template.tokens = template.unescaped.map .char := by
  rw [tokens, unescaped, List.map_flatMap]
  apply List.flatMap_congr
  intro part member
  cases part with
  | literal text => rfl
  | slot i => exact absurd member (noSlots i)

theorem body_of_noSlots {template : Template} (noSlots : ∀ i, Part.slot i ∉ template.parts) :
    template.body =
      (template.unescaped.drop (authorityLength template.unescaped)).map .char := by
  have chars := Token.behind_chars (authorityLength template.unescaped) template.unescaped []
  rwa [List.append_nil, Token.behind, List.append_nil, ← tokens_of_noSlots noSlots] at chars

end Template

theorem Route.expand_of_noSlots {σ : Type} (route : Route σ) {template : Template}
    (noSlots : ∀ i, Part.slot i ∉ template.parts) (params : Dict Json) (s : σ) :
    route.expand template params s =
      (template.authority ++ canonicalize route.defaults.stripTrailingSlashes
        (template.unescaped.drop (authorityLength template.unescaped)), s) := by
  have filled := route.fillAll_chars params
    (template.unescaped.drop (authorityLength template.unescaped)) [] s
  have written := write_chars []
    (template.unescaped.drop (authorityLength template.unescaped)) []
  rw [List.append_nil, fillAll_nil, List.append_nil] at filled
  rw [List.append_nil, List.nil_append, write] at written
  rw [expand_eq, Template.body_of_noSlots noSlots, filled]
  simp only [written]

/-- A template keeps its source, and reads as that source with every escaped colon replaced by a
colon. And any text without the reserved word, backslashes before colons or not, is what a template
without slots reads as: the one that escapes every colon. It binds to the same URL whatever the
values are, and invokes no default. -/
theorem Template.unescaping_exact (text : Text) :
    (∀ template, parse text = .ok template →
      template.source = text ∧ template.unescaped = unescapeColons text) ∧
    (¬ text.HasRun "hasOwnProperty".toList → ∃ template,
      parse (escapeColons text) = .ok template ∧ template.slots = [] ∧
      (∀ i, Part.slot i ∉ template.parts) ∧ template.source = escapeColons text ∧
      template.unescaped = text ∧
      ∃ front rest, text = front ++ rest ∧ LongestAuthority text front ∧
        ∀ (σ : Type) (route : Route σ) (params : Dict Json) (s : σ),
          let url := front ++ canonicalize route.defaults.stripTrailingSlashes rest
          route.bindUrl (escapeColons text) params s = (.ok url, s) ∧
          (route.template = template → route.bind params s = (url, s))) := by
  have keepsSource {source : Text} {template : Template} (parsed : parse source = .ok template) :
      template.source = source := congrArg Template.source (eq_ofPieces_of_parse parsed)
  constructor
  · intro template parsed
    exact ⟨keepsSource parsed, unescaped_of_parse parsed⟩
  · intro noRun
    obtain ⟨template, parsed⟩ := (refusesReserved_parse (escapeColons text)).succeeds.mpr
      fun found => noRun (hasRun_of_escapeColons (by decide) found)
    obtain ⟨noTable, noSlots⟩ := noSlots_of_parse parsed
    have reads : template.unescaped = text := by
      rw [unescaped_of_parse parsed, unescape_escape]
    refine ⟨template, parsed, noTable, noSlots, keepsSource parsed, reads, template.authority,
      text.drop (authorityLength text), ?_, ?_, ?_⟩
    · rw [authority, reads, List.take_append_drop]
    · have longest := template.longestAuthority_authority
      rwa [reads] at longest
    · intro σ route params s
      have expanded := route.expand_of_noSlots noSlots params s
      rw [reads] at expanded
      constructor
      · rw [Route.bindUrl_of_parse parsed, expanded]
      · rintro rfl
        exact expanded

theorem Template.unescaping_exact_of_backslashes :
    ∃ template, parse "/:n\\\\:a\\::é".toList = .ok template ∧
      template.unescaped = "/:n\\:a::é".toList ∧
      ∃ route : Route Unit, Route.new "/\\:n\\\\\\:a\\\\:\\:é".toList {} = .ok route ∧
        ∀ params, route.bind params () = ("/:n\\\\:a\\::é".toList, ()) := by
  have parsed : parse "/:n\\\\:a\\::é".toList = .ok _ := if_neg (by decide)
  obtain ⟨route, made, evaluated⟩ : ∃ route : Route Unit,
      Route.new (escapeColons "/:n\\\\:a\\::é".toList) {} = .ok route ∧
      (route.bind [] ()).1 = "/:n\\\\:a\\::é".toList :=
    ⟨⟨_, _⟩, Route.new_eq_ok_iff.mpr ⟨if_neg (by decide), rfl⟩, by decide +kernel⟩
  have noRun : ¬ Text.HasRun "/:n\\\\:a\\::é".toList "hasOwnProperty".toList := by
    rw [← Text.mem_wordRuns_iff]
    decide +kernel
  obtain ⟨readsBack, escapes⟩ := unescaping_exact "/:n\\\\:a\\::é".toList
  obtain ⟨template, escaped, -, -, -, -, front, rest, -, -, binds⟩ := escapes noRun
  have same : route.template = template :=
    Except.ok.inj ((Route.new_eq_ok_iff.mp made).1.symm.trans escaped)
  have bound := fun params => (binds Unit route params ()).2 same
  rw [bound []] at evaluated
  refine ⟨_, parsed, (readsBack _ parsed).2.trans (by decide +kernel), route, made, ?_⟩
  exact fun params => (bound params).trans (Prod.ext evaluated rfl)

end RoutePlan

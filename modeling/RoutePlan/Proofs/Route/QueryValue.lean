import Mathlib.Data.List.Count
import RoutePlan.Proofs.Percent
import RoutePlan.Proofs.Route.Confined
import RoutePlan.Proofs.Route.Filling
import RoutePlan.Proofs.Template.QueryFlag
import RoutePlan.Proofs.Template.WellFormed

/-!
A query value keeps its place in the URL. Where each occurrence of its slot stands right behind an
equals sign, the URL is the encoded value between texts that do not depend on it.
-/
namespace RoutePlan

/-! ### Slots behind equals signs -/

/-- Every occurrence of the slot stands right behind an equals sign, where `sign` tells whether one
stands before the first token. -/
def BehindEquals (slot : Slot) : Bool → List Token → Prop
  | _, [] => True
  | _, .char c :: rest => BehindEquals slot (c == '=') rest
  | sign, .slot other :: rest => (other = slot → sign = true) ∧ BehindEquals slot false rest

theorem behindEquals_chars {slot : Slot} {text : Text} (noEquals : '=' ∉ text)
    {rest : List Token} (later : BehindEquals slot false rest) :
    BehindEquals slot false (text.map .char ++ rest) := by
  induction text with
  | nil => exact later
  | cons c text ih =>
    obtain ⟨differs, inText⟩ := not_or.mp (mt List.mem_cons.mpr noEquals)
    rw [List.map_cons, List.cons_append, BehindEquals, beq_eq_false_iff_ne.mpr (Ne.symm differs)]
    exact ih inText

theorem behindEquals_back {slot : Slot} {sign : Bool} {front back : List Token}
    (whole : BehindEquals slot sign (front ++ back)) : ∃ sign, BehindEquals slot sign back := by
  induction front generalizing sign with
  | nil => exact ⟨sign, whole⟩
  | cons token front ih =>
    cases token with
    | char c => exact ih whole
    | slot other => exact ih whole.2

namespace Template

theorem behindEquals_scan {slots : List Slot} {slot : Slot} {source : Text} (text : Text)
    {before : Text} (whole : source = before ++ text) (seenQuery afterEquals : Bool)
    (listed : ∀ name ∈ (pieces seenQuery afterEquals (Lexeme.scan text)).filterMap Piece.slotName?,
      name ∈ slotNames slots)
    (follows : ∀ i ∈ positionsOf before.length (Lexeme.scan text),
      wordAt source (i + 1) = slot.name → (source.take i).getLast? = some '=')
    {sign : Bool} (atStart : before.getLast? = some '=' → sign = true) :
    BehindEquals slot sign
      ((pieces seenQuery afterEquals (Lexeme.scan text)).flatMap (pieceTokens slots)) := by
  induction text using Lexeme.scan_induction
    generalizing before seenQuery afterEquals sign with
  | nil => simp [pieces, BehindEquals]
  | char c rest notColon notEscape ih =>
    rw [Lexeme.scan_char notColon notEscape] at listed follows ⊢
    have past : source = (before ++ [c]) ++ rest := by
      rw [whole, List.append_assoc, List.singleton_append]
    refine ih past _ _ listed ?_ ?_
    · rw [List.length_append]
      exact follows
    · rw [List.getLast?_append, List.getLast?_singleton, Option.some_or, Option.some.injEq]
      exact beq_iff_eq.mpr
  | escapedColon word rest run ih =>
    rw [Lexeme.scan_escapedColon run] at listed follows ⊢
    have past : source = (before ++ '\\' :: ':' :: word) ++ rest := by
      rw [whole, List.append_assoc]
      rfl
    refine behindEquals_chars (noEquals_of_isWord run.isWord) (ih past _ _ listed ?_ ?_)
    · rw [List.length_append]
      exact follows
    · rw [List.append_cons before '\\' (':' :: word)]
      exact fun last => absurd last (last_of_word _ run.isWord)
  | colon word rest run ih =>
    rw [Lexeme.scan_colon run] at listed follows ⊢
    have past : source = (before ++ ':' :: word) ++ rest := by
      rw [whole, List.append_assoc]
      rfl
    have noSign : (before ++ ':' :: word).getLast? = some '=' → false = true :=
      fun last => absurd last (last_of_word before run.isWord)
    have length : (before ++ ':' :: word).length = before.length + (':' :: word).length :=
      List.length_append
    by_cases valid : isSlotName word
    · simp only [pieces, valid, if_true, List.filterMap_cons, Piece.slotName?, List.mem_cons,
        forall_eq_or_imp] at listed
      simp only [positionsOf, opens, valid, if_true, List.forall_mem_cons] at follows
      obtain ⟨here, later⟩ := follows
      obtain ⟨other, -, found, name⟩ := found_at_own_index listed.1
      have ahead : source.drop before.length = [':'] ++ (word ++ rest) := by
        rw [whole, List.drop_left]
        rfl
      have atColon : wordAt source (before.length + 1) = word := wordAt_run run (drop_past ahead)
      have front : source.take before.length = before := by rw [whole, List.take_left]
      rw [atColon, front] at here
      have read : pieceTokens slots (.slot word (seenQuery && afterEquals)) = [.slot other] := by
        simp only [pieceTokens, Piece.part, partTokens, found]
      simp only [pieces, valid, if_true, List.flatMap_cons, read]
      refine ⟨?_, ih past _ _ listed.2 (length ▸ later) noSign⟩
      rintro rfl
      exact atStart (here name.symm)
    · simp only [pieces, valid, Bool.false_eq_true, if_false] at listed ⊢
      simp only [positionsOf, opens, valid, Bool.false_eq_true, if_false] at follows
      exact behindEquals_chars (noEquals_of_isWord run.isWord)
        (ih past _ _ listed (length ▸ follows) noSign)

theorem behindEquals_body {source : Text} {template : Template}
    (parsed : parse source = .ok template) {slot : Slot}
    (follows : ∀ i ∈ slotPositions source,
      wordAt source (i + 1) = slot.name → (source.take i).getLast? = some '=') :
    BehindEquals slot false template.body := by
  have all : BehindEquals slot false template.tokens := by
    rw [tokens_eq_pieces parsed]
    refine behindEquals_scan source (List.nil_append source).symm _ _ ?_ ?_ (by simp)
    · intro name member
      rw [eq_ofPieces_of_parse parsed]
      exact (mem_names_slotTable _ _).mpr member
    · rw [slotPositions_eq_scan] at follows
      exact follows
  rcases body_cases parsed with ⟨-, whole⟩ | none | opens
  · exact whole ▸ all
  · exact none ▸ trivial
  · obtain ⟨rest, slash⟩ := List.head?_eq_some_iff.mp opens
    obtain ⟨front, split, -⟩ := tokens_split parsed
    obtain ⟨sign, behindFront⟩ := behindEquals_back (split ▸ all)
    rw [slash] at behindFront ⊢
    exact behindFront

end Template

/-! ### Writing -/

theorem write_append_of_last {front : Text} (last : front.getLast? ≠ some '/') (path : Text)
    (fillings : List Filling) : write (front ++ path) fillings = front ++ write path fillings := by
  induction fillings generalizing path with
  | nil => rfl
  | cons filling rest ih =>
    cases filling with
    | char c => rw [write, write, List.append_assoc, ih]
    | value text => rw [write, write, List.append_assoc, ih]
    | missing =>
      rw [write, write, ← ih]
      cases path using List.reverseRecOn with
      | nil => simp [last]
      | append_singleton path c =>
        rw [← List.append_assoc, List.getLast?_concat, List.getLast?_concat, List.dropLast_concat,
          List.dropLast_concat]
        split <;> simp only [List.append_assoc]

theorem noSlash_encodeQuery (text : Text) : '/' ∉ Percent.encodeQuery text := by
  have escaped := Percent.escaped_encode Percent.keeps_query text
  intro slash
  rcases escaped.mem '/' slash with literal | percent | digit
  · exact absurd literal (by decide)
  · exact absurd percent (by decide)
  · exact absurd digit (by decide)

theorem write_behind_equals {value : Text} (noSlash : '/' ∉ value) (front : Text)
    (fillings : List Filling) :
    write (front ++ ['=']) (.value value :: fillings) =
      front ++ '=' :: (value ++ write [] fillings) := by
  have written := write_append_of_last (@last_behind_equals front value noSlash) [] fillings
  rw [List.append_nil] at written
  rw [write, List.append_assoc, List.singleton_append, written, List.append_assoc,
    List.cons_append]

/-! ### Filling -/

structure Dict.Sets (params others : Dict Json) (name : Text) (value : Json) : Prop where
  here : params.get? name = some value
  elsewhere : ∀ other, other ≠ name → params.get? other = others.get? other

theorem Json.paramText?_of_ne_null {value : Json} (present : value ≠ .null) :
    ∃ text, value.paramText? = some text := by
  cases value with
  | null => exact absurd rfl present
  | _ => exact ⟨_, by rw [paramText?]⟩

namespace Route
variable {σ : Type}

theorem textFor_of_get? (route : Route σ) {params : Dict Json} {name : Text} {value : Json}
    (given : params.get? name = some value) (s : σ) :
    route.textFor params name s = (value.paramText?, s) := by
  unfold textFor
  rw [given]
  rfl

theorem write_slot (route : Route σ) (slot : Slot) (text? : Option Text) (path : Text)
    (rest : List Token) :
    ∃ next, ∀ params s, write path (slot.filling text? :: (route.fillAll params rest s).1) =
      write next (route.fillAll params rest s).1 := by
  cases text? with
  | some text => exact ⟨path ++ slot.encoding.encode text, fun params s => rfl⟩
  | none =>
    refine ⟨if rest.head? = some (.char '/') ∧ path.getLast? = some '/' then path.dropLast
      else path, fun params s => ?_⟩
    simp only [Slot.filling, write, head?_fillAll]

/-- Each occurrence of the slot is filled with the encoded value, and what is written around them
does not depend on the value. -/
theorem write_around (route : Route σ) (others : Dict Json) {slot : Slot}
    (isQuery : slot.isQueryValue) {tokens : List Token}
    (distinct : ∀ other, Token.slot other ∈ tokens → other ≠ slot → other.name ≠ slot.name)
    {sign : Bool} (behind : BehindEquals slot sign tokens) {path : Text}
    (atStart : sign = true → path.getLast? = some '=') (s : σ) :
    ∃ context : QueryContext, context.fronts.length = tokens.count (.slot slot) ∧
      ∀ params value text, Dict.Sets params others slot.name value →
        value.paramText? = some text →
        write path (route.fillAll params tokens s).1 =
          context.fill (Percent.encodeQuery text) := by
  have noSign {path : Text} : false = true → path.getLast? = some '=' :=
    (absurd · Bool.false_ne_true)
  induction tokens generalizing sign path s with
  | nil => exact ⟨⟨[], path⟩, rfl, fun params value text _ _ => rfl⟩
  | cons token rest ih =>
    have later := @ih fun other member => distinct other (List.mem_cons_of_mem _ member)
    cases token with
    | char c =>
      have next : (c == '=') = true → (path ++ [c]).getLast? = some '=' := by
        intro isSign
        rw [List.getLast?_concat, beq_iff_eq.mp isSign]
      obtain ⟨context, places, written⟩ := later behind next s
      refine ⟨context, by rw [places, List.count_cons_of_ne (by simp)], ?_⟩
      intro params value text sets isText
      rw [fillAll_char, write, written params value text sets isText]
    | slot other =>
      obtain ⟨hasSign, behindRest⟩ := behind
      by_cases same : other = slot
      · subst same
        obtain ⟨front, rfl⟩ := List.getLast?_eq_some_iff.mp (atStart (hasSign rfl))
        -- The rest is written behind nothing: no slash of it reaches back over the value.
        obtain ⟨⟨fronts, last⟩, places, written⟩ := @later _ behindRest [] noSign s
        refine ⟨⟨front :: fronts, last⟩, ?_, ?_⟩
        · rw [List.length_cons, List.count_cons_self]
          exact congrArg (· + 1) places
        · intro params value text sets isText
          have filling : other.filling (some text) = .value (Percent.encodeQuery text) := by
            rw [Slot.filling, Slot.encoding, if_pos isQuery]
            rfl
          rw [fillAll_slot, route.textFor_of_get? sets.here, isText]
          dsimp only
          rw [filling, write_behind_equals (noSlash_encodeQuery text),
            written params value text sets isText, QueryContext.fill_cons]
      · have otherName := distinct other List.mem_cons_self same
        obtain ⟨next, steps⟩ :=
          route.write_slot other (route.textFor others other.name s).1 path rest
        obtain ⟨context, places, written⟩ :=
          @later _ behindRest next noSign (route.textFor others other.name s).2
        refine ⟨context, ?_, ?_⟩
        · rw [places, List.count_cons_of_ne (by simpa using same)]
        · intro params value text sets isText
          rw [fillAll_slot, route.textFor_congr (sets.elsewhere _ otherName)]
          dsimp only
          rw [steps, written params value text sets isText]

theorem expand_around {source : Text} {template : Template}
    (parsed : Template.parse source = .ok template) {slot : Slot} (listed : slot ∈ template.slots)
    (isQuery : slot.isQueryValue)
    (follows : ∀ i ∈ Template.slotPositions source,
      Template.wordAt source (i + 1) = slot.name → (source.take i).getLast? = some '=')
    (route : Route σ) (others : Dict Json) (s : σ) :
    ∃ context : QueryContext, context.fronts.length = template.body.count (.slot slot) ∧
      ∀ params value text, Dict.Sets params others slot.name value →
        value.paramText? = some text →
        (route.expand template params s).1 = context.fill (Percent.encodeQuery text) := by
  have distinct : ∀ other, Token.slot other ∈ template.body → other ≠ slot →
      other.name ≠ slot.name := by
    intro other member differs sameName
    have inSlots := Template.slot_of_mem_body parsed member
    have names := (Template.parse_wellFormed parsed).distinct
    exact differs (List.inj_on_of_nodup_map names inSlots listed sameName)
  have atStart : false = true → ([] : Text).getLast? = some '=' := (absurd · Bool.false_ne_true)
  obtain ⟨written, places, writes⟩ := route.write_around others isQuery distinct
    (Template.behindEquals_body parsed follows) atStart s
  have confined := (confined_append_left template.authority).comp
    (confined_canonicalize route.defaults.stripTrailingSlashes)
  obtain ⟨context, samePlaces, fills⟩ := confined written
  refine ⟨context, samePlaces.trans places, fun params value text sets isText => ?_⟩
  rw [expand_eq, ← fills _ (noSlash_encodeQuery text), ← writes params value text sets isText]
  rfl

/-- Where every occurrence of a query value stands right behind an equals sign, the URL is the
encoded text of the value between texts that are the same for every value, one time for each
occurrence behind the scheme and host. With such an occurrence, the URL tells the text. -/
theorem query_value_confined {source : Text} {template : Template}
    (parsed : Template.parse source = .ok template) {slot : Slot} (listed : slot ∈ template.slots)
    (isQuery : slot.isQueryValue)
    (follows : ∀ i ∈ Template.slotPositions source,
      Template.wordAt source (i + 1) = slot.name → (source.take i).getLast? = some '=')
    (route : Route σ) (others : Dict Json) (s : σ) :
    ∃ inside outside, template.tokens = inside ++ outside ∧
      LongestAuthority template.unescaped (Token.reading inside) ∧
      (∃ texts : List Text, texts.length = outside.count (.slot slot) + 1 ∧
        ∀ params value, Dict.Sets params others slot.name value → value ≠ .null →
          ∃ text url after, value.paramText? = some text ∧
            url = Text.join (Percent.encodeQuery text) texts ∧
            route.bindUrl source params s = (.ok url, after) ∧
            (route.template = template → route.bind params s = (url, after))) ∧
      (Token.slot slot ∈ outside → ∀ params value params' value',
        Dict.Sets params others slot.name value → Dict.Sets params' others slot.name value' →
        value ≠ .null → value' ≠ .null → value.paramText? ≠ value'.paramText? →
        (route.bindUrl source params s).1 ≠ (route.bindUrl source params' s).1) := by
  obtain ⟨context, places, fills⟩ := route.expand_around parsed listed isQuery follows others s
  obtain ⟨front, split, reads⟩ := Template.tokens_split parsed
  refine ⟨front, template.body, split, reads ▸ template.longestAuthority_authority,
    ⟨context.texts, by rw [context.length_texts, places], ?_⟩, ?_⟩
  · intro params value sets present
    obtain ⟨text, isText⟩ := Json.paramText?_of_ne_null present
    refine ⟨text, _, _, isText, ?_, bindUrl_of_parse parsed route params s, ?_⟩
    · rw [context.join_texts, fills params value text sets isText]
    · rintro rfl
      rfl
  · intro member params value params' value' sets sets' present present' differ same
    obtain ⟨text, isText⟩ := Json.paramText?_of_ne_null present
    obtain ⟨text', isText'⟩ := Json.paramText?_of_ne_null present'
    have somePlace : context.fronts ≠ [] := by
      rw [← List.length_pos_iff, places, List.count_pos_iff]
      exact member
    rw [bindUrl_of_parse parsed, bindUrl_of_parse parsed, Except.ok.injEq,
      fills params value text sets isText, fills params' value' text' sets' isText'] at same
    have sameText := Percent.encode_injective Percent.keeps_query
      (QueryContext.fill_injective somePlace same)
    exact differ (by rw [isText, isText', sameText])

theorem query_value_confined_of_slash_and_dot :
    ∃ template, Template.parse "http://h=:q/:b/.json?x=:q/:m/&y=:q".toList = .ok template ∧
      ∃ url texts, Route.bind (σ := Unit) ⟨template, {}⟩
          [(['q'], .ofText "/."), (['b'], .ofText "v")] () = (url, ()) ∧
        texts.length = 3 ∧ url = Text.join "%2F.".toList texts ∧
        url = "http://h=:q/v.json?x=%2F./&y=%2F.".toList := by
  obtain ⟨template, parsed, listed, places, evaluated⟩ : ∃ template,
      Template.parse "http://h=:q/:b/.json?x=:q/:m/&y=:q".toList = .ok template ∧
      ⟨['q'], true⟩ ∈ template.slots ∧ template.body.count (.slot ⟨['q'], true⟩) = 2 ∧
      (Route.bind (σ := Unit) ⟨template, {}⟩
        [(['q'], .ofText "/."), (['b'], .ofText "v")] ()).1 =
          "http://h=:q/v.json?x=%2F./&y=%2F.".toList :=
    ⟨_, if_neg (by decide), by decide +kernel, by decide +kernel, by decide +kernel⟩
  obtain ⟨inside, outside, split, longest, ⟨texts, length, bound⟩, -⟩ :=
    query_value_confined parsed listed rfl (by decide +kernel) (⟨template, {}⟩ : Route Unit)
      [(['q'], .ofText "/."), (['b'], .ofText "v")] ()
  have same : outside = template.body := by
    obtain ⟨front, whole, reads⟩ := Template.tokens_split parsed
    have authority := longestAuthority_unique longest template.longestAuthority_authority
    exact (Token.same_reading_same_front (split.symm.trans whole)
      (authority.trans reads.symm)).2
  obtain ⟨text, url, after, isText, joined, -, ends⟩ :=
    bound _ (.ofText "/.") ⟨rfl, fun _ _ => rfl⟩ nofun
  have encoded : Percent.encodeQuery text = "%2F.".toList := by
    obtain rfl := Option.some.inj isText
    decide +kernel
  rw [ends rfl] at evaluated
  exact ⟨template, parsed, url, texts, ends rfl, by rw [length, same, places],
    encoded ▸ joined, evaluated⟩

end Route
end RoutePlan

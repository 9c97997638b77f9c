import RoutePlan.Proofs.Percent
import RoutePlan.Proofs.Route.Filling
import RoutePlan.Proofs.Route.Passes
import RoutePlan.Proofs.Template.Pieces

/-!
The characters that only a template can bring into a URL. Encoded values are written in an alphabet
of their own, and each pass over the path moves nothing but slashes and the backslashes of escaped
dots, so that all other characters of the URL are those of the template, in the template's order.
-/
namespace RoutePlan

def valueAlphabet : Text := Percent.pathClass ++ ['%']

/-- A character that neither a value nor a pass over the path can bring in or take out. -/
def isMark (c : Char) : Bool := !valueAlphabet.contains c && c != '\\'

structure KeepsMarks (old new : Text) : Prop where
  marks : new.filter isMark = old.filter isMark
  backslashes : new.count '\\' ≤ old.count '\\'

namespace KeepsMarks

theorem refl (text : Text) : KeepsMarks text text := ⟨rfl, Nat.le_refl _⟩

theorem trans {first second third : Text} (one : KeepsMarks first second)
    (two : KeepsMarks second third) : KeepsMarks first third :=
  ⟨two.marks.trans one.marks, two.backslashes.trans one.backslashes⟩

theorem append {old new more moreNew : Text} (front : KeepsMarks old new)
    (back : KeepsMarks more moreNew) : KeepsMarks (old ++ more) (new ++ moreNew) where
  marks := by rw [List.filter_append, List.filter_append, front.marks, back.marks]
  backslashes := by
    rw [List.count_append, List.count_append]
    exact Nat.add_le_add front.backslashes back.backslashes

theorem of_alphabet {old new : Text} (oldPlain : ∀ c ∈ old, c ∈ valueAlphabet)
    (newPlain : ∀ c ∈ new, c ∈ valueAlphabet) : KeepsMarks old new := by
  have noMarks {text : Text} (plain : ∀ c ∈ text, c ∈ valueAlphabet) :
      text.filter isMark = [] := by
    rw [List.filter_eq_nil_iff]
    intro c member
    simp [isMark, plain c member]
  have noBackslash : '\\' ∉ new := fun member => absurd (newPlain _ member) (by decide +kernel)
  refine ⟨by rw [noMarks oldPlain, noMarks newPlain], ?_⟩
  rw [List.count_eq_zero_of_not_mem noBackslash]
  exact Nat.zero_le _

theorem filter {old new : Text} (keeps : KeepsMarks old new) {p : Char → Bool}
    (marks : ∀ c, p c → isMark c) : new.filter p = old.filter p := by
  have through (text : Text) : text.filter p = (text.filter isMark).filter p := by
    rw [List.filter_filter]
    apply List.filter_congr
    intro c _
    cases selected : p c with
    | false => rfl
    | true => rw [marks c selected]; rfl
  rw [through new, through old, keeps.marks]

end KeepsMarks

/-! ### Passes over the path -/

theorem slash_mem_alphabet : ∀ c ∈ ['/'], c ∈ valueAlphabet :=
  Text.forall_mem_of_all (by decide +kernel)

theorem keepsMarks_dropSlash {path : Text} (last : path.getLast? = some '/') :
    KeepsMarks path path.dropLast := by
  have whole : path.dropLast ++ ['/'] = path := List.dropLast_append_getLast? '/' last
  have keeps := (KeepsMarks.refl path.dropLast).append
    (KeepsMarks.of_alphabet slash_mem_alphabet (List.forall_mem_nil _))
  rwa [whole, List.append_nil] at keeps

theorem keepsMarks_rdropWhile (path : Text) : KeepsMarks path (path.rdropWhile (· == '/')) := by
  induction path using List.reverseRecOn with
  | nil => exact .refl []
  | append_singleton path c ih =>
    by_cases isSlash : c = '/'
    · subst isSlash
      rw [List.rdropWhile_concat_pos _ _ _ (by decide)]
      have dropped : KeepsMarks (path ++ ['/']) _ := keepsMarks_dropSlash List.getLast?_concat
      rw [List.dropLast_concat] at dropped
      exact dropped.trans ih
    · rw [List.rdropWhile_concat_neg _ _ _ (by simpa using isSlash)]
      exact .refl _

theorem keepsMarks_settled (strip : Bool) (path : Text) : KeepsMarks path (settled strip path) := by
  unfold settled
  split
  · have dropped := keepsMarks_rdropWhile path
    rw [stripTrailingSlashes_eq]
    split
    · rename_i empty
      rw [List.isEmpty_iff.mp empty] at dropped
      exact dropped.trans (.of_alphabet (List.forall_mem_nil _) slash_mem_alphabet)
    · exact dropped
  · exact .refl path

theorem keepsMarks_collapseExtension (path : Text) : KeepsMarks path (collapseExtension path) := by
  induction path with
  | nil => exact .refl []
  | cons c rest ih =>
    by_cases opens : OpensWithExtension (c :: rest)
    · obtain ⟨rfl, -⟩ := opensWithExtension_iff.mp opens
      rw [collapseExtension_opens opens]
      exact (KeepsMarks.of_alphabet slash_mem_alphabet (List.forall_mem_nil _)).append (.refl rest)
    · rw [collapseExtension_closed opens]
      exact (KeepsMarks.refl [c]).append ih

theorem keepsMarks_restoreDots (path : Text) : KeepsMarks path (restoreDots path) := by
  have escape : KeepsMarks "/\\.".toList "/.".toList := ⟨by decide +kernel, by decide +kernel⟩
  induction path using restoreDots_induction with
  | nil => exact .refl []
  | escaped rest ih =>
    rw [restoreDots_escaped]
    exact escape.append ih
  | cons c rest stays ih =>
    rw [restoreDots_cons stays]
    exact (KeepsMarks.refl [c]).append ih

theorem keepsMarks_canonicalize (strip : Bool) (path : Text) :
    KeepsMarks path (canonicalize strip path) := by
  rw [canonicalize_eq]
  exact ((keepsMarks_settled strip path).trans (keepsMarks_collapseExtension _)).trans
    (keepsMarks_restoreDots _)

/-! ### Values -/

theorem wordChar_mem_alphabet {c : Char} (isWord : Text.isWordChar c) : c ∈ valueAlphabet := by
  have kept : Percent.isComponentChar c := by
    rcases Bool.or_eq_true_iff.mp isWord with alphanumeric | underscore
    · rw [Percent.isComponentChar, alphanumeric, Bool.true_or]
    · rw [beq_iff_eq.mp underscore]
      decide
  exact List.mem_append_left _ (List.mem_append_left _ (List.mem_append_left _
    ((Percent.isComponentChar_iff c).mp kept)))

theorem escaped_mem_alphabet {literal t : Text} (within : ∀ c ∈ literal, c ∈ valueAlphabet)
    (escaped : Percent.Escaped literal t) : ∀ c ∈ t, c ∈ valueAlphabet := by
  have digits : ∀ c ∈ Percent.upperHex, c ∈ valueAlphabet :=
    Text.forall_mem_of_all (by decide +kernel)
  intro c member
  rcases escaped.mem c member with literal | rfl | digit
  · exact within c literal
  · exact List.mem_append_right _ List.mem_cons_self
  · exact digits c digit

theorem encoded_mem_alphabet (encoding : SlotEncoding) (text : Text) :
    ∀ c ∈ encoding.encode text, c ∈ valueAlphabet := by
  have path : ∀ c ∈ Percent.pathClass, c ∈ valueAlphabet := fun c => List.mem_append_left _
  cases encoding with
  | pathSegment =>
    exact escaped_mem_alphabet path (Percent.escaped_encode Percent.keeps_path text)
  | queryValue =>
    have query : ∀ c ∈ Percent.queryClass, c ∈ valueAlphabet := fun c member =>
      path c (List.mem_append_left _ member)
    exact escaped_mem_alphabet query (Percent.escaped_encode Percent.keeps_query text)

theorem isMark_of_outside {c : Char}
    (outside : c = '?' ∨ c = '#' ∨ c = ' ' ∨ c.toNat < 32 ∨ 127 ≤ c.toNat) : isMark c := by
  have printable : ∀ d ∈ valueAlphabet ++ ['\\'],
      d ≠ '?' ∧ d ≠ '#' ∧ d ≠ ' ' ∧ 32 ≤ d.toNat ∧ d.toNat < 127 :=
    Text.forall_mem_of_all (by decide +kernel)
  have stands : c ∉ valueAlphabet ++ ['\\'] := by
    intro member
    obtain ⟨notQuestion, notNumber, notSpace, low, high⟩ := printable c member
    rcases outside with isQuestion | isNumber | isSpace | control | beyond
    · exact notQuestion isQuestion
    · exact notNumber isNumber
    · exact notSpace isSpace
    · omega
    · omega
  rw [List.mem_append, List.mem_singleton, not_or] at stands
  simp [isMark, stands]

/-! ### Binding -/

theorem keepsMarks_source {source : Text} {template : Template}
    (parsed : Template.parse source = .ok template) : KeepsMarks source template.unescaped := by
  have backslash : KeepsMarks ['\\'] [] := ⟨by decide +kernel, by decide⟩
  have lexemes (lexemes : List Lexeme) :
      KeepsMarks (lexemes.flatMap Lexeme.source) (lexemes.flatMap Lexeme.plain) := by
    induction lexemes with
    | nil => exact .refl []
    | cons lexeme rest ih =>
      rw [List.flatMap_cons, List.flatMap_cons]
      cases lexeme with
      | char c => exact (KeepsMarks.refl [c]).append ih
      | colon word => exact (KeepsMarks.refl _).append ih
      | escapedColon word => exact (backslash.append (.refl (':' :: word))).append ih
  have whole := lexemes (Lexeme.scan source)
  rwa [Lexeme.source_scan, ← Template.unescaped_eq_plain parsed] at whole

namespace Route
variable {σ : Type}

theorem keepsMarks_write (route : Route σ) (params : Dict Json) {tokens : List Token}
    (words : ∀ slot, Token.slot slot ∈ tokens → ∀ c ∈ slot.name, Text.isWordChar c)
    {old path : Text} (sofar : KeepsMarks old path) (s : σ) :
    KeepsMarks (old ++ Token.reading tokens)
      (write path (route.fillAll params tokens s).1) := by
  induction tokens generalizing old path s with
  | nil => simpa [write] using sofar
  | cons token rest ih =>
    have later := @ih fun slot member => words slot (List.mem_cons_of_mem _ member)
    rw [Token.reading_cons, ← List.append_assoc]
    cases token with
    | char c =>
      rw [fillAll_char, write]
      exact later (sofar.append (.refl [c])) s
    | slot slot =>
      have written : ∀ c ∈ (Token.slot slot).text, c ∈ valueAlphabet := by
        intro c member
        rcases List.mem_cons.mp member with rfl | inName
        · decide +kernel
        · exact wordChar_mem_alphabet (words slot List.mem_cons_self c inName)
      rw [fillAll_slot]
      cases given : (route.textFor params slot.name s).1 with
      | some text =>
        simp only [Slot.filling, given, write]
        exact later (sofar.append (.of_alphabet written (encoded_mem_alphabet _ text))) _
      | none =>
        simp only [Slot.filling, given, write]
        have removed (path : Text) (keeps : KeepsMarks old path) :
            KeepsMarks (old ++ (Token.slot slot).text) path := by
          have gone := keeps.append (.of_alphabet written (List.forall_mem_nil _))
          rwa [List.append_nil] at gone
        split
        · rename_i pops
          exact later (removed _ (sofar.trans (keepsMarks_dropSlash pops.2))) _
        · exact later (removed _ sofar) _

theorem keepsMarks_expand {source : Text} {template : Template}
    (parsed : Template.parse source = .ok template) (route : Route σ) (params : Dict Json)
    (s : σ) : KeepsMarks template.unescaped (route.expand template params s).1 := by
  have words : ∀ slot, Token.slot slot ∈ template.body → ∀ c ∈ slot.name, Text.isWordChar c :=
    fun slot member =>
      (Template.parsed_slots_are_words parsed (Template.slot_of_mem_body parsed member)).2
  have written := route.keepsMarks_write params words (.refl []) s
  rw [List.nil_append] at written
  rw [expand_eq, Template.unescaped_split parsed]
  exact (KeepsMarks.refl _).append (written.trans (keepsMarks_canonicalize _ _))

/-- Every character of the URL outside the alphabet of the values, the backslash apart, is one of
the template's, in the template's order; and there is no backslash more. Among these characters are
all question marks, number signs, spaces, control characters and characters beyond ASCII. -/
theorem bound_url_marks {source : Text} {template : Template}
    (parsed : Template.parse source = .ok template) (route : Route σ) (params : Dict Json)
    (s : σ) :
    ∃ url after, route.bindUrl source params s = (.ok url, after) ∧
      (route.template = template → route.bind params s = (url, after)) ∧
      KeepsMarks template.unescaped url ∧ KeepsMarks source template.unescaped ∧
      ∀ p : Char → Bool,
        (∀ c, p c → c = '?' ∨ c = '#' ∨ c = ' ' ∨ c.toNat < 32 ∨ 127 ≤ c.toNat) →
        url.filter p = template.unescaped.filter p := by
  have keeps := keepsMarks_expand parsed route params s
  refine ⟨_, _, bindUrl_of_parse parsed route params s, ?_, keeps, keepsMarks_source parsed, ?_⟩
  · rintro rfl
    rfl
  · intro p outside
    exact keeps.filter fun c selected => isMark_of_outside (outside c selected)

theorem bound_url_marks_of_hostile_values :
    ∃ template, Template.parse "/:a/\\.é? :b#".toList = .ok template ∧
      ∃ url, Route.bind (σ := Unit) ⟨template, {}⟩
        [(['a'], .ofText "?#\\"), (['b'], .ofText " é?")] () = (url, ()) ∧
        url.filter isMark = "é? #".toList ∧ url.count '\\' = 0 := by
  obtain ⟨template, parsed, marks, backslashes⟩ : ∃ template,
      Template.parse "/:a/\\.é? :b#".toList = .ok template ∧
      template.unescaped.filter isMark = "é? #".toList ∧
      (Route.bind (σ := Unit) ⟨template, {}⟩
        [(['a'], .ofText "?#\\"), (['b'], .ofText " é?")] ()).1.count '\\' = 0 :=
    ⟨_, if_neg (by decide), by decide +kernel, by decide +kernel⟩
  obtain ⟨url, after, -, bound, keeps, -⟩ := bound_url_marks parsed
    (⟨template, {}⟩ : Route Unit) [(['a'], .ofText "?#\\"), (['b'], .ofText " é?")] ()
  rw [bound rfl] at backslashes
  exact ⟨template, parsed, url, bound rfl, keeps.marks.trans marks, backslashes⟩

end Route
end RoutePlan

import RoutePlan.Proofs.Json.RoundTrip

/-!
Indented text has the tokens of compact text, for the blanks between them are passed over. So both
are read alike.
-/
namespace RoutePlan

/-! ### Numbers -/

inductive NumeralText : Text → Prop where
  | opened {c : Char} {more : Text} (opens : c.isDigit ∨ c = '-')
      (belongs : ∀ d ∈ more, Json.Numeral.isNumeralChar d) : NumeralText (c :: more)

namespace NumeralText
open Json

theorem belongs_digits {digits : Text} (isDigit : ∀ c ∈ digits, c.isDigit) :
    ∀ c ∈ digits, Numeral.isNumeralChar c := by
  intro c member
  simp [Numeral.isNumeralChar, isDigit c member]

theorem belongs_replicate (n : Nat) : ∀ c ∈ List.replicate n '0', Numeral.isNumeralChar c := by
  intro c member
  rw [(List.mem_replicate.mp member).2]
  decide

theorem belongs {text : Text} (numeral : NumeralText text) :
    ∀ c ∈ text, Numeral.isNumeralChar c := by
  obtain ⟨opens, behind⟩ := numeral
  refine List.forall_mem_cons.mpr ⟨?_, behind⟩
  rcases opens with digit | rfl
  · simp [Numeral.isNumeralChar, digit]
  · decide

theorem append {digits more : Text} (nonempty : digits ≠ []) (isDigit : ∀ c ∈ digits, c.isDigit)
    (behind : ∀ c ∈ more, Numeral.isNumeralChar c) : NumeralText (digits ++ more) := by
  obtain ⟨c, rest, rfl⟩ := List.exists_cons_of_ne_nil nonempty
  have digits := belongs_digits fun d member => isDigit d (List.mem_cons_of_mem c member)
  exact .opened (.inl (isDigit c List.mem_cons_self)) (List.forall_mem_append.mpr ⟨digits, behind⟩)

theorem minus {text : Text} (numeral : NumeralText text) : NumeralText ('-' :: text) :=
  .opened (.inr rfl) numeral.belongs

theorem ofInt (value : Int) : NumeralText (Text.ofInt value) := by
  have whole := wholeDigits_ofNat value.natAbs
  have digits : NumeralText (Text.ofNat value.natAbs) := by
    rw [← List.append_nil (Text.ofNat _)]
    exact append whole.nonempty whole.isDigit nofun
  unfold Text.ofInt
  split
  · exact digits.minus
  · exact digits

theorem decimal (d : Decimal) : NumeralText d.text := by
  have whole := wholeDigits_ofNat d.digits
  have front (n : Nat) : (Text.ofNat d.digits).take (n + 1) ≠ [] := by
    simp [List.take_eq_nil_iff, whole.nonempty]
  have inFront (n : Nat) : ∀ c ∈ (Text.ofNat d.digits).take n, c.isDigit :=
    fun c member => whole.isDigit c (List.mem_of_mem_take member)
  have behind (n : Nat) : ∀ c ∈ (Text.ofNat d.digits).drop n, c.isDigit :=
    fun c member => whole.isDigit c (List.mem_of_mem_drop member)
  unfold Decimal.text
  dsimp only
  split
  -- Without an exponent zeros stand behind the digits, or a point among them, or zeros before them.
  · split
    · have point : ∀ c ∈ ".0".toList, Numeral.isNumeralChar c :=
        Text.forall_mem_of_all (by decide)
      rw [List.append_assoc]
      exact append whole.nonempty whole.isDigit
        (List.forall_mem_append.mpr ⟨belongs_replicate _, point⟩)
    · split
      · exact append (front _) (inFront _)
          (List.forall_mem_cons.mpr ⟨by decide, belongs_digits (behind _)⟩)
      · have zeros (n : Nat) := List.forall_mem_append.mpr
          ⟨belongs_replicate n, belongs_digits whole.isDigit⟩
        exact .opened (.inl rfl) (List.forall_mem_cons.mpr ⟨by decide, zeros _⟩)
  · have power := belongs_digits
      (wholeDigits_ofNat ((Text.ofNat d.digits).length + d.scale - 1).natAbs).isDigit
    rw [List.append_assoc]
    refine append (front 0) (inFront 1) (List.forall_mem_append.mpr ⟨?_,
      List.forall_mem_cons.mpr ⟨by decide, List.forall_mem_cons.mpr ⟨?_, power⟩⟩⟩)
    · split
      · nofun
      · exact List.forall_mem_cons.mpr ⟨by decide, belongs_digits (behind 1)⟩
    · split <;> decide

theorem ofNumber (number : Number) : NumeralText number.text := by
  cases number with
  | int value => exact ofInt value
  | float value =>
    have magnitude : NumeralText
        (if value.isZero then "0.0".toList else (Decimal.shortest value).text) := by
      split
      · exact .opened (.inl rfl) (Text.forall_mem_of_all (by decide))
      · exact decimal _
    change NumeralText value.text
    unfold Binary64.text
    dsimp only
    split
    · exact magnitude.minus
    · exact magnitude

end NumeralText

namespace Json

/-! ### Tokens -/

namespace Token

/-- In front of texts with the same tokens, both have the same tokens, unless a numeral goes on into
the texts. -/
def SameTokens (front other : Text) : Prop :=
  ∀ ⦃rest others : Text⦄, EndsNumeral rest → EndsNumeral others → scan? rest = scan? others →
    scan? (front ++ rest) = scan? (other ++ others)

theorem sameTokens_cuts {front : Text} {token : Token}
    (cuts : ∀ rest, Cuts front token rest) : SameTokens front front := by
  intro rest others _ _ same
  rw [cuts rest, cuts others, same]

theorem sameTokens_numeral {text : Text} (numeral : NumeralText text) : SameTokens text text := by
  obtain ⟨opens, belongs⟩ := numeral
  intro rest others ends othersEnd same
  rw [scan?_numeral opens belongs ends, scan?_numeral opens belongs othersEnd, same]

theorem scan?_mark {c : Char} {token : Token} (mark : Mark c token) {rest others : Text}
    (same : scan? rest = scan? others) : scan? (c :: rest) = scan? (c :: others) := by
  have cut := cuts_mark mark rest
  have otherCut := cuts_mark mark others
  rw [Cuts, List.singleton_append] at cut otherCut
  rw [cut, otherCut, same]

theorem scan?_blank {c : Char} (blank : isBlank c) (rest : Text) :
    scan? (c :: rest) = scan? rest := by
  rw [scan?]
  · rw [if_pos blank]
  -- No token begins with a blank.
  all_goals
    intros
    subst_vars
    exact absurd blank (by decide)

theorem scan?_indent (depth : Nat) (rest : Text) : scan? (indent depth ++ rest) = scan? rest := by
  rw [indent, List.cons_append, scan?_blank (by decide)]
  generalize 2 * depth = blanks
  induction blanks with
  | zero => rfl
  | succ blanks ih => rw [List.replicate_succ, List.cons_append, scan?_blank (by decide), ih]

theorem endsNumeral_indent (depth : Nat) (rest : Text) : EndsNumeral (indent depth ++ rest) := by
  intro c first
  cases first
  decide

theorem sameTokens_bracketed {first last : Char} {opening closing : Token}
    (opens : Mark first opening) (closes : Mark last closing) {inside otherInside : Text}
    (same : SameTokens inside otherInside) (depth : Nat) :
    SameTokens (first :: (inside ++ indent depth ++ [last]))
      (first :: (otherInside ++ [last])) := by
  intro rest others _ _ sameRest
  rw [List.cons_append, List.cons_append, List.append_assoc, List.append_assoc, List.append_assoc]
  apply scan?_mark opens
  apply same (endsNumeral_indent depth _) (endsNumeral_mark closes others)
  rw [scan?_indent]
  exact scan?_mark closes sameRest

theorem scan?_member (depth : Nat) (key : Text) {rest others : Text}
    (same : scan? rest = scan? others) :
    scan? (indent depth ++ Quoted.write key ++ ':' :: ' ' :: rest) =
      scan? (Quoted.write key ++ ':' :: others) := by
  have behindKey : scan? (':' :: ' ' :: rest) = scan? (':' :: others) :=
    scan?_mark .colon ((scan?_blank (by decide) rest).trans same)
  rw [List.append_assoc, scan?_indent, cuts_quoted key, cuts_quoted key, behindKey]

end Token

/-! ### Values -/

open Token

mutual

theorem sameTokens_prettyAt (depth : Nat) (value : Json) :
    SameTokens (prettyAt depth value) value.compact := by
  match value with
  | .null => exact sameTokens_cuts cuts_null
  | .bool value => exact sameTokens_cuts (cuts_bool value)
  | .number value => exact sameTokens_numeral (.ofNumber value)
  | .string text => exact sameTokens_cuts (cuts_quoted text)
  | .array [] =>
    intro rest others _ _ same
    exact scan?_mark .openArray (scan?_mark .closeArray same)
  | .array (item :: more) =>
    rw [prettyAt, compact]
    · exact sameTokens_bracketed .openArray .closeArray
        (sameTokens_prettyItems (depth + 1) (item :: more)) depth
    · nofun
  | .object [] =>
    intro rest others _ _ same
    exact scan?_mark .openObject (scan?_mark .closeObject same)
  | .object (member :: more) =>
    rw [prettyAt, compact]
    · exact sameTokens_bracketed .openObject .closeObject
        (sameTokens_prettyMembers (depth + 1) (member :: more)) depth
    · nofun

theorem sameTokens_prettyItems (depth : Nat) (items : List Json) :
    SameTokens (prettyItems depth items) (compactItems items) := by
  match items with
  | [] => exact fun rest others _ _ same => same
  | [item] =>
    intro rest others ends othersEnd same
    rw [prettyItems, compactItems, List.append_assoc, scan?_indent]
    exact sameTokens_prettyAt depth item ends othersEnd same
  | item :: next :: more =>
    intro rest others ends othersEnd same
    rw [prettyItems, compactItems, List.append_assoc, List.append_assoc, List.append_assoc,
      scan?_indent]
    · apply sameTokens_prettyAt depth item (endsNumeral_mark .comma _) (endsNumeral_mark .comma _)
      apply scan?_mark .comma
      exact sameTokens_prettyItems depth (next :: more) ends othersEnd same
    · nofun
    · nofun

theorem sameTokens_prettyMembers (depth : Nat) (members : List (Text × Json)) :
    SameTokens (prettyMembers depth members) (compactMembers members) := by
  match members with
  | [] => exact fun rest others _ _ same => same
  | [(key, value)] =>
    intro rest others ends othersEnd same
    have behindKey := sameTokens_prettyAt depth value ends othersEnd same
    simpa only [prettyMembers, compactMembers, List.append_assoc, List.cons_append] using
      scan?_member depth key behindKey
  | (key, value) :: next :: more =>
    intro rest others ends othersEnd same
    have behind := sameTokens_prettyMembers depth (next :: more) ends othersEnd same
    have behindKey := sameTokens_prettyAt depth value (endsNumeral_mark .comma _)
      (endsNumeral_mark .comma _) (scan?_mark .comma behind)
    rw [prettyMembers, compactMembers]
    · simpa only [List.append_assoc, List.cons_append] using scan?_member depth key behindKey
    · nofun
    · nofun

end

/-- Indented text is read as compact text is. -/
theorem parse?_pretty_eq (value : Json) : parse? value.pretty = parse? value.compact := by
  have noMore : EndsNumeral [] := nofun
  have same := sameTokens_prettyAt 0 value noMore noMore rfl
  rw [List.append_nil, List.append_nil] at same
  rw [parse?, parse?, read?, read?, pretty, same]

theorem parse?_pretty {value : Json} (floatFree : FloatFree depthLimit value) :
    parse? value.pretty = some value := by
  rw [parse?_pretty_eq, parse?_compact floatFree]

end Json
end RoutePlan

import RoutePlan.Json.Quoted

/-!
Quoted text reads back. Written between quotes, a text is found up to its closing quote whatever
follows it, and resolving the escapes gives the text again.
-/
namespace RoutePlan.Json.Quoted

inductive Written : Char → Text → Prop where
  | letter {c letter : Char} (names : escapedChar? letter = some c) (noCode : letter ≠ 'u') :
      Written c ['\\', letter]
  | code {c : Char} (control : c.toNat < 0x20) :
      Written c ['\\', 'u', '0', '0', lowerHexDigit (c.toNat / 16), lowerHexDigit (c.toNat % 16)]
  | plain {c : Char} (notQuote : c ≠ '"') (notEscape : c ≠ '\\') (notControl : ¬ isControl c) :
      Written c [c]

theorem named_of_mem_letterEscapes :
    ∀ entry ∈ letterEscapes, escapedChar? entry.2 = some entry.1 ∧ entry.2 ≠ 'u' := by
  decide

theorem written_escapeChar (c : Char) : Written c (escapeChar c) := by
  unfold escapeChar
  split
  · rename_i special
    refine .letter (if_pos ?_) ?_
    · exact special.imp_right .inl
    · rcases special with rfl | rfl <;> decide
  · rename_i notSpecial
    split
    · rename_i letter found
      obtain ⟨before, after, split, -⟩ := List.lookup_eq_some_iff.mp found
      have member : (c, letter) ∈ letterEscapes := by simp [split]
      obtain ⟨names, noCode⟩ := named_of_mem_letterEscapes _ member
      exact .letter names noCode
    · split
      · rename_i control
        exact .code (of_decide_eq_true control)
      · rename_i notControl
        rw [not_or] at notSpecial
        exact .plain notSpecial.1 notSpecial.2 notControl

theorem code_of_control : ∀ n < 0x20,
    Text.nat? 16 ['0', '0', lowerHexDigit (n / 16), lowerHexDigit (n % 16)] = some n := by
  decide

theorem lowerHexDigit_plain : ∀ n < 16, lowerHexDigit n ≠ '"' ∧ lowerHexDigit n ≠ '\\' := by
  decide

/-! ### The closing quote -/

theorem untilQuote?_plain {c : Char} (notQuote : c ≠ '"') (notEscape : c ≠ '\\') (t : Text) :
    untilQuote? (c :: t) = (untilQuote? t).map fun found => (c :: found.1, found.2) := by
  rw [untilQuote?]
  · exact notQuote
  · intro d more same
    exact absurd same notEscape

theorem untilQuote?_written {c : Char} {text : Text} (written : Written c text) (t : Text) :
    untilQuote? (text ++ t) =
      (untilQuote? t).map fun found => (text ++ found.1, found.2) := by
  cases written with
  | letter names noCode => rfl
  | code control =>
    have high := lowerHexDigit_plain (c.toNat / 16) (by omega)
    have low := lowerHexDigit_plain (c.toNat % 16) (by omega)
    simp only [List.cons_append, List.nil_append]
    rw [untilQuote?, untilQuote?_plain (by decide) (by decide),
      untilQuote?_plain (by decide) (by decide), untilQuote?_plain high.1 high.2,
      untilQuote?_plain low.1 low.2]
    simp only [Option.map_map]
    rfl
  | plain notQuote notEscape notControl =>
    rw [List.singleton_append, untilQuote?_plain notQuote notEscape]
    rfl

theorem untilQuote?_escape (t rest : Text) :
    untilQuote? (escape t ++ '"' :: rest) = some (escape t, rest) := by
  induction t with
  | nil => rfl
  | cons c t ih =>
    rw [escape, List.flatMap_cons, List.append_assoc,
      untilQuote?_written (written_escapeChar c), ← escape, ih]
    rfl

/-! ### The escapes -/

theorem unescape?_code {a b c d : Char} {unit : Nat}
    (spelled : Text.nat? 16 [a, b, c, d] = some unit) (notHigh : isHighSurrogate unit = false)
    (notLow : isLowSurrogate unit = false) (t : Text) :
    unescape? ('\\' :: 'u' :: a :: b :: c :: d :: t) =
      (unescape? t).map (Char.ofNat unit :: ·) := by
  by_cases another : ∃ e f g h more, t = '\\' :: 'u' :: e :: f :: g :: h :: more
  · obtain ⟨e, f, g, h, more, same⟩ := another
    subst same
    rw [unescape?, spelled]
    simp only [Option.bind_eq_bind, Option.bind_some, notHigh, notLow]
    cases unescape? ('\\' :: 'u' :: e :: f :: g :: h :: more) <;> rfl
  · rw [unescape?, spelled]
    · simp only [Option.bind_eq_bind, Option.bind_some, notHigh, notLow]
      cases unescape? t <;> rfl
    · intro e f g h more same
      exact another ⟨e, f, g, h, more, same⟩

theorem unescape?_written {c : Char} {text : Text} (written : Written c text) (t : Text) :
    unescape? (text ++ t) = (unescape? t).map (c :: ·) := by
  cases written with
  | letter names noCode =>
    simp only [List.cons_append, List.nil_append]
    rw [unescape?, names]
    · cases unescape? t <;> rfl
    · intro a b d e f g h i more same
      exact absurd same noCode
    · intro a b d e more same
      exact absurd same noCode
  | code control =>
    simp only [List.cons_append, List.nil_append]
    rw [unescape?_code (code_of_control _ control), Char.ofNat_toNat]
    · simp [isHighSurrogate]
      omega
    · simp [isLowSurrogate]
      omega
  | plain notQuote notEscape notControl =>
    rw [List.singleton_append, unescape?]
    · simp only [notEscape, notControl]
      cases unescape? t <;> rfl
    all_goals
      intros
      contradiction

theorem unescape?_escape (t : Text) : unescape? (escape t) = some t := by
  induction t with
  | nil => rfl
  | cons c t ih =>
    rw [escape, List.flatMap_cons, unescape?_written (written_escapeChar c), ← escape, ih]
    rfl

end RoutePlan.Json.Quoted

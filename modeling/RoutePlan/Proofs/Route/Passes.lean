import RoutePlan.Proofs.Route.Canonical

/-!
The passes of canonicalizing, one character after the other. None of them looks across an equals
sign: no slash at the end stands before one, no extension reaches over one, and no escaped dot holds
one. So what stands before an equals sign and what stands behind it are canonicalized apart.
-/
namespace RoutePlan

theorem canonicalize_eq (strip : Bool) (path : Text) :
    canonicalize strip path = restoreDots (collapseExtension (settled strip path)) := rfl

theorem dropWhile_append_of_stops {p : Char → Bool} (before : Text) {after : Text}
    (stops : ∀ c, after.head? = some c → ¬ p c) :
    (before ++ after).dropWhile p = before.dropWhile p ++ after := by
  induction before with
  | nil =>
    cases after with
    | nil => rfl
    | cons c after => rw [List.nil_append, List.dropWhile_cons_of_neg (stops c rfl)]; rfl
  | cons c before ih =>
    rw [List.cons_append, List.dropWhile_cons, List.dropWhile_cons]
    split
    · exact ih
    · rfl

/-! ### Slashes at the end -/

theorem stripTrailingSlashes_eq (path : Text) :
    stripTrailingSlashes path =
      if (path.rdropWhile (· == '/')).isEmpty then ['/'] else path.rdropWhile (· == '/') := rfl

theorem rdropWhile_append_of_last {before : Text} (last : before.getLast? ≠ some '/')
    (after : Text) :
    (before ++ after).rdropWhile (· == '/') = before ++ after.rdropWhile (· == '/') := by
  have stops : ∀ c, before.reverse.head? = some c → ¬ (c == '/') = true := by
    intro c first isSlash
    rw [List.head?_reverse] at first
    exact last (beq_iff_eq.mp isSlash ▸ first)
  rw [List.rdropWhile, List.reverse_append, dropWhile_append_of_stops _ stops, List.reverse_append,
    List.reverse_reverse, List.rdropWhile]

/-! ### Extensions -/

theorem opensWithExtension_iff {c : Char} {rest : Text} :
    OpensWithExtension (c :: rest) ↔ c = '/' ∧ ∃ extension, rest = '.' :: extension ∧
      isExtension extension := by
  constructor
  · rintro ⟨word, more, same, shape⟩
    obtain ⟨rfl, rfl⟩ := List.cons.inj same
    exact ⟨rfl, _, rfl, isExtension_iff.mpr ⟨word, more, rfl, shape⟩⟩
  · rintro ⟨rfl, extension, rfl, ends⟩
    obtain ⟨word, more, rfl, shape⟩ := isExtension_iff.mp ends
    exact ⟨word, more, rfl, shape⟩

theorem extensionIndex?_cons {c : Char} {rest : Text} (closed : ¬ OpensWithExtension (c :: rest)) :
    extensionIndex? (c :: rest) = (extensionIndex? rest).map (· + 1) := by
  rw [opensWithExtension_iff] at closed
  rw [extensionIndex?.eq_def]
  split
  · rename_i nothing
    cases nothing
  · rename_i extension same
    cases same
    rw [if_neg fun ends => closed ⟨rfl, extension, rfl, ends⟩]
  · rename_i same
    cases same
    rfl

theorem collapseExtension_opens {c : Char} {rest : Text} (opens : OpensWithExtension (c :: rest)) :
    collapseExtension (c :: rest) = rest := by
  rw [collapseExtension, extensionIndex?_eq_zero_iff.mpr opens]
  rfl

theorem collapseExtension_closed {c : Char} {rest : Text}
    (closed : ¬ OpensWithExtension (c :: rest)) :
    collapseExtension (c :: rest) = c :: collapseExtension rest := by
  rw [collapseExtension, collapseExtension, extensionIndex?_cons closed]
  cases extensionIndex? rest <;> rfl

theorem collapseExtension_append_of_noSlash {front : Text} (noSlash : '/' ∉ front) (path : Text) :
    collapseExtension (front ++ path) = front ++ collapseExtension path := by
  induction front with
  | nil => rfl
  | cons c front ih =>
    obtain ⟨differs, later⟩ := not_or.mp (mt List.mem_cons.mpr noSlash)
    have closed : ¬ OpensWithExtension (c :: (front ++ path)) := fun opens =>
      differs (opensWithExtension_iff.mp opens).1.symm
    rw [List.cons_append, collapseExtension_closed closed, ih later, List.cons_append]

theorem isExtension_append_equals (text after : Text) :
    isExtension (text ++ '=' :: after) = isExtension (text ++ ['=']) := by
  have stops : ∀ after c, (('=' :: after : Text).head? = some c) → ¬ Text.isWordChar c := by
    intro after c first
    cases first
    decide
  have word : ∀ after, (text ++ '=' :: after).takeWhile Text.isWordChar =
      text.takeWhile Text.isWordChar := by
    intro after
    induction text with
    | nil => rfl
    | cons c text ih => rw [List.cons_append, List.takeWhile_cons, List.takeWhile_cons, ih]
  simp only [isExtension, word, dropWhile_append_of_stops text (stops _)]
  cases text.dropWhile Text.isWordChar <;> rfl

theorem opensWithExtension_append_equals {c : Char} {before after : Text} :
    OpensWithExtension (c :: (before ++ '=' :: after)) ↔
      OpensWithExtension (c :: (before ++ ['='])) := by
  rw [opensWithExtension_iff, opensWithExtension_iff]
  cases before with
  | nil => simp
  | cons d before =>
    have shape : ∀ after : Text, (∃ extension, d :: before ++ '=' :: after = '.' :: extension ∧
        isExtension extension) ↔ d = '.' ∧ isExtension (before ++ ['=']) := by
      intro after
      constructor
      · rintro ⟨extension, same, ends⟩
        obtain ⟨rfl, rfl⟩ := List.cons.inj same
        exact ⟨rfl, isExtension_append_equals before after ▸ ends⟩
      · rintro ⟨rfl, ends⟩
        exact ⟨_, rfl, (isExtension_append_equals before after).trans ends⟩
    rw [shape, shape]

theorem collapseExtension_append_equals (before : Text) :
    (∃ collapsed, ∀ after,
      collapseExtension (before ++ '=' :: after) = collapsed ++ '=' :: after) ∨
    ∀ after,
      collapseExtension (before ++ '=' :: after) = before ++ '=' :: collapseExtension after := by
  induction before with
  | nil =>
    right
    intro after
    exact @collapseExtension_append_of_noSlash ['='] (by decide) after
  | cons c before ih =>
    by_cases opens : OpensWithExtension (c :: (before ++ ['=']))
    · left
      exact ⟨before, fun after =>
        collapseExtension_opens (opensWithExtension_append_equals.mpr opens)⟩
    · have closed : ∀ after, collapseExtension (c :: (before ++ '=' :: after)) =
          c :: collapseExtension (before ++ '=' :: after) := fun after =>
        collapseExtension_closed (mt opensWithExtension_append_equals.mp opens)
      rcases ih with ⟨collapsed, same⟩ | same
      · left
        exact ⟨c :: collapsed, fun after => by rw [List.cons_append, closed, same]; rfl⟩
      · right
        intro after
        rw [List.cons_append, closed, same]
        rfl

/-! ### Escaped dots -/

theorem restoreDots_escaped (rest : Text) :
    restoreDots ('/' :: '\\' :: '.' :: rest) = '/' :: '.' :: restoreDots rest :=
  Text.replace_append (by decide) _ rest

theorem restoreDots_cons {c : Char} {rest : Text} (stays : ¬ "/\\.".toList <+: c :: rest) :
    restoreDots (c :: rest) = c :: restoreDots rest := Text.replace_cons stays _

theorem restoreDots_induction {motive : Text → Prop} (nil : motive [])
    (escaped : ∀ rest, motive rest → motive ('/' :: '\\' :: '.' :: rest))
    (cons : ∀ c rest, ¬ "/\\.".toList <+: c :: rest → motive rest → motive (c :: rest))
    (path : Text) : motive path := Text.replace_induction (by decide) nil escaped cons path

theorem restoreDots_append_equals (before after : Text) :
    restoreDots (before ++ '=' :: after) = restoreDots before ++ '=' :: restoreDots after :=
  Text.replace_append_break (by decide) (by decide) _ before after

theorem restoreDots_append_of_noSlash {front : Text} (noSlash : '/' ∉ front) (path : Text) :
    restoreDots (front ++ path) = front ++ restoreDots path := by
  induction front with
  | nil => rfl
  | cons c front ih =>
    obtain ⟨differs, later⟩ := not_or.mp (mt List.mem_cons.mpr noSlash)
    have pass : restoreDots (c :: (front ++ path)) = c :: restoreDots (front ++ path) :=
      Text.replace_cons_of_ne (Ne.symm differs) _ _ _
    rw [List.cons_append, pass, ih later, List.cons_append]

end RoutePlan

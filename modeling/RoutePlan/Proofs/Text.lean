import RoutePlan.Text

/-!
Texts joined, texts cut at a separator, and the numbers that digits spell. Joining with one
character and cutting at it undo each other, and a run of digits spells its decimal value.
-/
namespace RoutePlan.Text

/-! ### Joining -/

theorem join_cons_cons (separator first next : Text) (more : List Text) :
    join separator (first :: next :: more) =
      first ++ (separator ++ join separator (next :: more)) := by
  rw [join, List.intercalate_cons_of_ne_nil (List.cons_ne_nil _ _), List.append_assoc]
  rfl

theorem join_append (separator : Text) {front back : List Text} (hasFront : front ≠ [])
    (hasBack : back ≠ []) :
    join separator (front ++ back) =
      join separator front ++ (separator ++ join separator back) := by
  induction front with
  | nil => contradiction
  | cons first more ih =>
    cases more with
    | nil =>
      obtain ⟨next, later, split⟩ := List.exists_cons_of_ne_nil hasBack
      subst split
      simp [join]
    | cons next more =>
      have joined := ih (List.cons_ne_nil next more)
      simp only [List.cons_append] at joined ⊢
      simp only [join_cons_cons, joined, List.append_assoc]

/-! ### Cutting -/

structure CutAt (separator : Char) (t : Text) (pieces : List Text) : Prop where
  nonempty : pieces ≠ []
  without : ∀ piece ∈ pieces, separator ∉ piece
  joined : join [separator] pieces = t

theorem splitWhere_eq_splitOnP (isSeparator : Char → Bool) (t : Text) :
    splitWhere isSeparator t = t.splitOnP isSeparator := by
  induction t with
  | nil => simp [splitWhere]
  | cons c rest ih =>
    rw [splitWhere, List.splitOnP_cons_eq_if_modifyHead, ih]
    cases isSeparator c with
    | true => rfl
    | false =>
      obtain ⟨first, more, split⟩ :=
        List.exists_cons_of_ne_nil (List.splitOnP_ne_nil isSeparator rest)
      rw [split]
      rfl

theorem not_isSeparator_of_mem_splitWhere {isSeparator : Char → Bool} (t : Text) :
    ∀ piece ∈ splitWhere isSeparator t, ∀ c ∈ piece, ¬ isSeparator c := by
  induction t with
  | nil => simp [splitWhere]
  | cons d rest ih =>
    rw [splitWhere]
    split
    · simpa using ih
    · rename_i notSeparator _
      simp [notSeparator]
    · rename_i first more notSeparator split
      rw [split] at ih
      intro piece member c inside
      rcases List.mem_cons.mp member with rfl | later
      · rcases List.mem_cons.mp inside with rfl | inFirst
        · simp [notSeparator]
        · exact ih first List.mem_cons_self c inFirst
      · exact ih piece (List.mem_cons_of_mem _ later) c inside

theorem cutAt_iff (separator : Char) (t : Text) (pieces : List Text) :
    CutAt separator t pieces ↔ pieces = splitWhere (· == separator) t := by
  constructor
  · intro cut
    rw [splitWhere_eq_splitOnP, ← List.splitOn_eq_splitOnP, ← cut.joined]
    exact (List.splitOn_intercalate separator cut.without cut.nonempty).symm
  · intro same
    subst same
    refine ⟨?_, ?_, ?_⟩
    · rw [splitWhere_eq_splitOnP]
      exact List.splitOnP_ne_nil _ _
    · intro piece member inside
      exact not_isSeparator_of_mem_splitWhere t piece member separator inside (beq_self_eq_true _)
    · rw [splitWhere_eq_splitOnP, ← List.splitOn_eq_splitOnP]
      exact List.intercalate_splitOn separator

theorem splitWhere_append (separator : Char) (before after : Text) :
    splitWhere (· == separator) (before ++ separator :: after) =
      splitWhere (· == separator) before ++ splitWhere (· == separator) after := by
  simp only [splitWhere_eq_splitOnP]
  exact List.splitOnP_append_cons before after (beq_self_eq_true separator)

theorem cutAt?_eq_none_iff (separator : Char) (t : Text) :
    cutAt? separator t = none ↔ separator ∉ t := by
  induction t with
  | nil => simp [cutAt?]
  | cons c rest ih =>
    rw [cutAt?]
    split
    · rename_i same
      simp [same]
    · rename_i differ
      simp [ih, Ne.symm differ]

theorem cutAt?_first {separator : Char} {before : Text} (absent : separator ∉ before)
    (after : Text) : cutAt? separator (before ++ separator :: after) = some (before, after) := by
  induction before with
  | nil => rw [List.nil_append, cutAt?, if_pos rfl]
  | cons c rest ih =>
    obtain ⟨differ, absentRest⟩ : separator ≠ c ∧ separator ∉ rest := by simpa using absent
    rw [List.cons_append, cutAt?, if_neg (Ne.symm differ), ih absentRest]
    rfl

/-! ### Numbers -/

theorem isDigit_range {c : Char} (digit : c.isDigit) : 48 ≤ c.toNat ∧ c.toNat ≤ 57 := by
  simpa [Char.isDigit, UInt32.le_iff_toNat_le] using digit

theorem digit_lt {c : Char} (digit : c.isDigit) : c.toNat - '0'.toNat < 10 := by
  have range := isDigit_range digit
  have zero : '0'.toNat = 48 := rfl
  omega

theorem digitChar_of_isDigit {c : Char} (digit : c.isDigit) :
    Nat.digitChar (c.toNat - '0'.toNat) = c := by
  have range := isDigit_range digit
  have all : ∀ n < 58, 48 ≤ n → Nat.digitChar (n - '0'.toNat) = Char.ofNat n := by decide
  rw [all c.toNat (by omega) range.1, Char.ofNat_toNat]

theorem digit?_ten (c : Char) :
    digit? 10 c = if c.isDigit then some (c.toNat - '0'.toNat) else none := by
  unfold digit?
  split
  · rename_i digit
    exact Option.filter_some_pos (decide_eq_true (digit_lt digit))
  · -- A letter is a digit of a greater base only.
    split
    · simp
    · split <;> simp

theorem foldlM_digit?_ten (t : Text) (n : Nat) :
    t.foldlM (fun n c => (digit? 10 c).map (10 * n + ·)) n =
      if t.all Char.isDigit then some (Nat.ofDigitChars 10 t n) else none := by
  induction t generalizing n with
  | nil => rfl
  | cons c rest ih =>
    rw [List.foldlM_cons, digit?_ten, List.all_cons]
    by_cases digit : c.isDigit
    · rw [if_pos digit, Option.map_some, Option.bind_eq_bind, Option.bind_some, ih,
        Nat.ofDigitChars_cons, digit, Bool.true_and]
    · rw [if_neg digit, Bool.eq_false_iff.mpr digit]
      rfl

theorem nat?_ten_eq_some_iff (t : Text) (n : Nat) :
    nat? 10 t = some n ↔ t ≠ [] ∧ (∀ c ∈ t, c.isDigit) ∧ Nat.ofDigitChars 10 t 0 = n := by
  unfold nat?
  cases t with
  | nil => simp
  | cons c rest =>
    rw [List.isEmpty_cons, if_neg Bool.false_ne_true, foldlM_digit?_ten,
      Option.ite_none_right_eq_some, Option.some.injEq, List.all_eq_true]
    exact ⟨fun spelled => ⟨List.cons_ne_nil c rest, spelled⟩, fun spelled => spelled.2⟩

theorem nat?_ofNat (n : Nat) : nat? 10 (ofNat n) = some n := by
  rw [nat?_ten_eq_some_iff]
  exact ⟨Nat.toDigits_ne_nil,
    fun c member => Nat.isDigit_of_mem_toDigits (by decide) (by decide) member,
    Nat.ofDigitChars_ten_toDigits⟩

end RoutePlan.Text

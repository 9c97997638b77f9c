/-!
Text as characters: the word class, the total order of texts, cutting and replacing, and the numbers
that digits spell.
-/
namespace RoutePlan

/-- Text is a list of characters, so that a position in it counts characters. -/
abbrev Text := List Char

namespace Text

def isWordChar (c : Char) : Bool := c.isAlphanum || c == '_'

theorem forall_mem_of_all {p : Char → Prop} [DecidablePred p] {t : Text}
    (all : t.all fun c => decide (p c)) : ∀ c ∈ t, p c :=
  fun c member => of_decide_eq_true (List.all_eq_true.mp all c member)

/-- The order of a dictionary: the first difference decides, by code point, and a text stands before
its continuations. -/
def precedes : Text → Text → Bool
  | _, [] => false
  | [], _ :: _ => true
  | a :: s, b :: t => if a = b then precedes s t else decide (a.toNat < b.toNat)

theorem not_precedes_self (t : Text) : precedes t t = false := by
  induction t with
  | nil => rfl
  | cons a t ih => simp [precedes, ih]

theorem ne_of_precedes {s t : Text} (before : precedes s t) : s ≠ t := by
  rintro rfl
  rw [not_precedes_self] at before
  contradiction

theorem precedes_trans {s t u : Text} (st : precedes s t) (tu : precedes t u) :
    precedes s u := by
  induction s generalizing t u with
  | nil => cases u <;> cases t <;> simp_all [precedes]
  | cons a s ih =>
    cases t with
    | nil => simp [precedes] at st
    | cons b t =>
      cases u with
      | nil => simp [precedes] at tu
      | cons c u =>
        simp only [precedes] at st tu ⊢
        grind

theorem precedes_or_precedes {s t : Text} (differ : s ≠ t) : precedes s t ∨ precedes t s := by
  induction s generalizing t with
  | nil => cases t <;> simp_all [precedes]
  | cons a s ih =>
    cases t with
    | nil => simp [precedes]
    | cons b t =>
      by_cases same : a = b
      · subst same
        simpa [precedes] using ih fun h => differ (by rw [h])
      · have : a.toNat ≠ b.toNat := fun h => same (Char.toNat_inj.1 h)
        simp only [precedes, same, Ne.symm same, if_false, decide_eq_true_eq]
        omega

def splitWhere (isSeparator : Char → Bool) : Text → List Text
  | [] => [[]]
  | c :: rest =>
    match isSeparator c, splitWhere isSeparator rest with
    | true, pieces => [] :: pieces
    | false, [] => [[c]]
    | false, piece :: pieces => (c :: piece) :: pieces

/-- The maximal runs of word characters, with an empty one wherever two other characters meet. -/
def wordRuns (t : Text) : List Text := splitWhere (fun c => !isWordChar c) t

theorem wordRuns_of_isWordChar {c : Char} (isWord : isWordChar c) (rest : Text) :
    ∃ run later, wordRuns rest = run :: later ∧ wordRuns (c :: rest) = (c :: run) :: later := by
  have nonempty : ∀ t, splitWhere (fun c => !isWordChar c) t ≠ [] := by
    intro t
    cases t with
    | nil => simp [splitWhere]
    | cons d t => rw [splitWhere]; split <;> simp
  cases runs : splitWhere (fun c => !isWordChar c) rest with
  | nil => exact absurd runs (nonempty rest)
  | cons run later => exact ⟨run, later, runs, by rw [wordRuns, splitWhere, runs, isWord]; rfl⟩

theorem wordRuns_of_not_isWordChar {c : Char} (notWord : ¬ isWordChar c) (rest : Text) :
    wordRuns (c :: rest) = [] :: wordRuns rest := by
  rw [wordRuns, splitWhere]
  simp [notWord, wordRuns]

structure WordRun (word rest : Text) : Prop where
  isWord : ∀ c ∈ word, isWordChar c
  ends : ∀ c, rest.head? = some c → ¬ isWordChar c

theorem WordRun.takeWhile {word rest : Text} (run : WordRun word rest) :
    (word ++ rest).takeWhile isWordChar = word := by
  rw [List.takeWhile_append_of_pos run.isWord]
  cases rest with
  | nil => simp
  | cons c rest => simp [run.ends c rfl]

theorem WordRun.dropWhile {word rest : Text} (run : WordRun word rest) :
    (word ++ rest).dropWhile isWordChar = rest := by
  rw [List.dropWhile_append_of_pos run.isWord]
  cases rest with
  | nil => simp
  | cons c rest => simp [run.ends c rfl]

theorem wordRun_of_text (t : Text) : WordRun (t.takeWhile isWordChar) (t.dropWhile isWordChar) where
  isWord _ member := List.all_eq_true.mp List.all_takeWhile _ member
  ends c first := by
    have stops := List.head?_dropWhile_not isWordChar t
    rw [first] at stops
    simpa using stops

theorem WordRun.wordRuns {word rest : Text} (run : WordRun word rest) :
    wordRuns (word ++ rest) = word :: (wordRuns rest).tail := by
  obtain ⟨isWord, ends⟩ := run
  induction word with
  | nil =>
    cases rest with
    | nil => rfl
    | cons c rest => rw [List.nil_append, wordRuns_of_not_isWordChar (ends c rfl), List.tail_cons]
  | cons c word ih =>
    have later := ih fun d member => isWord d (List.mem_cons_of_mem _ member)
    obtain ⟨first, others, before, after⟩ :=
      wordRuns_of_isWordChar (isWord c List.mem_cons_self) (word ++ rest)
    rw [later] at before
    obtain ⟨rfl, rfl⟩ := List.cons.inj before
    exact after

def cutAt? (separator : Char) : Text → Option (Text × Text)
  | [] => none
  | c :: rest =>
    if c = separator then some ([], rest)
    else (cutAt? separator rest).map fun (before, after) => (c :: before, after)

def replaceAfter (pattern new : Text) : Nat → Text → Text
  | _, [] => []
  | skip + 1, _ :: rest => replaceAfter pattern new skip rest
  | 0, c :: rest =>
    if pattern.isPrefixOf (c :: rest) then new ++ replaceAfter pattern new (pattern.length - 1) rest
    else c :: replaceAfter pattern new 0 rest

/-- Left to right, each occurrence of a non-empty `pattern` that begins after the last one ended. -/
def replace (pattern new t : Text) : Text := replaceAfter pattern new 0 t

theorem replaceAfter_eq_drop (pattern new : Text) (skip : Nat) (t : Text) :
    replaceAfter pattern new skip t = replace pattern new (t.drop skip) := by
  induction skip generalizing t with
  | zero => rfl
  | succ skip ih =>
    cases t with
    | nil => rfl
    | cons c rest => exact ih rest

theorem replace_append {pattern : Text} (nonempty : pattern ≠ []) (new rest : Text) :
    replace pattern new (pattern ++ rest) = new ++ replace pattern new rest := by
  cases pattern with
  | nil => exact absurd rfl nonempty
  | cons p more =>
    have found : (p :: more).isPrefixOf (p :: (more ++ rest)) :=
      List.isPrefixOf_iff_prefix.mpr ⟨rest, rfl⟩
    rw [List.cons_append, replace, replaceAfter, if_pos found, replaceAfter_eq_drop,
      List.length_cons, Nat.add_sub_cancel, List.drop_left]

theorem replace_cons {pattern : Text} {c : Char} {rest : Text} (stays : ¬ pattern <+: c :: rest)
    (new : Text) : replace pattern new (c :: rest) = c :: replace pattern new rest := by
  rw [replace, replaceAfter, if_neg fun found => stays (List.isPrefixOf_iff_prefix.mp found)]
  rfl

theorem replace_cons_of_ne {p c : Char} (differs : c ≠ p) (pattern new rest : Text) :
    replace (p :: pattern) new (c :: rest) = c :: replace (p :: pattern) new rest :=
  replace_cons (fun found => differs (List.cons_prefix_cons.mp found).1.symm) new

theorem replace_induction {motive : Text → Prop} {pattern : Text} (nonempty : pattern ≠ [])
    (nil : motive []) (found : ∀ rest, motive rest → motive (pattern ++ rest))
    (cons : ∀ c rest, ¬ pattern <+: c :: rest → motive rest → motive (c :: rest)) (t : Text) :
    motive t := by
  induction size : t.length using Nat.strongRecOn generalizing t with
  | ind n ih =>
    subst size
    cases t with
    | nil => exact nil
    | cons c rest =>
      by_cases opens : pattern <+: c :: rest
      · obtain ⟨more, whole⟩ := opens
        have longer := congrArg List.length whole
        have positive := List.length_pos_iff.mpr nonempty
        rw [List.length_append] at longer
        rw [← whole]
        exact found more (ih more.length (by omega) more rfl)
      · exact cons c rest opens (ih rest.length (Nat.lt_succ_self _) rest rfl)

theorem replace_append_break {pattern : Text} {c : Char} (nonempty : pattern ≠ [])
    (absent : c ∉ pattern) (new before after : Text) :
    replace pattern new (before ++ c :: after) =
      replace pattern new before ++ c :: replace pattern new after := by
  have inside {t : Text} (opens : pattern <+: t ++ c :: after) : pattern <+: t := by
    rcases List.prefix_or_prefix_of_prefix opens (List.prefix_append t _) with short | ⟨more, rfl⟩
    · exact short
    · cases more with
      | nil => exact ⟨[], by simp⟩
      | cons d more =>
        have front := (List.prefix_append_right_inj t).mp opens
        obtain rfl := (List.cons_prefix_cons.mp front).1
        exact absurd (by simp) absent
  induction before using replace_induction nonempty with
  | nil =>
    have stays : ¬ pattern <+: c :: after := fun opens =>
      nonempty (List.prefix_nil.mp (inside opens))
    exact replace_cons stays new
  | found rest ih =>
    rw [List.append_assoc, replace_append nonempty, ih, replace_append nonempty, List.append_assoc]
  | cons d rest stays ih =>
    have staysBefore : ¬ pattern <+: d :: (rest ++ c :: after) := fun opens => stays (inside opens)
    rw [List.cons_append, replace_cons staysBefore, ih, replace_cons stays, List.cons_append]

def digit? (base : Nat) (c : Char) : Option Nat :=
  let value? :=
    if c.isDigit then some (c.toNat - '0'.toNat)
    else if 'a' ≤ c ∧ c ≤ 'f' then some (c.toNat - 'a'.toNat + 10)
    else if 'A' ≤ c ∧ c ≤ 'F' then some (c.toNat - 'A'.toNat + 10)
    else none
  value?.filter (· < base)

def nat? (base : Nat) (t : Text) : Option Nat :=
  if t.isEmpty then none else t.foldlM (fun n c => (digit? base c).map (base * n + ·)) 0

def ofNat (n : Nat) : Text := Nat.toDigits 10 n

def ofInt (i : Int) : Text := if i < 0 then '-' :: ofNat i.natAbs else ofNat i.natAbs

def join (separator : Text) (texts : List Text) : Text := List.intercalate separator texts

end Text
end RoutePlan

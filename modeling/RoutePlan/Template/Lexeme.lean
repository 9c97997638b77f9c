import RoutePlan.Text

/-!
The lexemes of a template: colons with the word that follows them, and single characters. Put
together again, they give the template.
-/
namespace RoutePlan

inductive Lexeme where
  | char (c : Char)
  | escapedColon (word : Text)
  | colon (word : Text)
  deriving DecidableEq

namespace Lexeme

def source : Lexeme → Text
  | .char c => [c]
  | .escapedColon word => '\\' :: ':' :: word
  | .colon word => ':' :: word

/-- A word is as long as it can be, and its letters never begin a lexeme of their own. -/
def scan : Text → List Lexeme
  | [] => []
  | '\\' :: ':' :: rest =>
    .escapedColon (rest.takeWhile Text.isWordChar) :: scan (rest.dropWhile Text.isWordChar)
  | ':' :: rest => .colon (rest.takeWhile Text.isWordChar) :: scan (rest.dropWhile Text.isWordChar)
  | c :: rest => .char c :: scan rest
termination_by text => text.length
decreasing_by
  all_goals
    simp only [List.length_cons]
    have := (List.dropWhile_suffix Text.isWordChar (l := rest)).length_le
    omega

@[simp] theorem scan_nil : scan [] = [] := by rw [scan]

theorem scan_char {c : Char} {rest : Text} (notColon : c ≠ ':')
    (notEscape : ¬ (c = '\\' ∧ rest.head? = some ':')) :
    scan (c :: rest) = .char c :: scan rest := by
  rw [scan]
  · rintro more rfl rfl
    exact notEscape ⟨rfl, rfl⟩
  · exact notColon

theorem scan_escapedColon {word rest : Text} (run : Text.WordRun word rest) :
    scan ('\\' :: ':' :: (word ++ rest)) = .escapedColon word :: scan rest := by
  rw [scan, run.takeWhile, run.dropWhile]

theorem scan_colon {word rest : Text} (run : Text.WordRun word rest) :
    scan (':' :: (word ++ rest)) = .colon word :: scan rest := by
  rw [scan, run.takeWhile, run.dropWhile]

/-- What holds of the empty text, and of a text once it holds of what its first lexeme leaves, holds
of every text. -/
theorem scan_induction {motive : Text → Prop} (nil : motive [])
    (char : ∀ c rest, c ≠ ':' → ¬ (c = '\\' ∧ rest.head? = some ':') → motive rest →
      motive (c :: rest))
    (escapedColon : ∀ word rest, Text.WordRun word rest → motive rest →
      motive ('\\' :: ':' :: (word ++ rest)))
    (colon : ∀ word rest, Text.WordRun word rest → motive rest → motive (':' :: (word ++ rest)))
    (text : Text) : motive text := by
  induction text using scan.induct with
  | case1 => exact nil
  | case2 rest ih =>
    have whole := escapedColon _ _ (Text.wordRun_of_text rest) ih
    rwa [List.takeWhile_append_dropWhile] at whole
  | case3 rest ih =>
    have whole := colon _ _ (Text.wordRun_of_text rest) ih
    rwa [List.takeWhile_append_dropWhile] at whole
  | case4 c rest notEscape notColon ih =>
    refine char c rest notColon ?_ ih
    rintro ⟨isBackslash, isColon⟩
    cases rest with
    | nil => simp at isColon
    | cons d more =>
      have second : d = ':' := by simpa using isColon
      exact notEscape more isBackslash (by rw [second])

theorem source_scan (text : Text) : (scan text).flatMap source = text := by
  induction text using scan_induction with
  | nil => rw [scan_nil, List.flatMap_nil]
  | char c rest notColon notEscape ih =>
    rw [scan_char notColon notEscape, List.flatMap_cons, ih]
    rfl
  | escapedColon word rest run ih =>
    rw [scan_escapedColon run, List.flatMap_cons, ih]
    rfl
  | colon word rest run ih =>
    rw [scan_colon run, List.flatMap_cons, ih]
    rfl

end Lexeme
end RoutePlan

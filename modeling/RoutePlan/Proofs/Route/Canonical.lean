import Mathlib.Data.List.DropRight
import RoutePlan.Route.Canonical

/-!
What canonicalizing does to the front of a path. A path that begins with a slash still does so at
the end, unless an extension follows that slash at once.
-/
namespace RoutePlan

/-- An extension behind the first slash: a dot, and a word that ends the path or that a `?`
follows. -/
def OpensWithExtension (path : Text) : Prop :=
  ∃ word rest, path = '/' :: '.' :: (word ++ rest) ∧ word ≠ [] ∧
    (∀ c ∈ word, Text.isWordChar c) ∧ (rest = [] ∨ rest.head? = some '?')

def Rooted (path : Text) : Prop := path = [] ∨ path.head? = some '/'

def settled (strip : Bool) (path : Text) : Text := if strip then stripTrailingSlashes path else path

theorem rooted_congr {path other : Text} (same : path.head? = other.head?) :
    Rooted path ↔ Rooted other := by
  unfold Rooted
  rw [← List.head?_eq_none_iff, ← List.head?_eq_none_iff, same]

theorem isExtension_iff {text : Text} :
    isExtension text ↔ ∃ word rest, text = word ++ rest ∧ word ≠ [] ∧
      (∀ c ∈ word, Text.isWordChar c) ∧ (rest = [] ∨ rest.head? = some '?') := by
  constructor
  · intro extension
    unfold isExtension at extension
    obtain ⟨nonempty, stop⟩ := Bool.and_eq_true_iff.mp extension
    refine ⟨_, _, List.takeWhile_append_dropWhile.symm, by simpa using nonempty,
      (Text.wordRun_of_text text).isWord, ?_⟩
    cases rest : text.dropWhile Text.isWordChar with
    | nil => exact Or.inl rfl
    | cons c rest' =>
      rw [rest] at stop
      exact Or.inr (congrArg some (beq_iff_eq.mp stop))
  · rintro ⟨word, rest, rfl, nonempty, isWord, stop⟩
    have run : Text.WordRun word rest := by
      refine ⟨isWord, fun c first => ?_⟩
      rcases stop with rfl | question
      · cases first
      · cases first.symm.trans question
        decide
    unfold isExtension
    rw [run.takeWhile, run.dropWhile]
    rcases stop with rfl | question
    · simpa using nonempty
    · cases rest with
      | nil => cases question
      | cons c rest => cases question; simpa using nonempty

theorem extensionIndex?_eq_zero_iff {path : Text} :
    extensionIndex? path = some 0 ↔ OpensWithExtension path := by
  unfold extensionIndex?
  split
  · constructor
    · intro found
      cases found
    · rintro ⟨word, rest, nothing, -⟩
      cases nothing
  · rename_i rest
    constructor
    · intro found
      by_cases extension : isExtension rest
      · obtain ⟨word, more, rfl, shape⟩ := isExtension_iff.mp extension
        exact ⟨word, more, rfl, shape⟩
      · simp [extension] at found
    · rintro ⟨word, more, same, shape⟩
      cases same
      exact if_pos (isExtension_iff.mpr ⟨word, more, rfl, shape⟩)
  · rename_i c rest notExtension
    constructor
    · intro found
      simp at found
    · rintro ⟨word, more, same, -⟩
      cases same
      exact absurd rfl (notExtension _ rfl)

theorem head?_collapseExtension_of_opens {path : Text} (opens : OpensWithExtension path) :
    (collapseExtension path).head? = some '.' := by
  rw [collapseExtension, extensionIndex?_eq_zero_iff.mpr opens]
  obtain ⟨word, rest, rfl, -⟩ := opens
  rfl

theorem head?_collapseExtension_of_not_opens {path : Text} (closed : ¬ OpensWithExtension path) :
    (collapseExtension path).head? = path.head? := by
  unfold collapseExtension
  cases found : extensionIndex? path with
  | none => rfl
  | some index =>
    cases index with
    | zero => exact absurd (extensionIndex?_eq_zero_iff.mp found) closed
    | succ index => cases path <;> rfl

theorem head?_restoreDots (path : Text) : (restoreDots path).head? = path.head? := by
  cases path with
  | nil => rfl
  | cons c rest =>
    unfold restoreDots Text.replace Text.replaceAfter
    split
    · rename_i found
      obtain ⟨more, same⟩ := List.isPrefixOf_iff_prefix.mp found
      cases same
      rfl
    · rfl

theorem rooted_settled {path : Text} (rooted : Rooted path) (strip : Bool) :
    Rooted (settled strip path) := by
  unfold settled
  split
  · have front : path.rdropWhile (· == '/') <+: path := List.rdropWhile_prefix _ path
    have stripped : stripTrailingSlashes path =
        if (path.rdropWhile (· == '/')).isEmpty then ['/'] else path.rdropWhile (· == '/') := rfl
    rw [stripped]
    split
    · exact Or.inr rfl
    · rename_i nonempty
      obtain ⟨more, whole⟩ := front
      cases kept : path.rdropWhile (· == '/') with
      | nil => simp [kept] at nonempty
      | cons c rest =>
        rw [kept] at whole
        subst whole
        exact Or.inr (rooted.resolve_left (List.cons_ne_nil _ _))
  · exact rooted

theorem rooted_canonicalize_iff {path : Text} (rooted : Rooted path) (strip : Bool) :
    Rooted (canonicalize strip path) ↔ ¬ OpensWithExtension (settled strip path) := by
  have passes : canonicalize strip path =
      restoreDots (collapseExtension (settled strip path)) := rfl
  rw [passes, rooted_congr (head?_restoreDots _)]
  constructor
  · intro stays opens
    have dot := head?_collapseExtension_of_opens opens
    rcases stays with nothing | slash
    · rw [nothing] at dot
      cases dot
    · cases dot.symm.trans slash
  · intro closed
    rw [rooted_congr (head?_collapseExtension_of_not_opens closed)]
    exact rooted_settled rooted strip

end RoutePlan

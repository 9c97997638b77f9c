import RoutePlan.Template.Parse

/-!
The words of a text, told by what stands around them. A source is refused exactly if one of its
words is the reserved one, whether or not a colon stands before it.
-/
namespace RoutePlan

/-- Somewhere in the text the word stands, with no word character on either side of it. -/
def Text.HasRun (t word : Text) : Prop :=
  ∃ before after, t = before ++ (word ++ after) ∧
    (∀ c, before.getLast? = some c → ¬ isWordChar c) ∧ WordRun word after

namespace Text

theorem wordRuns_eq (t : Text) :
    t.wordRuns = t.takeWhile isWordChar :: t.wordRuns.tail := by
  have rest := (wordRun_of_text t).wordRuns
  rw [List.takeWhile_append_dropWhile] at rest
  rw [rest, List.tail_cons]

theorem mem_wordRuns (t run : Text) :
    run ∈ t.wordRuns ↔ run = t.takeWhile isWordChar ∨ run ∈ t.wordRuns.tail := by
  rw [← List.mem_cons, ← wordRuns_eq]

theorem tail_wordRuns_cons (c : Char) (t : Text) :
    (wordRuns (c :: t)).tail = if isWordChar c then t.wordRuns.tail else t.wordRuns := by
  split
  · rename_i isWord
    obtain ⟨run, later, runs, longer⟩ := wordRuns_of_isWordChar isWord t
    rw [longer, runs, List.tail_cons, List.tail_cons]
  · rename_i notWord
    rw [wordRuns_of_not_isWordChar notWord, List.tail_cons]

theorem head_run_iff (t word : Text) :
    word = t.takeWhile isWordChar ↔ ∃ after, t = word ++ after ∧ WordRun word after := by
  constructor
  · intro same
    subst same
    exact ⟨_, List.takeWhile_append_dropWhile.symm, wordRun_of_text t⟩
  · intro found
    obtain ⟨after, whole, run⟩ := found
    rw [whole, run.takeWhile]

theorem mem_tail_wordRuns (t word : Text) :
    word ∈ t.wordRuns.tail ↔
      ∃ before c after, t = before ++ c :: (word ++ after) ∧ ¬ isWordChar c ∧
        WordRun word after := by
  induction t with
  | nil => simp [wordRuns, splitWhere]
  | cons d t ih =>
    rw [tail_wordRuns_cons]
    by_cases isWord : isWordChar d
    · rw [if_pos isWord, ih]
      constructor
      · intro found
        obtain ⟨before, c, after, whole, stands⟩ := found
        exact ⟨d :: before, c, after, by rw [whole, List.cons_append], stands⟩
      · intro found
        obtain ⟨before, c, after, whole, notWord, run⟩ := found
        cases before with
        | nil =>
          obtain ⟨same, -⟩ := List.cons.inj whole
          exact absurd (same ▸ isWord) notWord
        | cons e before => exact ⟨before, c, after, (List.cons.inj whole).2, notWord, run⟩
    · rw [if_neg isWord, mem_wordRuns, head_run_iff, ih]
      constructor
      · intro found
        rcases found with ⟨after, whole, run⟩ | ⟨before, c, after, whole, found⟩
        · exact ⟨[], d, after, by rw [whole, List.nil_append], isWord, run⟩
        · exact ⟨d :: before, c, after, by rw [whole, List.cons_append], found⟩
      · intro found
        obtain ⟨before, c, after, whole, notWord, run⟩ := found
        cases before with
        | nil => exact Or.inl ⟨after, (List.cons.inj whole).2, run⟩
        | cons e before =>
          exact Or.inr ⟨before, c, after, (List.cons.inj whole).2, notWord, run⟩

theorem mem_wordRuns_iff (t word : Text) : word ∈ t.wordRuns ↔ t.HasRun word := by
  rw [mem_wordRuns, head_run_iff, mem_tail_wordRuns]
  constructor
  · intro found
    rcases found with ⟨after, whole, run⟩ | ⟨before, c, after, whole, notWord, run⟩
    · exact ⟨[], after, whole, by simp, run⟩
    · refine ⟨before ++ [c], after, by simp [whole], ?_, run⟩
      intro d last
      rw [List.getLast?_concat] at last
      cases last
      exact notWord
  · intro found
    obtain ⟨before, after, whole, noWord, run⟩ := found
    rcases List.eq_nil_or_concat before with empty | ⟨front, c, split⟩
    · subst empty
      exact Or.inl ⟨after, whole, run⟩
    · subst split
      refine Or.inr ⟨front, c, after, by simp [whole], noWord c (by simp), run⟩

end Text

/-- Refused for a reserved word of the source, and for no other reason. -/
structure RefusesReserved {α : Type _} (source : Text) (outcome : Except RouteError α) : Prop where
  fails : ∀ error, outcome = .error error ↔
    source.HasRun "hasOwnProperty".toList ∧
      error = .invalidParameterName "hasOwnProperty".toList
  succeeds : (∃ value, outcome = .ok value) ↔ ¬ source.HasRun "hasOwnProperty".toList

theorem refusesReserved_parse (source : Text) : RefusesReserved source (Template.parse source) := by
  have listed : source.wordRuns.contains Template.reservedName ↔
      source.HasRun "hasOwnProperty".toList := by
    rw [List.contains_iff_mem, Text.mem_wordRuns_iff]
    rfl
  unfold Template.parse
  split
  · rename_i reserved
    have run := listed.mp reserved
    constructor
    · intro error
      rw [Except.error.injEq]
      exact ⟨fun same => ⟨run, same.symm⟩, fun found => found.2.symm⟩
    · exact ⟨nofun, fun noRun => absurd run noRun⟩
  · rename_i accepted
    have noRun := mt listed.mpr accepted
    constructor
    · intro error
      exact ⟨nofun, fun found => absurd found.1 noRun⟩
    · exact ⟨fun _ => noRun, fun _ => ⟨_, rfl⟩⟩

theorem RefusesReserved.map {α β : Type _} {source : Text} {outcome : Except RouteError α}
    (refuses : RefusesReserved source outcome) (f : α → β) :
    RefusesReserved source (outcome.map f) := by
  obtain ⟨fails, succeeds⟩ := refuses
  constructor
  · intro error
    rw [← fails]
    cases outcome <;> simp [Except.map]
  · rw [← succeeds]
    cases outcome <;> simp [Except.map]

end RoutePlan

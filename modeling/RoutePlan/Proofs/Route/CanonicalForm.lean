import Mathlib.Order.Bounds.Basic
import Mathlib.Order.Lattice.Nat
import RoutePlan.Proofs.Route.Passes
import RoutePlan.Proofs.Text

/-!
The canonical form of a path, rule by rule: no slashes at the end, no slash before the first
extension, no backslash in an escaped dot. Each rule is a relation that says nothing of how its
result is found, and each leaves one result only.
-/
namespace RoutePlan

def extensionIndices (path : Text) : Set Nat := {i | OpensWithExtension (path.drop i)}

/-- All slashes at the end are gone; the root stands for a path that had nothing else. -/
def SlashesStripped (path result : Text) : Prop :=
  ∃ kept n, path = kept ++ List.replicate n '/' ∧ kept.getLast? ≠ some '/' ∧
    result = if kept = [] then ['/'] else kept

/-- The slash before the first extension is gone, and no other. -/
def ExtensionJoined (path result : Text) : Prop :=
  (∃ before after, path = before ++ '/' :: after ∧
      IsLeast (extensionIndices path) before.length ∧ result = before ++ after) ∨
    extensionIndices path = ∅ ∧ result = path

/-- Wherever the path holds an escaped dot behind a slash, and nowhere else, the backslash is
gone. -/
def DotsRestored (path result : Text) : Prop :=
  ∃ pieces : List Text, (∀ piece ∈ pieces, ¬ "/\\.".toList <:+: piece) ∧
    path = Text.join "/\\.".toList pieces ∧ result = Text.join "/.".toList pieces

def CanonicalForm (strip : Bool) (path result : Text) : Prop :=
  ∃ stripped joined, (if strip then SlashesStripped path stripped else stripped = path) ∧
    ExtensionJoined stripped joined ∧ DotsRestored joined result

/-! ### The search for an extension -/

def slashDot? (text : Text) : Option Nat := text.tails.findIdx? ['/', '.'].isPrefixOf

theorem slashDot?_cons (c : Char) (rest : Text) :
    slashDot? (c :: rest) =
      if ['/', '.'].isPrefixOf (c :: rest) then some 0 else (slashDot? rest).map (· + 1) := by
  unfold slashDot?
  rw [List.tails_cons, List.findIdx?_cons]

theorem slashDot?_lt {text : Text} {found : Nat} (first : slashDot? text = some found) :
    found < text.length := by
  induction text generalizing found with
  | nil => cases first
  | cons c rest ih =>
    rw [slashDot?_cons] at first
    split at first
    · cases first
      simp
    · obtain ⟨later, foundLater, rfl⟩ := Option.map_eq_some_iff.mp first
      have := ih foundLater
      simp only [List.length_cons]
      omega

/-- Looks for `/.` from `start` on. Where no extension follows, the search goes on one place behind
the slash. -/
def searchExtension? (path : Text) (start : Nat) : Option Nat :=
  match found : slashDot? (path.drop start) with
  | none => none
  | some skipped =>
    if isExtension (path.drop (start + skipped + 2)) then some (start + skipped)
    else searchExtension? path (start + skipped + 1)
termination_by path.length - start
decreasing_by
  have inside := slashDot?_lt found
  rw [List.length_drop] at inside
  omega

/-- Between the first `/.` and the next place at which an extension can begin there is nothing to
find. -/
theorem extensionIndex?_of_slashDot? (text : Text) :
    extensionIndex? text = match slashDot? text with
      | none => none
      | some found => if isExtension (text.drop (found + 2)) then some found
        else (extensionIndex? (text.drop (found + 1))).map (· + (found + 1)) := by
  induction text with
  | nil => rfl
  | cons c rest ih =>
    rw [slashDot?_cons]
    by_cases opens : ['/', '.'] <+: c :: rest
    · rw [if_pos (List.isPrefixOf_iff_prefix.mpr opens)]
      obtain ⟨extension, same⟩ := opens
      cases same
      rfl
    · have closed : ¬ OpensWithExtension (c :: rest) := by
        intro extension
        obtain ⟨word, more, whole, -⟩ := extension
        exact opens ⟨word ++ more, whole.symm⟩
      rw [if_neg (mt List.isPrefixOf_iff_prefix.mp opens), extensionIndex?_cons closed, ih]
      cases slashDot? rest with
      | none => rfl
      | some found =>
        have shifted : (c :: rest).drop (found + 1 + 2) = rest.drop (found + 2) := rfl
        dsimp only [Option.map_some]
        rw [shifted]
        split
        · rfl
        · exact Option.map_map _ _ _

theorem searchExtension?_eq (path : Text) (start : Nat) :
    searchExtension? path start = (extensionIndex? (path.drop start)).map (· + start) := by
  induction start using searchExtension?.induct path with
  | case1 start none =>
    rw [searchExtension?, extensionIndex?_of_slashDot?, none]
    rfl
  | case2 start skipped found extension =>
    rw [searchExtension?, extensionIndex?_of_slashDot?, found]
    dsimp only
    rw [List.drop_drop, ← Nat.add_assoc, if_pos extension, if_pos extension, Option.map_some,
      Nat.add_comm]
  | case3 start skipped found closed ih =>
    rw [searchExtension?, extensionIndex?_of_slashDot?, found]
    dsimp only
    rw [List.drop_drop, List.drop_drop, ← Nat.add_assoc, ← Nat.add_assoc, if_neg closed,
      if_neg closed, ih, Option.map_map]
    congr 1
    funext i
    simp only [Function.comp_apply]
    omega

theorem extensionIndex?_eq_some_iff {path : Text} {i : Nat} :
    extensionIndex? path = some i ↔ IsLeast (extensionIndices path) i := by
  induction path generalizing i with
  | nil =>
    constructor
    · nofun
    · intro least
      obtain ⟨word, rest, nothing, -⟩ := least.1
      cases List.drop_nil.symm.trans nothing
  | cons c rest ih =>
    by_cases opens : OpensWithExtension (c :: rest)
    · rw [extensionIndex?_eq_zero_iff.mpr opens, Option.some.injEq]
      have first : IsLeast (extensionIndices (c :: rest)) 0 := ⟨opens, fun _ _ => Nat.zero_le _⟩
      exact ⟨fun zero => zero ▸ first, first.unique⟩
    · rw [extensionIndex?_cons opens, Option.map_eq_some_iff]
      constructor
      · rintro ⟨j, found, rfl⟩
        obtain ⟨member, least⟩ := ih.mp found
        refine ⟨member, ?_⟩
        intro k other
        cases k with
        | zero => exact absurd other opens
        | succ k => exact Nat.succ_le_succ (least other)
      · intro first
        obtain ⟨member, least⟩ := first
        cases i with
        | zero => exact absurd member opens
        | succ i =>
          have leastLater : i ∈ lowerBounds (extensionIndices rest) := by
            intro k other
            have later : k + 1 ∈ extensionIndices (c :: rest) := other
            exact Nat.le_of_succ_le_succ (least later)
          exact ⟨i, ih.mpr ⟨member, leastLater⟩, rfl⟩

theorem extensionIndex?_eq_none_iff {path : Text} :
    extensionIndex? path = none ↔ extensionIndices path = ∅ := by
  constructor
  · intro none
    by_contra some
    obtain ⟨i, member⟩ := Set.nonempty_iff_ne_empty.mpr some
    have least : IsLeast (extensionIndices path) (sInf (extensionIndices path)) :=
      ⟨Nat.sInf_mem ⟨i, member⟩, fun _ other => Nat.sInf_le other⟩
    cases none.symm.trans (extensionIndex?_eq_some_iff.mpr least)
  · intro empty
    cases found : extensionIndex? path with
    | none => rfl
    | some i =>
      have member := (extensionIndex?_eq_some_iff.mp found).1
      rw [empty] at member
      cases member

/-! ### One result for each rule -/

theorem rdropWhile_slashes {kept : Text} (last : kept.getLast? ≠ some '/') (n : Nat) :
    (kept ++ List.replicate n '/').rdropWhile (· == '/') = kept := by
  have gone : (List.replicate n '/').rdropWhile (· == '/') = [] := by
    rw [List.rdropWhile_eq_nil_iff]
    intro c member
    rw [List.eq_of_mem_replicate member]
    rfl
  rw [rdropWhile_append_of_last last, gone, List.append_nil]

theorem exists_slashes (path : Text) :
    ∃ kept n, path = kept ++ List.replicate n '/' ∧ kept.getLast? ≠ some '/' := by
  induction path using List.reverseRecOn with
  | nil => exact ⟨[], 0, rfl, by simp⟩
  | append_singleton path c ih =>
    by_cases slash : c = '/'
    · obtain ⟨kept, n, rfl, last⟩ := ih
      refine ⟨kept, n + 1, ?_, last⟩
      rw [slash, List.append_assoc, List.replicate_succ']
    · exact ⟨path ++ [c], 0, by simp, by simpa using slash⟩

theorem slashesStripped_iff {path result : Text} :
    SlashesStripped path result ↔ result = stripTrailingSlashes path := by
  constructor
  · intro stripped
    obtain ⟨kept, n, rfl, last, rfl⟩ := stripped
    rw [stripTrailingSlashes_eq, rdropWhile_slashes last]
    simp
  · intro stripped
    obtain ⟨kept, n, rfl, last⟩ := exists_slashes path
    refine ⟨kept, n, rfl, last, ?_⟩
    rw [stripped, stripTrailingSlashes_eq, rdropWhile_slashes last]
    simp

theorem extensionJoined_iff {path result : Text} :
    ExtensionJoined path result ↔ result = collapseExtension path := by
  unfold ExtensionJoined collapseExtension
  cases found : extensionIndex? path with
  | none =>
    have empty := extensionIndex?_eq_none_iff.mp found
    constructor
    · rintro (⟨before, after, -, least, -⟩ | ⟨-, same⟩)
      · rw [empty] at least
        cases least.1
      · exact same
    · exact fun same => Or.inr ⟨empty, same⟩
  | some i =>
    have first := extensionIndex?_eq_some_iff.mp found
    constructor
    · rintro (⟨before, after, rfl, least, rfl⟩ | ⟨empty, -⟩)
      · obtain rfl := least.unique first
        dsimp only
        rw [List.eraseIdx_append_of_length_le (Nat.le_refl _), Nat.sub_self,
          List.eraseIdx_cons_zero]
      · rw [empty] at first
        cases first.1
    · intro same
      obtain ⟨word, rest, behind, -⟩ := first.1
      have inside : i < path.length := by
        have lengths := congrArg List.length behind
        rw [List.length_drop, List.length_cons] at lengths
        omega
      have after : path.drop (i + 1) = '.' :: (word ++ rest) := by
        rw [← List.tail_drop, behind, List.tail_cons]
      refine Or.inl ⟨path.take i, '.' :: (word ++ rest), ?_, ?_, ?_⟩
      · rw [← behind, List.take_append_drop]
      · rwa [List.length_take_of_le inside.le]
      · rw [same, ← after]
        exact List.eraseIdx_eq_take_drop_succ path i

theorem collapseExtension_cases (path : Text) :
    (∃ before after, path = before ++ '/' :: '.' :: after ∧
      collapseExtension path = before ++ '.' :: after) ∨ collapseExtension path = path := by
  rcases extensionJoined_iff.mpr (Eq.refl (collapseExtension path)) with
    ⟨before, after, rfl, least, joined⟩ | ⟨-, joined⟩
  · left
    obtain ⟨word, rest, behind, -⟩ := least.1
    rw [List.drop_left] at behind
    cases behind
    exact ⟨before, word ++ rest, rfl, joined⟩
  · exact Or.inr joined

/-! ### Escaped dots -/

theorem restoreDots_plain {piece : Text} (plain : ¬ "/\\.".toList <:+: piece) {rest : Text}
    (start : rest = [] ∨ rest.head? = some '/') :
    restoreDots (piece ++ rest) = piece ++ restoreDots rest := by
  induction piece with
  | nil => rfl
  | cons c piece ih =>
    have later : ¬ "/\\.".toList <:+: piece := fun inside => plain (List.infix_cons inside)
    have stays : ¬ "/\\.".toList <+: c :: (piece ++ rest) := by
      intro opens
      rcases List.prefix_or_prefix_of_prefix opens (List.prefix_append (c :: piece) rest) with
        inside | ⟨more, whole⟩
      · exact plain inside.isInfix
      · cases more with
        | nil =>
          rw [List.append_nil] at whole
          exact plain (whole ▸ List.infix_refl _)
        | cons d more =>
          rw [← whole] at opens
          obtain ⟨behind, rfl⟩ := (List.prefix_append_right_inj (c :: piece)).mp opens
          obtain rfl : d = '/' := by simpa using start
          have slash : '/' ∈ piece ++ '/' :: more := by simp
          have letters : piece ++ '/' :: more = ['\\', '.'] := (List.cons.inj whole).2
          rw [letters] at slash
          revert slash
          decide
    rw [List.cons_append, restoreDots_cons stays, ih later, List.cons_append]

theorem restoreDots_join {pieces : List Text}
    (plain : ∀ piece ∈ pieces, ¬ "/\\.".toList <:+: piece) :
    restoreDots (Text.join "/\\.".toList pieces) = Text.join "/.".toList pieces := by
  induction pieces with
  | nil => rfl
  | cons first more ih =>
    have plainFirst := plain first List.mem_cons_self
    have plainMore : ∀ piece ∈ more, ¬ "/\\.".toList <:+: piece :=
      fun piece member => plain piece (List.mem_cons_of_mem _ member)
    cases more with
    | nil =>
      have alone : restoreDots (first ++ []) = first ++ [] :=
        restoreDots_plain plainFirst (Or.inl rfl)
      simpa [Text.join] using alone
    | cons next more =>
      have escaped (text : Text) :
          restoreDots ("/\\.".toList ++ text) = "/.".toList ++ restoreDots text :=
        restoreDots_escaped text
      rw [Text.join_cons_cons, Text.join_cons_cons, restoreDots_plain plainFirst (Or.inr rfl),
        escaped, ih plainMore]

theorem exists_pieces (path : Text) :
    ∃ first more, (∀ piece ∈ first :: more, ¬ "/\\.".toList <:+: piece) ∧
      path = Text.join "/\\.".toList (first :: more) := by
  induction path using restoreDots_induction with
  | nil => exact ⟨[], [], by simp, rfl⟩
  | escaped rest ih =>
    obtain ⟨first, more, plain, rfl⟩ := ih
    refine ⟨[], first :: more, ?_, ?_⟩
    · intro piece member
      rcases List.mem_cons.mp member with rfl | member
      · simp
      · exact plain piece member
    · rw [Text.join_cons_cons]
      rfl
  | cons c rest stays ih =>
    obtain ⟨first, more, plain, rfl⟩ := ih
    have front : first <+: Text.join "/\\.".toList (first :: more) := by
      cases more with
      | nil => simp [Text.join]
      | cons next more => exact Text.join_cons_cons _ first next more ▸ List.prefix_append _ _
    refine ⟨c :: first, more, ?_, ?_⟩
    · intro piece member
      rcases List.mem_cons.mp member with rfl | member
      · intro inside
        rcases List.infix_cons_iff.mp inside with opens | later
        · exact stays (opens.trans (List.prefix_cons_inj c |>.mpr front))
        · exact plain first List.mem_cons_self later
      · exact plain piece (List.mem_cons_of_mem _ member)
    · cases more with
      | nil => simp [Text.join]
      | cons next more => rw [Text.join_cons_cons, Text.join_cons_cons, List.cons_append]

theorem dotsRestored_iff {path result : Text} :
    DotsRestored path result ↔ result = restoreDots path := by
  constructor
  · intro restored
    obtain ⟨pieces, plain, rfl, rfl⟩ := restored
    exact (restoreDots_join plain).symm
  · intro restored
    obtain ⟨first, more, plain, rfl⟩ := exists_pieces path
    exact ⟨first :: more, plain, rfl, restored.trans (restoreDots_join plain)⟩

/-! ### The three rules -/

/-- Canonicalizing gives the one result of the three rules. The first extension is found where there
is one, also by the search that starts anew behind each `/.` that none follows. -/
theorem canonicalForm_iff (strip : Bool) (path : Text) :
    (∀ result, CanonicalForm strip path result ↔ result = canonicalize strip path) ∧
    (∀ i, extensionIndex? path = some i ↔ IsLeast (extensionIndices path) i) ∧
    (extensionIndex? path = none ↔ extensionIndices path = ∅) ∧
    searchExtension? path 0 = extensionIndex? path := by
  refine ⟨?_, fun i => extensionIndex?_eq_some_iff, extensionIndex?_eq_none_iff, ?_⟩
  · intro result
    unfold CanonicalForm
    simp only [slashesStripped_iff, extensionJoined_iff, dotsRestored_iff]
    cases strip <;> simp [canonicalize]
  · rw [searchExtension?_eq, List.drop_zero]
    exact Option.map_id'

example : extensionIndex? "/./.x".toList = some 2 := by decide

end RoutePlan

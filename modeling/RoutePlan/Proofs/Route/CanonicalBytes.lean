import RoutePlan.Proofs.Route.CanonicalForm
import RoutePlan.Proofs.Text.Bytes

/-!
Canonicalizing by byte position. The search for an extension looks at the path from one position
after the other, and the slash that goes is taken out at the position found. No cut misses a
boundary, and the result is that of canonicalizing character by character.
-/
namespace RoutePlan

/-! ### The search -/

def slashDotPosition? : Text → Option Nat
  | [] => none
  | c :: rest =>
    if ['/', '.'].isPrefixOf (c :: rest) then some 0
    else (slashDotPosition? rest).map (· + c.utf8Size)

def extensionAt? (path : Text) (position : Nat) : Option Bool := do
  let rest ← path.from? (position + 2)
  let length := rest.lengthUntil fun c => !Text.isWordChar c
  if 0 < length then (rest.from? length).map fun after => after.head?.all (· == '?')
  else some false

inductive Search where
  | absent
  | found (position : Nat)
  | further (position : Nat)

def searchRound? (path : Text) (start : Nat) : Option Search := do
  match slashDotPosition? (← path.from? start) with
  | none => return .absent
  | some skipped =>
    if ← extensionAt? path (start + skipped) then return .found (start + skipped)
    else return .further (start + skipped + 1)

theorem slashDotPosition?_eq (t : Text) :
    slashDotPosition? t = (slashDot? t).map t.byteOffset := by
  induction t with
  | nil => rfl
  | cons c rest ih =>
    rw [slashDotPosition?, slashDot?_cons, ih]
    split
    · rfl
    · rw [Option.map_map, Option.map_map]
      congr 1
      funext i
      exact (Nat.add_comm _ _).trans (Text.byteLength_cons c (rest.take i)).symm

theorem slashDot?_found {t : Text} {i : Nat} (found : slashDot? t = some i) :
    t = t.take i ++ '/' :: '.' :: t.drop (i + 2) := by
  induction t generalizing i with
  | nil => cases found
  | cons c rest ih =>
    rw [slashDot?_cons] at found
    split at found
    · rename_i opens
      cases found
      obtain ⟨after, same⟩ := List.isPrefixOf_iff_prefix.mp opens
      cases same
      rfl
    · obtain ⟨j, later, rfl⟩ := Option.map_eq_some_iff.mp found
      exact congrArg (c :: ·) (ih later)

theorem searchRound?_further {path : Text} {start next : Nat}
    (searched : searchRound? path start = some (.further next)) :
    start < path.byteLength ∧ start < next := by
  obtain ⟨rest, cut, searched⟩ := Option.bind_eq_some_iff.mp searched
  obtain ⟨front, rfl, rfl⟩ := Text.split_of_from? cut
  rw [slashDotPosition?_eq] at searched
  cases found : slashDot? rest with
  | none => simp [found] at searched
  | some i =>
    have nonempty : rest ≠ [] := by
      rintro rfl
      cases found
    have positive := Text.byteLength_pos nonempty
    refine ⟨by rw [Text.byteLength_append]; omega, ?_⟩
    rw [found] at searched
    obtain ⟨extension, -, searched⟩ := Option.bind_eq_some_iff.mp searched
    cases extension with
    | true => cases searched
    | false => cases searched; omega

def searchAt? (path : Text) (start : Nat) : Option (Option Nat) :=
  match _ : searchRound? path start with
  | none => none
  | some .absent => some none
  | some (.found position) => some (some position)
  | some (.further next) => searchAt? path next
termination_by path.byteLength - start
decreasing_by
  have advances := searchRound?_further ‹_›
  omega

theorem extensionAt?_eq (before rest : Text) :
    extensionAt? (before ++ '/' :: '.' :: rest) before.byteLength = some (isExtension rest) := by
  have behind : before.byteLength + 2 = (before ++ ['/', '.']).byteLength := by
    rw [Text.byteLength_append]
    rfl
  have whole : before ++ '/' :: '.' :: rest = (before ++ ['/', '.']) ++ rest := by simp
  obtain ⟨word, after, rfl, run⟩ : ∃ word after, rest = word ++ after ∧ Text.WordRun word after :=
    ⟨_, _, List.takeWhile_append_dropWhile.symm, Text.wordRun_of_text rest⟩
  rw [extensionAt?, behind, whole, Text.from?_append, isExtension, run.takeWhile, run.dropWhile]
  simp only [Option.bind_eq_bind, Option.bind_some, run.lengthUntil, Text.from?_append]
  cases word with
  | nil => rfl
  | cons c word =>
    rw [if_pos (Text.byteLength_pos (List.cons_ne_nil c word))]
    cases after <;> rfl

theorem slashDot?_ahead {path : Text} {start skipped : Nat}
    (found : slashDot? (path.drop start) = some skipped) :
    path = path.take (start + skipped) ++ '/' :: '.' :: path.drop (start + skipped + 2) := by
  have ahead := slashDot?_found found
  rw [List.drop_drop, ← Nat.add_assoc] at ahead
  rw [List.take_add, List.append_assoc, ← ahead, List.take_append_drop]

theorem searchRound?_eq (path : Text) (start : Nat) :
    searchRound? path (path.byteOffset start) =
      some (match slashDot? (path.drop start) with
        | none => .absent
        | some skipped =>
          if isExtension (path.drop (start + skipped + 2)) then
            .found (path.byteOffset (start + skipped))
          else .further (path.byteOffset (start + skipped + 1))) := by
  rw [searchRound?, Text.from?_byteOffset, Option.bind_eq_bind, Option.bind_some,
    slashDotPosition?_eq]
  cases found : slashDot? (path.drop start) with
  | none => rfl
  | some skipped =>
    have ahead := slashDot?_ahead found
    have extension :=
      extensionAt?_eq (path.take (start + skipped)) (path.drop (start + skipped + 2))
    rw [← ahead] at extension
    have whole := (List.take_append_drop (start + skipped) path).trans ahead
    have behind := List.append_cancel_left whole
    have next : path.byteOffset (start + skipped + 1) = path.byteOffset (start + skipped) + 1 := by
      rw [Text.byteOffset_add, behind]
      rfl
    rw [Option.map_some]
    dsimp only
    rw [← Text.byteOffset_add, next, Text.byteOffset, extension]
    cases isExtension (path.drop (start + skipped + 2)) <;> rfl

theorem searchAt?_absent {path : Text} {start : Nat}
    (searched : searchRound? path start = some .absent) : searchAt? path start = some none := by
  rw [searchAt?]
  split <;> simp_all

theorem searchAt?_found {path : Text} {start position : Nat}
    (searched : searchRound? path start = some (.found position)) :
    searchAt? path start = some (some position) := by
  rw [searchAt?]
  split <;> simp_all

theorem searchAt?_further {path : Text} {start next : Nat}
    (searched : searchRound? path start = some (.further next)) :
    searchAt? path start = searchAt? path next := by
  rw [searchAt?]
  split <;> simp_all

theorem searchAt?_eq (path : Text) (start : Nat) :
    searchAt? path (path.byteOffset start) =
      some ((searchExtension? path start).map path.byteOffset) := by
  induction start using searchExtension?.induct path with
  | case1 start absent =>
    have round := searchRound?_eq path start
    rw [absent] at round
    rw [searchExtension?, absent, searchAt?_absent round]
    rfl
  | case2 start skipped found extension =>
    have round := searchRound?_eq path start
    rw [found] at round
    dsimp only at round
    rw [if_pos extension] at round
    rw [searchExtension?, found, searchAt?_found round]
    dsimp only
    rw [if_pos extension]
    rfl
  | case3 start skipped found closed ih =>
    have round := searchRound?_eq path start
    rw [found] at round
    dsimp only at round
    rw [if_neg closed] at round
    rw [searchExtension?, found, searchAt?_further round]
    dsimp only
    rw [if_neg closed, ih]

/-! ### The passes -/

def truncate? (t : Text) (length : Nat) : Option Text :=
  if length ≤ t.byteLength then t.upTo? length else some t

def removeAt? (t : Text) (position : Nat) : Option Text :=
  match Text.splitAt? position t with
  | some (before, _ :: after) => some (before ++ after)
  | _ => none

def stripTrailingSlashes? (path : Text) : Option Text := do
  let kept ← truncate? path (Text.byteLength (path.rdropWhile (· == '/')))
  return if kept.isEmpty then ['/'] else kept

def collapseExtension? (path : Text) : Option Text := do
  match ← searchAt? path 0 with
  | none => return path
  | some position => removeAt? path position

def canonicalize? (strip : Bool) (path : Text) : Option Text :=
  (if strip then stripTrailingSlashes? path else some path).bind fun stripped =>
    (collapseExtension? stripped).map restoreDots

theorem removeAt?_append (before after : Text) (c : Char) :
    removeAt? (before ++ c :: after) before.byteLength = some (before ++ after) := by
  rw [removeAt?, Text.splitAt?_append]

theorem stripTrailingSlashes?_eq (path : Text) :
    stripTrailingSlashes? path = some (stripTrailingSlashes path) := by
  have front : path.rdropWhile (· == '/') <+: path := List.rdropWhile_prefix _ path
  have shorter := Text.byteLength_le_of_front front
  obtain ⟨slashes, whole⟩ := front
  have cut := Text.upTo?_append (path.rdropWhile (· == '/')) slashes
  rw [whole] at cut
  rw [stripTrailingSlashes?, truncate?, if_pos shorter, cut, stripTrailingSlashes_eq]
  rfl

theorem searchAt?_zero (path : Text) :
    searchAt? path 0 = some ((extensionIndex? path).map path.byteOffset) := by
  have fromStart := searchExtension?_eq path 0
  rw [List.drop_zero, funext Nat.add_zero, Option.map_id'] at fromStart
  rw [← fromStart]
  exact searchAt?_eq path 0

theorem slash_of_extensionIndex? {path : Text} {i : Nat} (found : extensionIndex? path = some i) :
    ∃ before after, path = before ++ '/' :: after ∧ before.byteLength = path.byteOffset i ∧
      collapseExtension path = before ++ after := by
  have first := extensionIndex?_eq_some_iff.mp found
  rcases extensionJoined_iff.mpr (Eq.refl (collapseExtension path)) with
    ⟨before, after, rfl, least, joined⟩ | ⟨empty, -⟩
  · obtain rfl := least.unique first
    exact ⟨before, after, rfl, by rw [Text.byteOffset, List.take_left], joined⟩
  · rw [empty] at first
    cases first.1

theorem boundary_of_searchAt? {path : Text} {position : Nat}
    (searched : searchAt? path 0 = some (some position)) :
    path.IsBoundary position ∧ position < path.byteLength := by
  rw [searchAt?_zero] at searched
  obtain ⟨i, found, rfl⟩ := Option.map_eq_some_iff.mp (Option.some.inj searched)
  obtain ⟨before, after, rfl, stands, -⟩ := slash_of_extensionIndex? found
  have positive := Text.byteLength_pos (List.cons_ne_nil '/' after)
  rw [← stands, Text.byteLength_append]
  exact ⟨Text.isBoundary_append before _, by omega⟩

theorem collapseExtension?_eq (path : Text) :
    collapseExtension? path = some (collapseExtension path) := by
  rw [collapseExtension?, searchAt?_zero]
  cases found : extensionIndex? path with
  | none =>
    rw [collapseExtension, found]
    rfl
  | some i =>
    obtain ⟨before, after, whole, stands, joined⟩ := slash_of_extensionIndex? found
    have removed := removeAt?_append before after '/'
    rw [← whole, stands, ← joined] at removed
    exact removed

/-- Canonicalizing cuts at boundaries only. -/
theorem canonicalize?_eq (strip : Bool) (path : Text) :
    canonicalize? strip path = some (canonicalize strip path) := by
  have stripped : (if strip then stripTrailingSlashes? path else some path) =
      some (if strip then stripTrailingSlashes path else path) := by
    cases strip with
    | true => exact stripTrailingSlashes?_eq path
    | false => rfl
  rw [canonicalize?, stripped, Option.bind_some, collapseExtension?_eq]
  rfl

end RoutePlan

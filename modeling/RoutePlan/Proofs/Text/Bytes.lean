import Mathlib.Data.List.TakeWhile
import RoutePlan.Text

/-!
Texts by byte position. A position counts bytes of the UTF-8 encoding, and a text is cut only at a
boundary, which is neither past the end nor inside a character. Cutting anywhere else gives nothing,
so that a program whose cuts all give something never leaves its texts.
-/
namespace RoutePlan.Text

def byteLength (t : Text) : Nat := (String.ofList t).utf8ByteSize

def IsBoundary (t : Text) (position : Nat) : Prop :=
  String.Pos.Raw.IsValid (String.ofList t) ⟨position⟩

@[simp] theorem byteLength_nil : byteLength [] = 0 := rfl

@[simp] theorem byteLength_append (front back : Text) :
    byteLength (front ++ back) = byteLength front + byteLength back := by
  rw [byteLength, String.ofList_append, String.utf8ByteSize_append]
  rfl

@[simp] theorem byteLength_singleton (c : Char) : byteLength [c] = c.utf8Size := by
  rw [byteLength, ← String.singleton_eq_ofList, String.utf8ByteSize_singleton]

@[simp] theorem byteLength_cons (c : Char) (rest : Text) :
    byteLength (c :: rest) = c.utf8Size + byteLength rest := by
  rw [← List.singleton_append, byteLength_append, byteLength_singleton]

theorem byteLength_pos {t : Text} (nonempty : t ≠ []) : 0 < byteLength t := by
  obtain ⟨c, rest, rfl⟩ := List.exists_cons_of_ne_nil nonempty
  rw [byteLength_cons]
  exact Nat.add_pos_left c.utf8Size_pos _

theorem byteLength_le_of_front {front t : Text} (isFront : front <+: t) :
    byteLength front ≤ byteLength t := by
  obtain ⟨back, rfl⟩ := isFront
  rw [byteLength_append]
  exact Nat.le_add_right _ _

theorem byteLength_lt_iff {front other t : Text} (isFront : front <+: t) (isOther : other <+: t) :
    byteLength front < byteLength other ↔ front.length < other.length := by
  constructor
  · intro fewer
    by_contra longer
    have inside : other <+: front :=
      List.prefix_of_prefix_length_le isOther isFront (Nat.le_of_not_lt longer)
    exact absurd (byteLength_le_of_front inside) (Nat.not_le.mpr fewer)
  · intro shorter
    obtain ⟨back, rfl⟩ := List.prefix_of_prefix_length_le isFront isOther shorter.le
    have nonempty : back ≠ [] := by
      rintro rfl
      simp at shorter
    rw [byteLength_append]
    exact Nat.lt_add_of_pos_right (byteLength_pos nonempty)

theorem isBoundary_iff {t : Text} {position : Nat} :
    IsBoundary t position ↔ ∃ front back, t = front ++ back ∧ byteLength front = position := by
  rw [IsBoundary, String.Pos.Raw.isValid_ofList]
  constructor
  · intro found
    obtain ⟨n, same⟩ := found
    exact ⟨t.take n, t.drop n, (List.take_append_drop n t).symm, same.symm⟩
  · intro split
    obtain ⟨front, back, rfl, rfl⟩ := split
    exact ⟨front.length, by rw [List.take_left]; rfl⟩

theorem isBoundary_append (front back : Text) : IsBoundary (front ++ back) (byteLength front) :=
  isBoundary_iff.mpr ⟨front, back, rfl, rfl⟩

/-! ### Cutting -/

def splitAt? : Nat → Text → Option (Text × Text)
  | 0, t => some ([], t)
  | _ + 1, [] => none
  | n + 1, c :: rest =>
    if c.utf8Size ≤ n + 1 then
      (splitAt? (n + 1 - c.utf8Size) rest).map fun (front, back) => (c :: front, back)
    else none

def upTo? (t : Text) (position : Nat) : Option Text := (splitAt? position t).map (·.1)

def from? (t : Text) (position : Nat) : Option Text := (splitAt? position t).map (·.2)

theorem splitAt?_append (front back : Text) :
    splitAt? (byteLength front) (front ++ back) = some (front, back) := by
  induction front with
  | nil => simp [splitAt?]
  | cons c front ih =>
    have positive := c.utf8Size_pos
    obtain ⟨n, size⟩ : ∃ n, byteLength (c :: front) = n + 1 :=
      ⟨byteLength (c :: front) - 1, by rw [byteLength_cons]; omega⟩
    have later : n + 1 - c.utf8Size = byteLength front := by
      rw [← size, byteLength_cons, Nat.add_sub_cancel_left]
    rw [byteLength_cons] at size
    rw [byteLength_cons, size, List.cons_append, splitAt?, if_pos (by omega), later, ih]
    rfl

theorem split_of_splitAt? {t front back : Text} {position : Nat}
    (found : splitAt? position t = some (front, back)) :
    t = front ++ back ∧ byteLength front = position := by
  induction t generalizing position front with
  | nil =>
    cases position with
    | zero => cases found; exact ⟨rfl, rfl⟩
    | succ n => cases found
  | cons c rest ih =>
    cases position with
    | zero => cases found; exact ⟨rfl, rfl⟩
    | succ n =>
      rw [splitAt?] at found
      split at found
      · obtain ⟨⟨more, after⟩, later, same⟩ := Option.map_eq_some_iff.mp found
        cases same
        obtain ⟨rfl, size⟩ := ih later
        refine ⟨rfl, ?_⟩
        rw [byteLength_cons, size]
        omega
      · cases found

theorem isSome_splitAt?_iff {t : Text} {position : Nat} :
    (splitAt? position t).isSome ↔ IsBoundary t position := by
  rw [isBoundary_iff]
  constructor
  · intro found
    obtain ⟨⟨front, back⟩, split⟩ := Option.isSome_iff_exists.mp found
    exact ⟨front, back, split_of_splitAt? split⟩
  · intro boundary
    obtain ⟨front, back, rfl, rfl⟩ := boundary
    rw [splitAt?_append]
    rfl

theorem upTo?_append (front back : Text) :
    upTo? (front ++ back) (byteLength front) = some front := by
  rw [upTo?, splitAt?_append]
  rfl

theorem from?_append (front back : Text) :
    from? (front ++ back) (byteLength front) = some back := by
  rw [from?, splitAt?_append]
  rfl

theorem split_of_from? {t back : Text} {position : Nat} (found : from? t position = some back) :
    ∃ front, t = front ++ back ∧ byteLength front = position := by
  obtain ⟨⟨front, after⟩, split, same⟩ := Option.map_eq_some_iff.mp found
  cases same
  exact ⟨front, split_of_splitAt? split⟩

def byteOffset (t : Text) (i : Nat) : Nat := byteLength (t.take i)

theorem isBoundary_byteOffset (t : Text) (i : Nat) : IsBoundary t (byteOffset t i) := by
  have boundary := isBoundary_append (t.take i) (t.drop i)
  rwa [List.take_append_drop] at boundary

theorem from?_byteOffset (t : Text) (i : Nat) : from? t (byteOffset t i) = some (t.drop i) := by
  have cut := from?_append (t.take i) (t.drop i)
  rwa [List.take_append_drop] at cut

theorem IsBoundary.le {t : Text} {position : Nat} (boundary : IsBoundary t position) :
    position ≤ byteLength t := by
  obtain ⟨front, back, rfl, rfl⟩ := isBoundary_iff.mp boundary
  exact byteLength_le_of_front (List.prefix_append front back)

theorem byteOffset_add (t : Text) (m n : Nat) :
    byteOffset t (m + n) = byteOffset t m + byteOffset (t.drop m) n := by
  rw [byteOffset, List.take_add, byteLength_append]
  rfl

theorem byteLength_sub {other front stretch back : Text}
    (isFront : other <+: front ++ (stretch ++ back))
    (ends : other.length ≤ front.length + stretch.length) :
    byteLength other - byteLength front = byteOffset stretch (other.length - front.length) := by
  rcases Nat.le_total other.length front.length with short | long
  · have before : other <+: front :=
      List.prefix_of_prefix_length_le isFront (List.prefix_append _ _) short
    rw [Nat.sub_eq_zero_of_le (byteLength_le_of_front before), Nat.sub_eq_zero_of_le short]
    rfl
  · obtain ⟨more, rfl⟩ := List.prefix_of_prefix_length_le (List.prefix_append _ _) isFront long
    rw [List.length_append] at ends
    have inside : more <+: stretch :=
      List.prefix_of_prefix_length_le ((List.prefix_append_right_inj front).mp isFront)
        (List.prefix_append _ _) (by omega)
    rw [byteLength_append, List.length_append, Nat.add_sub_cancel_left, Nat.add_sub_cancel_left,
      byteOffset, ← List.prefix_iff_eq_take.mp inside]

/-! ### Searching -/

def positionOf? (p : Char → Bool) : Text → Option Nat
  | [] => none
  | c :: rest => if p c then some 0 else (positionOf? p rest).map (· + c.utf8Size)

def lengthUntil (p : Char → Bool) (t : Text) : Nat := (positionOf? p t).getD (byteLength t)

theorem lengthUntil_eq (p : Char → Bool) (t : Text) :
    lengthUntil p t = byteLength (t.takeWhile fun c => !p c) := by
  unfold lengthUntil
  induction t with
  | nil => rfl
  | cons c rest ih =>
    rw [positionOf?, List.takeWhile_cons]
    cases p c with
    | true => rfl
    | false =>
      rw [if_neg Bool.false_ne_true, Bool.not_false, if_pos rfl, byteLength_cons, byteLength_cons,
        ← ih]
      cases positionOf? p rest with
      | none => rfl
      | some found => exact Nat.add_comm found c.utf8Size

theorem WordRun.lengthUntil {word rest : Text} (run : WordRun word rest) :
    lengthUntil (fun c => !isWordChar c) (word ++ rest) = byteLength word := by
  simp only [lengthUntil_eq, Bool.not_not]
  rw [run.takeWhile]

end RoutePlan.Text

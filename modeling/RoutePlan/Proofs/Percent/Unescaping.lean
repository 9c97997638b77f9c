import RoutePlan.Proofs.Percent

/-!
Wider encoders as narrower ones with some escapes taken back. A query value is an encoded component
in which the escapes of four marks are replaced by the marks, and a path segment a query value in
which those of four more are. The order does not matter, for no replacement makes or breaks another
escape.
-/
namespace RoutePlan.Percent

def queryMarks : List (Text × Char) :=
  [("%40".toList, '@'), ("%3A".toList, ':'), ("%24".toList, '$'), ("%2C".toList, ',')]

def pathMarks : List (Text × Char) :=
  [("%26".toList, '&'), ("%3D".toList, '='), ("%2B".toList, '+'), ("%2F".toList, '/')]

/-- Takes the marks one after the other, and puts each wherever its escape stands. -/
def unescapeMarks (marks : List (Text × Char)) (t : Text) : Text :=
  marks.foldl (fun t (escape, mark) => Text.replace escape [mark] t) t

def EscapesMark (escape : Text) (mark : Char) : Prop :=
  mark.toNat < 128 ∧ mark ≠ '%' ∧ escape = escapeByte (UInt8.ofNat mark.toNat)

instance (escape : Text) (mark : Char) : Decidable (EscapesMark escape mark) :=
  inferInstanceAs (Decidable (_ ∧ _))

variable {isKept : Char → Bool} {literal : Text}

theorem Keeps.also (keeps : Keeps isKept literal) {mark : Char} (ascii : mark.toNat < 128)
    (notPercent : mark ≠ '%') : Keeps (fun c => isKept c || c == mark) (mark :: literal) where
  member_iff c := by
    rw [Bool.or_eq_true, keeps.member_iff, beq_iff_eq, List.mem_cons, or_comm]
  ascii := List.forall_mem_cons.mpr ⟨ascii, keeps.ascii⟩
  notPercent member := by
    rcases List.mem_cons.mp member with same | inside
    · exact notPercent same.symm
    · exact keeps.notPercent inside

theorem encodeByte_also (keeps : Keeps isKept literal) {mark : Char} (ascii : mark.toNat < 128)
    (byte : UInt8) :
    encodeByte (fun c => isKept c || c == mark) byte =
      if encodeByte isKept byte = escapeByte (UInt8.ofNat mark.toNat) then [mark]
      else encodeByte isKept byte := by
  by_cases spelled : byte = UInt8.ofNat mark.toNat
  · have code : byte.toNat = mark.toNat := by
      rw [spelled, UInt8.toNat_ofNat']
      omega
    rw [← spelled]
    simp only [encodeByte, code, Char.ofNat_toNat, ascii, beq_self_eq_true, Bool.or_true, true_and,
      if_true]
    split <;> split <;> simp_all
  · have otherByte : encodeByte isKept byte ≠ escapeByte (UInt8.ofNat mark.toNat) :=
      fun same => spelled (eq_of_encodeByte_eq_escapeByte keeps same)
    have otherChar (small : byte.toNat < 128) : Char.ofNat byte.toNat ≠ mark := by
      intro same
      apply spelled
      rw [← same, toNat_ofNat_ascii small, UInt8.ofNat_toNat]
    rw [if_neg otherByte, encodeByte, encodeByte]
    by_cases small : byte.toNat < 128
    · simp [small, otherChar small]
    · simp [small]

theorem replace_mark (keeps : Keeps isKept literal) {escape : Text} {mark : Char}
    (escapes : EscapesMark escape mark) (t : Text) :
    Text.replace escape [mark] (encode isKept t) = encode (fun c => isKept c || c == mark) t := by
  obtain ⟨ascii, notPercent, spelled⟩ := escapes
  rw [encode_eq_bytes keeps, encode_eq_bytes (keeps.also ascii notPercent), spelled,
    replace_escapes keeps]
  exact List.flatMap_congr fun byte _ => (encodeByte_also keeps ascii byte).symm

theorem unescapeMarks_encode (keeps : Keeps isKept literal) {marks : List (Text × Char)}
    (escapes : ∀ pair ∈ marks, EscapesMark pair.1 pair.2) (t : Text) :
    unescapeMarks marks (encode isKept t) =
      encode (fun c => isKept c || (marks.map Prod.snd).contains c) t := by
  induction marks generalizing isKept literal with
  | nil => simp [unescapeMarks]
  | cons pair more ih =>
    obtain ⟨escape, mark⟩ := pair
    have first : EscapesMark escape mark := escapes _ List.mem_cons_self
    have later := ih (keeps.also first.1 first.2.1) fun pair member =>
      escapes pair (List.mem_cons_of_mem _ member)
    have taken : unescapeMarks ((escape, mark) :: more) (encode isKept t) =
        unescapeMarks more (Text.replace escape [mark] (encode isKept t)) := rfl
    rw [taken, replace_mark keeps first, later]
    simp only [List.map_cons, List.contains_cons, Bool.or_assoc]

theorem unescapeMarks_of_perm (keeps : Keeps isKept literal) {wider : Char → Bool}
    {marks order : List (Text × Char)} (escapes : ∀ pair ∈ marks, EscapesMark pair.1 pair.2)
    (adds : ∀ c, wider c = (isKept c || (marks.map Prod.snd).contains c)) (perm : order.Perm marks)
    (t : Text) : unescapeMarks order (encode isKept t) = encode wider t := by
  have escapesOrder : ∀ pair ∈ order, EscapesMark pair.1 pair.2 :=
    fun pair member => escapes pair (perm.mem_iff.mp member)
  have sameMarks (c : Char) :
      (order.map Prod.snd).contains c = (marks.map Prod.snd).contains c := by
    rw [Bool.eq_iff_iff, List.contains_iff_mem, List.contains_iff_mem, (perm.map _).mem_iff]
  have sameClass : (fun c => isKept c || (order.map Prod.snd).contains c) = wider := by
    funext c
    rw [sameMarks, adds]
  rw [unescapeMarks_encode keeps escapesOrder, sameClass]

/-- Every encoder is the narrower one before it with the marks between them put where their escapes
stand, in any order. The plus form is the query form written byte by byte, but for the bytes of
spaces, which alone are written as the escape of a space there. -/
theorem encoders_unescape_marks (t : Text) :
    (∀ order, order.Perm queryMarks →
      unescapeMarks order (encodeComponent t) = encodeQuery t) ∧
    (∀ order, order.Perm pathMarks → unescapeMarks order (encodeQuery t) = encodePath t) ∧
    encodeQuery t = (utf8 t).flatMap (encodeByte isQueryChar) ∧
    encodeQueryPlus t = (utf8 t).flatMap
      (fun byte => if byte = 32 then ['+'] else encodeByte isQueryChar byte) ∧
    ∀ byte, encodeByte isQueryChar byte = "%20".toList ↔ byte = 32 := by
  refine ⟨?_, ?_, encode_eq_bytes keeps_query t, encodeQueryPlus_eq_bytes t,
    encodeByte_eq_space_iff⟩
  · intro order perm
    exact unescapeMarks_of_perm keeps_component (by decide) (fun c => rfl) perm t
  · intro order perm
    exact unescapeMarks_of_perm keeps_query (by decide) (fun c => rfl) perm t

theorem encoders_unescape_marks_of_percent :
    unescapeMarks queryMarks.reverse (encodeComponent "%40 @+é".toList) =
        "%2540%20@%2B%C3%A9".toList ∧
      unescapeMarks pathMarks.reverse "%2540%20@%2B%C3%A9".toList =
        "%2540%20@+%C3%A9".toList := by
  obtain ⟨query, path, -⟩ := encoders_unescape_marks "%40 @+é".toList
  have written : encodeQuery "%40 @+é".toList = "%2540%20@%2B%C3%A9".toList := by decide +kernel
  have queryUnescaped := query queryMarks.reverse (List.reverse_perm _)
  have pathUnescaped := path pathMarks.reverse (List.reverse_perm _)
  rw [written] at queryUnescaped pathUnescaped
  refine ⟨queryUnescaped, pathUnescaped.trans ?_⟩
  decide +kernel

end RoutePlan.Percent

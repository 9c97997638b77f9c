import Mathlib.Data.List.Infix
import RoutePlan.Percent

/-!
Percent-coding read back. Every encoder works byte by byte: a byte stands for itself if its class
keeps it, and is an escape otherwise. An escape is the only place where a percent sign can stand, so
that reading the escapes gives the bytes again, and the space is the one byte that the plus form
writes in another way.
-/
namespace RoutePlan.Percent

def componentClass : Text :=
  "ABCDEFGHIJKLMNOPQRSTUVWXYZabcdefghijklmnopqrstuvwxyz0123456789-_.!~*'()".toList

def queryClass : Text := componentClass ++ "@:$,".toList

def pathClass : Text := queryClass ++ "&=+/".toList

def upperHex : Text := "0123456789ABCDEF".toList

/-- Text made of characters of a class and of escapes, each a percent sign and two upper-case hex
digits. -/
inductive Escaped (literal : Text) : Text → Prop where
  | nil : Escaped literal []
  | literal {c : Char} {rest : Text} (member : c ∈ literal) (later : Escaped literal rest) :
      Escaped literal (c :: rest)
  | escape {high low : Char} {rest : Text} (highHex : high ∈ upperHex) (lowHex : low ∈ upperHex)
      (later : Escaped literal rest) : Escaped literal ('%' :: high :: low :: rest)

def utf8 (t : Text) : List UInt8 := t.flatMap String.utf8EncodeChar

/-- A percent sign with two hex digits of either case gives the byte that they spell. Any other
character gives its own bytes. -/
def decode : Text → List UInt8
  | [] => []
  | '%' :: high :: low :: rest =>
    match Text.digit? 16 high, Text.digit? 16 low with
    | some h, some l => UInt8.ofNat (16 * h + l) :: decode rest
    | _, _ => String.utf8EncodeChar '%' ++ decode (high :: low :: rest)
  | c :: rest => String.utf8EncodeChar c ++ decode rest

def spaceForPlus (t : Text) : Text := t.map fun c => if c = '+' then ' ' else c

/-! ### Classes -/

theorem ascii_of_isComponentChar {c : Char} (kept : isComponentChar c) : c.toNat < 128 := by
  have below (last : Char) (bound : c.val ≤ last.val) (ascii : last.toNat < 128) :
      c.toNat < 128 := Nat.lt_of_le_of_lt (UInt32.le_iff_toNat_le.mp bound) ascii
  rcases Bool.or_eq_true_iff.mp kept with alphanumeric | mark
  · rcases Bool.or_eq_true_iff.mp alphanumeric with letter | digit
    · rcases Bool.or_eq_true_iff.mp letter with upper | lower
      · have range : c.val ≥ 'A'.val ∧ c.val ≤ 'Z'.val := of_decide_eq_true upper
        exact below 'Z' range.2 (by decide)
      · exact below 'z' (of_decide_eq_true (Bool.and_eq_true_iff.mp lower).2) (by decide)
    · exact below '9' (of_decide_eq_true (Bool.and_eq_true_iff.mp digit).2) (by decide)
  · have all : ∀ m ∈ "-_.!~*'()".toList, m.toNat < 128 := Text.forall_mem_of_all (by decide)
    exact all c (List.contains_iff_mem.mp mark)

theorem isComponentChar_iff (c : Char) : isComponentChar c ↔ c ∈ componentClass := by
  constructor
  · intro kept
    have all : ∀ n < 128, isComponentChar (Char.ofNat n) → Char.ofNat n ∈ componentClass := by
      decide +kernel
    have member := all c.toNat (ascii_of_isComponentChar kept)
    rw [Char.ofNat_toNat] at member
    exact member kept
  · have all : ∀ m ∈ componentClass, isComponentChar m :=
      Text.forall_mem_of_all (by decide +kernel)
    exact all c

theorem isQueryChar_iff (c : Char) : isQueryChar c ↔ c ∈ queryClass := by
  rw [isQueryChar, Bool.or_eq_true_iff, isComponentChar_iff, List.contains_iff_mem, queryClass,
    List.mem_append]

theorem isPathChar_iff (c : Char) : isPathChar c ↔ c ∈ pathClass := by
  rw [isPathChar, Bool.or_eq_true_iff, isQueryChar_iff, List.contains_iff_mem, pathClass,
    List.mem_append]

/-- What encoding relies on: the characters that are kept are those of a class, which is ASCII and
without the percent sign. -/
structure Keeps (isKept : Char → Bool) (literal : Text) : Prop where
  member_iff : ∀ c, isKept c ↔ c ∈ literal
  ascii : ∀ c ∈ literal, c.toNat < 128
  notPercent : '%' ∉ literal

theorem Keeps.ne_percent {isKept : Char → Bool} {literal : Text} (keeps : Keeps isKept literal)
    {c : Char} (member : c ∈ literal) : c ≠ '%' := by
  intro same
  exact keeps.notPercent (same ▸ member)

theorem keeps_component : Keeps isComponentChar componentClass where
  member_iff := isComponentChar_iff
  ascii := Text.forall_mem_of_all (by decide +kernel)
  notPercent := by decide +kernel

theorem keeps_query : Keeps isQueryChar queryClass where
  member_iff := isQueryChar_iff
  ascii := Text.forall_mem_of_all (by decide +kernel)
  notPercent := by decide +kernel

theorem keeps_path : Keeps isPathChar pathClass where
  member_iff := isPathChar_iff
  ascii := Text.forall_mem_of_all (by decide +kernel)
  notPercent := by decide +kernel

/-! ### Bytes -/

theorem utf8EncodeChar_ascii {c : Char} (ascii : c.toNat < 128) :
    String.utf8EncodeChar c = [UInt8.ofNat c.toNat] := by
  have small : c.val.toNat ≤ 127 := Nat.le_of_lt_succ ascii
  simp only [String.utf8EncodeChar, small, if_true]
  rfl

theorem utf8EncodeChar_beyond_ascii {c : Char} (beyond : 128 ≤ c.toNat) :
    ∀ byte ∈ String.utf8EncodeChar c, 128 ≤ byte.toNat := by
  have large : ¬ c.val.toNat ≤ 127 := Nat.not_le_of_lt beyond
  simp only [String.utf8EncodeChar, large, if_false]
  split_ifs <;>
    simp only [List.forall_mem_cons, List.not_mem_nil, false_imp_iff, implies_true, and_true,
      UInt8.toNat_ofNat'] <;>
    omega

def encodeByte (isKept : Char → Bool) (byte : UInt8) : Text :=
  if byte.toNat < 128 ∧ isKept (Char.ofNat byte.toNat) then [Char.ofNat byte.toNat]
  else escapeByte byte

theorem encodeChar_eq_bytes {isKept : Char → Bool} {literal : Text} (keeps : Keeps isKept literal)
    (c : Char) :
    encodeChar isKept c = (String.utf8EncodeChar c).flatMap (encodeByte isKept) := by
  by_cases ascii : c.toNat < 128
  · have code : (UInt8.ofNat c.toNat).toNat = c.toNat := by
      rw [UInt8.toNat_ofNat']
      omega
    rw [utf8EncodeChar_ascii ascii, List.flatMap_singleton, encodeByte, code, Char.ofNat_toNat,
      encodeChar, utf8EncodeChar_ascii ascii, List.flatMap_singleton]
    simp only [ascii, true_and]
  · have notKept : ¬ isKept c = true := fun kept =>
      ascii (keeps.ascii c ((keeps.member_iff c).mp kept))
    rw [encodeChar, if_neg notKept]
    apply List.flatMap_congr
    intro byte member
    have beyond := utf8EncodeChar_beyond_ascii (Nat.le_of_not_lt ascii) byte member
    rw [encodeByte, if_neg (by omega)]

theorem encode_eq_bytes {isKept : Char → Bool} {literal : Text} (keeps : Keeps isKept literal)
    (t : Text) : encode isKept t = (utf8 t).flatMap (encodeByte isKept) := by
  rw [utf8, List.flatMap_assoc, encode]
  exact List.flatMap_congr fun c _ => encodeChar_eq_bytes keeps c

/-! ### Escapes -/

theorem hexDigit_upper {n : Nat} (small : n < 16) : hexDigit n ∈ upperHex := by
  have all : ∀ n < 16, hexDigit n ∈ upperHex := by decide
  exact all n small

theorem digit?_hexDigit {n : Nat} (small : n < 16) : Text.digit? 16 (hexDigit n) = some n := by
  have all : ∀ n < 16, Text.digit? 16 (hexDigit n) = some n := by decide
  exact all n small

theorem high_lt (byte : UInt8) : byte.toNat / 16 < 16 := by
  have := byte.toNat_lt
  omega

theorem low_lt (byte : UInt8) : byte.toNat % 16 < 16 := Nat.mod_lt _ (by decide)

theorem upperHex_ne {c : Char} (hex : c ∈ upperHex) : c ≠ '%' ∧ c ≠ '+' := by
  have all : ∀ c ∈ upperHex, c ≠ '%' ∧ c ≠ '+' := Text.forall_mem_of_all (by decide)
  exact all c hex

theorem toNat_ofNat_ascii {n : Nat} (ascii : n < 128) : (Char.ofNat n).toNat = n := by
  rw [Char.ofNat, dif_pos (Or.inl (by omega))]
  rfl

theorem encodeByte_cases {isKept : Char → Bool} {literal : Text} (keeps : Keeps isKept literal)
    (byte : UInt8) :
    (∃ c ∈ literal, encodeByte isKept byte = [c] ∧ byte = UInt8.ofNat c.toNat) ∨
      ∃ high low, high ∈ upperHex ∧ low ∈ upperHex ∧
        encodeByte isKept byte = ['%', high, low] ∧
        Text.digit? 16 high = some (byte.toNat / 16) ∧
        Text.digit? 16 low = some (byte.toNat % 16) := by
  unfold encodeByte
  split
  · rename_i kept
    left
    refine ⟨_, (keeps.member_iff _).mp kept.2, rfl, ?_⟩
    rw [toNat_ofNat_ascii kept.1, UInt8.ofNat_toNat]
  · right
    exact ⟨_, _, hexDigit_upper (high_lt byte), hexDigit_upper (low_lt byte), rfl,
      digit?_hexDigit (high_lt byte), digit?_hexDigit (low_lt byte)⟩

theorem escaped_bytes {isKept : Char → Bool} {literal : Text} (keeps : Keeps isKept literal)
    (bytes : List UInt8) : Escaped literal (bytes.flatMap (encodeByte isKept)) := by
  induction bytes with
  | nil => exact .nil
  | cons byte bytes ih =>
    rw [List.flatMap_cons]
    rcases encodeByte_cases keeps byte with ⟨c, member, whole, -⟩ | ⟨h, l, hHex, lHex, whole, -⟩
    · rw [whole]
      exact .literal member ih
    · rw [whole]
      exact .escape hHex lHex ih

theorem Escaped.mem {literal t : Text} (escaped : Escaped literal t) :
    ∀ c ∈ t, c ∈ literal ∨ c = '%' ∨ c ∈ upperHex := by
  induction escaped with
  | nil => exact List.forall_mem_nil _
  | literal member later ih => exact List.forall_mem_cons.mpr ⟨Or.inl member, ih⟩
  | escape high low later ih =>
    exact List.forall_mem_cons.mpr ⟨Or.inr (Or.inl rfl), List.forall_mem_cons.mpr
      ⟨Or.inr (Or.inr high), List.forall_mem_cons.mpr ⟨Or.inr (Or.inr low), ih⟩⟩⟩

theorem decode_literal {c : Char} (ascii : c.toNat < 128) (notPercent : c ≠ '%') (rest : Text) :
    decode (c :: rest) = UInt8.ofNat c.toNat :: decode rest := by
  rw [decode, utf8EncodeChar_ascii ascii, List.singleton_append]
  intro high low more isPercent
  exact absurd isPercent notPercent

theorem decode_escape {high low : Char} {byte : UInt8}
    (highDigit : Text.digit? 16 high = some (byte.toNat / 16))
    (lowDigit : Text.digit? 16 low = some (byte.toNat % 16)) (rest : Text) :
    decode ('%' :: high :: low :: rest) = byte :: decode rest := by
  rw [decode, highDigit, lowDigit]
  dsimp only
  rw [Nat.div_add_mod, UInt8.ofNat_toNat]

theorem decode_bytes {isKept : Char → Bool} {literal : Text} (keeps : Keeps isKept literal)
    (bytes : List UInt8) : decode (bytes.flatMap (encodeByte isKept)) = bytes := by
  induction bytes with
  | nil => rfl
  | cons byte bytes ih =>
    rw [List.flatMap_cons]
    rcases encodeByte_cases keeps byte with
      ⟨c, member, whole, spelled⟩ | ⟨h, l, -, -, whole, hDigit, lDigit⟩
    · have notPercent := keeps.ne_percent member
      rw [whole, List.singleton_append, decode_literal (keeps.ascii c member) notPercent, ih,
        spelled]
    · rw [whole, List.cons_append, List.cons_append, List.singleton_append,
        decode_escape hDigit lDigit, ih]

theorem escaped_encode {isKept : Char → Bool} {literal : Text} (keeps : Keeps isKept literal)
    (t : Text) : Escaped literal (encode isKept t) := by
  rw [encode_eq_bytes keeps]
  exact escaped_bytes keeps _

theorem decode_encode {isKept : Char → Bool} {literal : Text} (keeps : Keeps isKept literal)
    (t : Text) : decode (encode isKept t) = utf8 t := by
  rw [encode_eq_bytes keeps, decode_bytes keeps]

theorem encode_around {isKept : Char → Bool} {literal : Text} (keeps : Keeps isKept literal)
    {c : Char} (member : c ∈ literal) (front back : Text) :
    encode isKept (front ++ c :: back) = encode isKept front ++ c :: encode isKept back := by
  have kept : encodeChar isKept c = [c] := if_pos ((keeps.member_iff c).mpr member)
  rw [encode, List.flatMap_append, List.flatMap_cons, kept, List.singleton_append]
  rfl

theorem utf8_injective {s t : Text} (same : utf8 s = utf8 t) : s = t := by
  have bytes (t : Text) : (utf8 t).toByteArray = (String.ofList t).toByteArray := rfl
  have strings : String.ofList s = String.ofList t := by
    rw [← String.toByteArray_inj, ← bytes s, ← bytes t, same]
  exact String.ofList_injective strings

theorem encode_injective {isKept : Char → Bool} {literal : Text} (keeps : Keeps isKept literal)
    {s t : Text} (same : encode isKept s = encode isKept t) : s = t := by
  apply utf8_injective
  rw [← decode_encode keeps s, ← decode_encode keeps t, same]

/-! ### Escapes replaced -/

theorem escapeByte_of_opens {byte : UInt8} {high low : Char} {rest : Text}
    (opens : escapeByte byte <+: '%' :: high :: low :: rest) :
    escapeByte byte = ['%', high, low] := by
  obtain ⟨more, same⟩ := opens
  simp only [escapeByte, List.cons_append, List.nil_append, List.cons.injEq, true_and] at same
  obtain ⟨sameHigh, sameLow, -⟩ := same
  rw [escapeByte, sameHigh, sameLow]

theorem eq_of_encodeByte_eq_escapeByte {isKept : Char → Bool} {literal : Text}
    (keeps : Keeps isKept literal) {byte other : UInt8}
    (same : encodeByte isKept byte = escapeByte other) : byte = other := by
  have reads : decode (encodeByte isKept byte) = [byte] := by
    simpa using decode_bytes keeps [byte]
  have readsOther : decode (escapeByte other) = [other] :=
    decode_escape (digit?_hexDigit (high_lt other)) (digit?_hexDigit (low_lt other)) []
  rw [same, readsOther] at reads
  exact (List.cons.inj reads).1.symm

/-- Replacing an escape replaces what stands for one byte, wherever that byte is escaped. -/
theorem replace_escapes {isKept : Char → Bool} {literal : Text} (keeps : Keeps isKept literal)
    (byte : UInt8) (new : Text) (bytes : List UInt8) :
    Text.replace (escapeByte byte) new (bytes.flatMap (encodeByte isKept)) =
      bytes.flatMap fun other =>
        if encodeByte isKept other = escapeByte byte then new else encodeByte isKept other := by
  have pass {c : Char} (notPercent : c ≠ '%') (rest : Text) :
      Text.replace (escapeByte byte) new (c :: rest) =
        c :: Text.replace (escapeByte byte) new rest :=
    Text.replace_cons_of_ne notPercent _ _ _
  induction bytes with
  | nil => rfl
  | cons other bytes ih =>
    rw [List.flatMap_cons, List.flatMap_cons, ← ih]
    by_cases same : encodeByte isKept other = escapeByte byte
    · have nonempty : escapeByte byte ≠ [] := List.cons_ne_nil _ _
      rw [if_pos same, same, Text.replace_append nonempty]
    · rw [if_neg same]
      rcases encodeByte_cases keeps other with
        ⟨c, member, whole, -⟩ | ⟨h, l, hHex, lHex, whole, -⟩
      · have notPercent := keeps.ne_percent member
        rw [whole, List.singleton_append, List.singleton_append, pass notPercent]
      · have stays : ¬ escapeByte byte <+: '%' :: h :: l :: bytes.flatMap (encodeByte isKept) :=
          fun opens => same (whole.trans (escapeByte_of_opens opens).symm)
        rw [whole]
        simp only [List.cons_append, List.nil_append]
        rw [Text.replace_cons stays, pass (upperHex_ne hHex).1, pass (upperHex_ne lHex).1]

/-! ### The plus form -/

def plusByte (byte : UInt8) : Text :=
  if byte = 32 then ['+'] else encodeByte isQueryChar byte

theorem escapeByte_space : "%20".toList = escapeByte 32 := by decide

theorem encodeByte_eq_space_iff (byte : UInt8) :
    encodeByte isQueryChar byte = escapeByte 32 ↔ byte = 32 := by
  constructor
  · exact eq_of_encodeByte_eq_escapeByte keeps_query
  · intro space
    rw [space]
    decide

theorem encodeQueryPlus_eq_bytes (t : Text) : encodeQueryPlus t = (utf8 t).flatMap plusByte := by
  rw [encodeQueryPlus, encodeQuery, encode_eq_bytes keeps_query, escapeByte_space,
    replace_escapes keeps_query]
  apply List.flatMap_congr
  intro byte member
  simp only [encodeByte_eq_space_iff]
  rfl

theorem decode_spaceForPlus_bytes (bytes : List UInt8) :
    decode (spaceForPlus (bytes.flatMap plusByte)) = bytes := by
  have stays {c : Char} (notPlus : c ≠ '+') (rest : Text) :
      spaceForPlus (c :: rest) = c :: spaceForPlus rest := by
    rw [spaceForPlus, List.map_cons, if_neg notPlus]
    rfl
  induction bytes with
  | nil => rfl
  | cons byte bytes ih =>
    rw [List.flatMap_cons, plusByte]
    split
    · rename_i isSpace
      have space : spaceForPlus (['+'] ++ bytes.flatMap plusByte) =
          ' ' :: spaceForPlus (bytes.flatMap plusByte) := rfl
      rw [space, decode_literal (by decide) (by decide), ih, isSpace]
      rfl
    · rcases encodeByte_cases keeps_query byte with
        ⟨c, member, whole, spelled⟩ | ⟨h, l, hHex, lHex, whole, hDigit, lDigit⟩
      · have notPlus : c ≠ '+' := by
          rintro rfl
          exact absurd member (by decide)
        have notPercent := keeps_query.ne_percent member
        rw [whole, List.singleton_append, stays notPlus,
          decode_literal (keeps_query.ascii c member) notPercent, ih, spelled]
      · rw [whole, List.cons_append, List.cons_append, List.singleton_append, stays (by decide),
          stays (upperHex_ne hHex).2, stays (upperHex_ne lHex).2, decode_escape hDigit lDigit, ih]

theorem no_space_escape (bytes : List UInt8) : ¬ "%20".toList <:+: bytes.flatMap plusByte := by
  have inside {c : Char} (notPercent : c ≠ '%') {rest : Text}
      (found : escapeByte 32 <:+: c :: rest) : escapeByte 32 <:+: rest :=
    (List.infix_cons_iff.mp found).resolve_left fun here =>
      notPercent (List.cons_prefix_cons.mp here).1.symm
  rw [escapeByte_space]
  induction bytes with
  | nil => simp [escapeByte]
  | cons byte bytes ih =>
    intro found
    rw [List.flatMap_cons, plusByte] at found
    split at found
    · exact ih (inside (by decide) found)
    · rename_i notSpace
      rcases encodeByte_cases keeps_query byte with
        ⟨c, member, whole, -⟩ | ⟨h, l, hHex, lHex, whole, -⟩
      · have notPercent := keeps_query.ne_percent member
        rw [whole] at found
        exact ih (inside notPercent found)
      · rw [whole] at found
        rcases List.infix_cons_iff.mp found with here | later
        · have space := whole.trans (escapeByte_of_opens here).symm
          exact notSpace ((encodeByte_eq_space_iff byte).mp space)
        · exact ih (inside (upperHex_ne lHex).1 (inside (upperHex_ne hHex).1 later))

/-! ### The encoders -/

/-- Every encoder leaves the characters of its class where they stand and writes escapes for the
others, and reading the escapes gives the bytes of the text. The plus form reads back once its plus
signs are spaces, and it holds no escape of a space. -/
theorem encoders_read_back (t : Text) :
    (Escaped componentClass (encodeComponent t) ∧ decode (encodeComponent t) = utf8 t) ∧
      (Escaped queryClass (encodeQuery t) ∧ decode (encodeQuery t) = utf8 t) ∧
      (Escaped pathClass (encodePath t) ∧ decode (encodePath t) = utf8 t) ∧
      decode (spaceForPlus (encodeQueryPlus t)) = utf8 t ∧
      ¬ "%20".toList <:+: encodeQueryPlus t ∧
      ∀ front back,
        (∀ c ∈ componentClass, encodeComponent (front ++ c :: back) =
          encodeComponent front ++ c :: encodeComponent back) ∧
        (∀ c ∈ queryClass, encodeQuery (front ++ c :: back) =
          encodeQuery front ++ c :: encodeQuery back) ∧
        ∀ c ∈ pathClass, encodePath (front ++ c :: back) =
          encodePath front ++ c :: encodePath back := by
  refine ⟨⟨escaped_encode keeps_component t, decode_encode keeps_component t⟩,
    ⟨escaped_encode keeps_query t, decode_encode keeps_query t⟩,
    ⟨escaped_encode keeps_path t, decode_encode keeps_path t⟩, ?_, ?_, fun front back =>
    ⟨fun c member => encode_around keeps_component member front back,
      fun c member => encode_around keeps_query member front back,
      fun c member => encode_around keeps_path member front back⟩⟩
  · rw [encodeQueryPlus_eq_bytes, decode_spaceForPlus_bytes]
  · rw [encodeQueryPlus_eq_bytes]
    exact no_space_escape _

end RoutePlan.Percent

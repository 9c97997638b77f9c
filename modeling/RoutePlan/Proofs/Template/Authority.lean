import Mathlib.Data.List.Basic
import Mathlib.Data.List.TakeWhile
import Mathlib.Data.Option.Basic
import RoutePlan.Proofs.Template.SlotTable
import RoutePlan.Route

/-!
Templates as sequences of tokens, and the scheme and host that some of them begin with. The scheme
and host end where a token ends, because no slot name holds a slash.
-/
namespace RoutePlan

inductive Token where
  | char (c : Char)
  | slot (slot : Slot)
  deriving DecidableEq

namespace Token

def text : Token → Text
  | .char c => [c]
  | .slot s => ':' :: s.name

def reading (tokens : List Token) : Text := tokens.flatMap text

def behind : Nat → List Token → List Token
  | _, [] => []
  | 0, tokens => tokens
  | n + 1, token :: rest => behind (n + 1 - token.text.length) rest

theorem text_ne_nil (token : Token) : token.text ≠ [] := by
  cases token <;> simp [text]

@[simp] theorem reading_nil : reading [] = [] := rfl

@[simp] theorem reading_cons (token : Token) (rest : List Token) :
    reading (token :: rest) = token.text ++ reading rest := List.flatMap_cons

@[simp] theorem reading_append (first second : List Token) :
    reading (first ++ second) = reading first ++ reading second := List.flatMap_append

@[simp] theorem behind_zero (tokens : List Token) : behind 0 tokens = tokens := by
  cases tokens <;> rfl

theorem behind_cons {n : Nat} (positive : 0 < n) (token : Token) (rest : List Token) :
    behind n (token :: rest) = behind (n - token.text.length) rest := by
  cases n with
  | zero => omega
  | succ n => rfl

theorem head?_reading_slash (tokens : List Token) :
    (reading tokens).head? = some '/' ↔ tokens.head? = some (.char '/') := by
  cases tokens with
  | nil => simp
  | cons token rest => cases token <;> simp [text]

theorem same_reading_same_front {inside outside otherInside otherOutside : List Token}
    (same : inside ++ outside = otherInside ++ otherOutside)
    (reads : reading inside = reading otherInside) :
    inside = otherInside ∧ outside = otherOutside := by
  induction inside generalizing otherInside with
  | nil =>
    cases otherInside with
    | nil => exact ⟨rfl, same⟩
    | cons token rest => simp [text_ne_nil] at reads
  | cons token rest ih =>
    cases otherInside with
    | nil => simp [text_ne_nil] at reads
    | cons other otherRest =>
      obtain ⟨rfl, sameRest⟩ := List.cons.inj same
      obtain ⟨rfl, sameOutside⟩ := ih sameRest (List.append_cancel_left reads)
      exact ⟨rfl, sameOutside⟩

end Token

/-! ### Scheme and host -/

/-- `http://` or `https://` and a host, which goes up to a slash. -/
def AuthorityForm (t : Text) : Prop :=
  ∃ scheme host, (scheme = "http://".toList ∨ scheme = "https://".toList) ∧ '/' ∉ host ∧
    t = scheme ++ host

/-- The longest scheme and host that a text begins with, or nothing where it begins with none. -/
def LongestAuthority (url t : Text) : Prop :=
  (AuthorityForm t ∧ t <+: url ∧ ∀ u, AuthorityForm u → u <+: url → u.length ≤ t.length) ∨
    (t = [] ∧ ∀ u, AuthorityForm u → ¬ u <+: url)

theorem longestAuthority_unique {url t u : Text} (first : LongestAuthority url t)
    (second : LongestAuthority url u) : t = u := by
  rcases first with ⟨formT, frontT, longestT⟩ | ⟨rfl, none⟩ <;>
    rcases second with ⟨formU, frontU, longestU⟩ | ⟨rfl, none'⟩
  · have sameLength : t.length = u.length :=
      Nat.le_antisymm (longestU t formT frontT) (longestT u formU frontU)
    exact (List.prefix_of_prefix_length_le frontT frontU sameLength.le).eq_of_length sameLength
  · exact absurd frontT (none' t formT)
  · exact absurd frontU (none u formU)
  · rfl

theorem passes_of_noSlash {host : Text} (noSlash : '/' ∉ host) : ∀ c ∈ host, (c != '/') = true := by
  intro c member
  exact bne_iff_ne.mpr fun isSlash => noSlash (isSlash ▸ member)

theorem host_le_run {host rest : Text} (noSlash : '/' ∉ host) (front : host <+: rest) :
    host.length ≤ (rest.takeWhile (· != '/')).length := by
  obtain ⟨more, rfl⟩ := front
  rw [List.takeWhile_append_of_pos (passes_of_noSlash noSlash), List.length_append]
  exact Nat.le_add_right _ _

theorem longestAuthority_of_scheme {scheme rest : Text}
    (isScheme : scheme = "http://".toList ∨ scheme = "https://".toList) :
    LongestAuthority (scheme ++ rest) (scheme ++ rest.takeWhile (· != '/')) := by
  refine Or.inl ⟨⟨scheme, _, isScheme, ?_, rfl⟩, ?_, ?_⟩
  · intro member
    simpa using List.mem_takeWhile_imp member
  · exact (List.prefix_append_right_inj scheme).mpr (List.takeWhile_prefix _)
  · rintro u ⟨other, host, isOther, noSlash, rfl⟩ front
    have sameScheme : other = scheme := by
      rcases isScheme with rfl | rfl <;> rcases isOther with rfl | rfl
      · rfl
      · exact absurd front (by simp [List.cons_prefix_cons])
      · exact absurd front (by simp [List.cons_prefix_cons])
      · rfl
    subst sameScheme
    have hostFront : host <+: rest := (List.prefix_append_right_inj other).mp front
    have := host_le_run noSlash hostFront
    simp only [List.length_append]
    omega

theorem longestAuthority_take (url : Text) :
    LongestAuthority url (url.take (authorityLength url)) := by
  have cut {scheme rest : Text} :
      (scheme ++ rest).take
        ((scheme ++ rest).length - rest.length + (rest.takeWhile (· != '/')).length) =
        scheme ++ rest.takeWhile (· != '/') := by
    have front := List.takeWhile_prefix (· != '/') (l := rest)
    rw [List.length_append, Nat.add_sub_cancel, List.take_length_add_append,
      ← List.prefix_iff_eq_take.mp front]
  unfold authorityLength
  cases plain : "http://".toList.isPrefixOf? url with
  | some rest =>
    obtain rfl := List.append_eq_of_isPrefixOf?_eq_some plain
    exact cut ▸ longestAuthority_of_scheme (Or.inl rfl)
  | none =>
    cases secure : "https://".toList.isPrefixOf? url with
    | some rest =>
      obtain rfl := List.append_eq_of_isPrefixOf?_eq_some secure
      exact cut ▸ longestAuthority_of_scheme (Or.inr rfl)
    | none =>
      refine Or.inr ⟨rfl, ?_⟩
      rintro u ⟨scheme, host, isScheme, -, rfl⟩ ⟨more, whole⟩
      have found : scheme.isPrefixOf? url = some (host ++ more) :=
        List.isPrefixOf?_eq_some_iff_append_eq.mpr (by rw [← whole, List.append_assoc])
      rcases isScheme with rfl | rfl
      · cases plain.symm.trans found
      · cases secure.symm.trans found

theorem exists_scheme {url rest : Text}
    (found : ("http://".toList.isPrefixOf? url <|> "https://".toList.isPrefixOf? url) =
      some rest) : ∃ scheme, scheme ++ rest = url := by
  rcases (Option.orElse_eq_some _ _ _).mp found with plain | ⟨-, secure⟩
  · exact ⟨_, List.append_eq_of_isPrefixOf?_eq_some plain⟩
  · exact ⟨_, List.append_eq_of_isPrefixOf?_eq_some secure⟩

theorem authorityLength_le (url : Text) : authorityLength url ≤ url.length := by
  unfold authorityLength
  split
  · exact Nat.zero_le _
  · rename_i rest found
    obtain ⟨scheme, rfl⟩ := exists_scheme found
    have run := (List.takeWhile_prefix (· != '/') (l := rest)).length_le
    rw [List.length_append]
    omega

theorem length_take_authority (url : Text) :
    (url.take (authorityLength url)).length = authorityLength url :=
  List.length_take_of_le (authorityLength_le url)

theorem authorityForm_ne_nil {t : Text} (form : AuthorityForm t) : t ≠ [] := by
  obtain ⟨scheme, host, rfl | rfl, -, rfl⟩ := form <;> simp

theorem authorityForm_append {t : Text} {c : Char} (form : AuthorityForm t) (notSlash : c ≠ '/') :
    AuthorityForm (t ++ [c]) := by
  obtain ⟨scheme, host, isScheme, noSlash, rfl⟩ := form
  exact ⟨scheme, host ++ [c], isScheme, by simp [noSlash, notSlash.symm], List.append_assoc _ _ _⟩

theorem longestAuthority_append_iff {t rest : Text} (form : AuthorityForm t) :
    LongestAuthority (t ++ rest) t ↔ rest = [] ∨ rest.head? = some '/' := by
  constructor
  · rintro (⟨-, -, longest⟩ | ⟨empty, -⟩)
    · cases rest with
      | nil => exact Or.inl rfl
      | cons c rest =>
        by_contra stop
        have notSlash : c ≠ '/' := by simpa using stop
        have front : t ++ [c] <+: t ++ c :: rest :=
          (List.prefix_append_right_inj t).mpr ⟨rest, rfl⟩
        have shorter := longest _ (authorityForm_append form notSlash) front
        rw [List.length_append, List.length_singleton] at shorter
        omega
    · exact absurd empty (authorityForm_ne_nil form)
  · intro stop
    obtain ⟨scheme, host, isScheme, noSlash, rfl⟩ := form
    have ends : rest.takeWhile (· != '/') = [] := by
      cases rest with
      | nil => rfl
      | cons c rest => simpa using stop
    have longest : LongestAuthority (scheme ++ (host ++ rest)) _ :=
      longestAuthority_of_scheme isScheme
    rwa [List.takeWhile_append_of_pos (passes_of_noSlash noSlash), ends, List.append_nil,
      ← List.append_assoc] at longest

theorem authorityLength_stop (url : Text) :
    authorityLength url = 0 ∨
      ∀ c, (url.drop (authorityLength url)).head? = some c → c = '/' := by
  have longest : LongestAuthority
      (url.take (authorityLength url) ++ url.drop (authorityLength url))
      (url.take (authorityLength url)) := by
    rw [List.take_append_drop]
    exact longestAuthority_take url
  rcases longestAuthority_take url with ⟨form, -, -⟩ | ⟨empty, -⟩
  · rcases (longestAuthority_append_iff form).mp longest with nothing | slash
    · exact Or.inr (by simp [nothing])
    · exact Or.inr fun c first => Option.some.inj (first.symm.trans slash)
  · have short := congrArg List.length empty
    rw [length_take_authority] at short
    exact Or.inl short

/-! ### The tokens of a template -/

namespace Template
open Token

def partTokens (slots : List Slot) : Part → List Token
  | .literal text => text.map .char
  | .slot index => match slots[index]? with
    | some found => [.slot found]
    | none => []

def tokens (template : Template) : List Token := template.parts.flatMap (partTokens template.slots)

def body (template : Template) : List Token :=
  behind (authorityLength template.unescaped) template.tokens

theorem reading_chars (text : Text) : reading (text.map .char) = text := by
  induction text with
  | nil => rfl
  | cons c text ih => simp [Token.text, ih]

theorem reading_partTokens (slots : List Slot) (part : Part) :
    reading (partTokens slots part) = partText slots part := by
  cases part with
  | literal text => exact reading_chars text
  | slot index =>
    cases found : slots[index]? <;> simp [partTokens, partText, found, Token.text]

theorem reading_flatMap_partTokens (slots : List Slot) (parts : List Part) :
    reading (parts.flatMap (partTokens slots)) = parts.flatMap (partText slots) := by
  induction parts with
  | nil => rfl
  | cons part rest ih =>
    rw [List.flatMap_cons, reading_append, reading_partTokens, ih, List.flatMap_cons]

theorem reading_tokens (template : Template) : reading template.tokens = template.unescaped :=
  reading_flatMap_partTokens template.slots template.parts

theorem slot_of_mem_tokens {template : Template} {slot : Slot}
    (member : Token.slot slot ∈ template.tokens) : slot ∈ template.slots := by
  obtain ⟨part, -, inPart⟩ := List.mem_flatMap.mp member
  cases part with
  | literal text => simp [partTokens] at inPart
  | slot index =>
    simp only [partTokens] at inPart
    split at inPart
    · rename_i found
      obtain rfl : slot = _ := by simpa using inPart
      exact List.mem_of_getElem? found
    · cases inPart

theorem longestAuthority_authority (template : Template) :
    LongestAuthority template.unescaped template.authority := longestAuthority_take _

theorem length_authority (template : Template) :
    template.authority.length = authorityLength template.unescaped := length_take_authority _

/-- Where a slash or nothing follows the first `n` characters, a token ends there. -/
theorem behind_splits (tokens : List Token) (n : Nat)
    (noSlash : ∀ slot, Token.slot slot ∈ tokens → '/' ∉ slot.name)
    (inside : n ≤ (reading tokens).length)
    (stop : n = 0 ∨ ∀ c, ((reading tokens).drop n).head? = some c → c = '/') :
    ∃ front, tokens = front ++ behind n tokens ∧ reading front = (reading tokens).take n := by
  induction tokens generalizing n with
  | nil => exact ⟨[], by simp [behind], by simp⟩
  | cons token rest ih =>
    by_cases positive : 0 < n
    · have atStop := stop.resolve_left (by omega)
      rw [reading_cons] at atStop inside
      have covered : token.text.length ≤ n := by
        by_contra short
        cases token with
        | char c => simp only [Token.text, List.length_singleton] at short; omega
        | slot slot =>
          -- A name that reached past `n` would hold the slash that stands there.
          simp only [Token.text, List.length_cons, Nat.not_le] at short
          obtain ⟨k, rfl⟩ : ∃ k, n = k + 1 := ⟨n - 1, by omega⟩
          have within : k < slot.name.length := by omega
          have isSlash : slot.name[k] = '/' := atStop _ (by
            simp only [Token.text, List.cons_append, List.drop_succ_cons]
            rw [List.head?_drop, List.getElem?_append_left within, List.getElem?_eq_getElem within])
          exact noSlash slot (by simp) (isSlash ▸ List.getElem_mem within)
      obtain ⟨more, rfl⟩ := Nat.exists_eq_add_of_le covered
      have later := ih more (fun slot member => noSlash slot (List.mem_cons_of_mem _ member))
        (by simpa using inside) (Or.inr (by simpa [← List.drop_drop] using atStop))
      obtain ⟨front, whole, reads⟩ := later
      refine ⟨token :: front, ?_, ?_⟩
      · rw [behind_cons positive, Nat.add_sub_cancel_left, List.cons_append, ← whole]
      · rw [reading_cons, reading_cons, reads, List.take_length_add_append]
    · obtain rfl : n = 0 := by omega
      exact ⟨[], by simp, by simp⟩

theorem tokens_split {source : Text} {template : Template}
    (parsed : parse source = .ok template) :
    ∃ front, template.tokens = front ++ template.body ∧ reading front = template.authority := by
  have noSlash : ∀ slot, Token.slot slot ∈ template.tokens → '/' ∉ slot.name := by
    intro slot member isSlash
    have isWord := (parsed_slots_are_words parsed (slot_of_mem_tokens member)).2 '/' isSlash
    exact absurd isWord (by decide)
  have stop := authorityLength_stop template.unescaped
  have within := authorityLength_le template.unescaped
  rw [← reading_tokens] at stop within
  obtain ⟨front, split, reads⟩ := behind_splits template.tokens _ noSlash within stop
  rw [reading_tokens] at split reads
  exact ⟨front, split, reads⟩

theorem slot_of_mem_body {source : Text} {template : Template}
    (parsed : parse source = .ok template) {slot : Slot}
    (member : Token.slot slot ∈ template.body) : slot ∈ template.slots := by
  obtain ⟨front, split, -⟩ := tokens_split parsed
  have inTokens : Token.slot slot ∈ template.tokens := by
    rw [split]
    exact List.mem_append_right _ member
  exact slot_of_mem_tokens inTokens

theorem unescaped_split {source : Text} {template : Template}
    (parsed : parse source = .ok template) :
    template.unescaped = template.authority ++ reading template.body := by
  obtain ⟨front, split, reads⟩ := tokens_split parsed
  rw [← reads, ← reading_append, ← split, reading_tokens]

theorem body_cases {source : Text} {template : Template} (parsed : parse source = .ok template) :
    template.authority = [] ∧ template.body = template.tokens ∨
      template.body = [] ∨ template.body.head? = some (.char '/') := by
  rcases authorityLength_stop template.unescaped with none | stop
  · exact Or.inl ⟨by rw [authority, none, List.take_zero], by rw [body, none, behind_zero]⟩
  · right
    have reads : template.unescaped.drop (authorityLength template.unescaped) =
        reading template.body := by
      rw [← List.append_right_inj template.authority, ← unescaped_split parsed, authority,
        List.take_append_drop]
    rw [reads] at stop
    cases body : template.body with
    | nil => exact Or.inl rfl
    | cons token rest =>
      right
      rw [body, reading_cons] at stop
      obtain ⟨c, more, text⟩ := List.exists_cons_of_ne_nil token.text_ne_nil
      obtain rfl := stop c (by rw [text]; rfl)
      rw [← head?_reading_slash, reading_cons, text]
      rfl

end Template
end RoutePlan

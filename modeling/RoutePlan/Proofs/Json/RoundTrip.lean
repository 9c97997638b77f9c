import RoutePlan.Json.Reader
import RoutePlan.Json.Writer
import RoutePlan.Proofs.Dict
import RoutePlan.Proofs.Json.Integer
import RoutePlan.Proofs.Json.Quoted

/-!
Compact text reads back. Reading the text of a value takes the stack of open arrays and objects from
where a value may begin to where it is complete, whatever stands behind the text.
-/
namespace RoutePlan.Json

/-- A value without floating-point numbers, with the members of its objects in order. At most
`depth` arrays and objects stand inside one another. -/
inductive FloatFree : Nat → Json → Prop where
  | null {depth : Nat} : FloatFree depth .null
  | bool {depth : Nat} (value : Bool) : FloatFree depth (.bool value)
  | int {depth : Nat} {value : Int} (inRange : Number.InRange value) :
      FloatFree depth (.number (.int value))
  | string {depth : Nat} (text : Text) : FloatFree depth (.string text)
  | array {depth : Nat} {items : List Json} (each : ∀ item ∈ items, FloatFree depth item) :
      FloatFree (depth + 1) (.array items)
  | object {depth : Nat} {members : List (Text × Json)} (ordered : Dict.Ordered members)
      (each : ∀ member ∈ members, FloatFree depth member.2) :
      FloatFree (depth + 1) (.object members)

/-! ### Tokens -/

namespace Token

def Cuts (front : Text) (token : Token) (rest : Text) : Prop :=
  scan? (front ++ rest) = (scan? rest).map (token :: ·)

def EndsNumeral (rest : Text) : Prop := ∀ c ∈ rest.head?, ¬ Numeral.isNumeralChar c

inductive Mark : Char → Token → Prop where
  | openArray : Mark '[' .openArray
  | closeArray : Mark ']' .closeArray
  | openObject : Mark '{' .openObject
  | closeObject : Mark '}' .closeObject
  | comma : Mark ',' .comma
  | colon : Mark ':' .colon

theorem cuts_mark {c : Char} {token : Token} (mark : Mark c token) (rest : Text) :
    Cuts [c] token rest := by
  cases mark <;> rw [Cuts, List.singleton_append, scan?]

theorem endsNumeral_mark {c : Char} {token : Token} (mark : Mark c token) (rest : Text) :
    EndsNumeral (c :: rest) := by
  intro d first
  cases first
  cases mark <;> decide

theorem cuts_null (rest : Text) : Cuts "null".toList (.atom .null) rest := by
  change scan? ('n' :: 'u' :: 'l' :: 'l' :: rest) = _
  rw [scan?]

theorem cuts_bool (value : Bool) (rest : Text) :
    Cuts (toString value).toList (.atom (.bool value)) rest := by
  cases value
  · change scan? ('f' :: 'a' :: 'l' :: 's' :: 'e' :: rest) = _
    rw [scan?]
  · change scan? ('t' :: 'r' :: 'u' :: 'e' :: rest) = _
    rw [scan?]

theorem cuts_quoted (text rest : Text) : Cuts (Quoted.write text) (.atom (.string text)) rest := by
  have found := Quoted.untilQuote?_escape text rest
  unfold Cuts
  rw [Quoted.write, List.cons_append, List.append_assoc, List.singleton_append, scan?]
  split
  · rename_i missing
    rw [found] at missing
    contradiction
  · rename_i body after cut
    rw [found, Option.some.injEq, Prod.mk.injEq] at cut
    obtain ⟨rfl, rfl⟩ := cut
    rw [Quoted.unescape?_escape]
    cases scan? rest <;> rfl

theorem scan?_numeral {c : Char} {more rest : Text} (opens : c.isDigit ∨ c = '-')
    (belongs : ∀ d ∈ more, Numeral.isNumeralChar d) (ends : EndsNumeral rest) :
    scan? (c :: more ++ rest) =
      (Numeral.ofText? (c :: more)).bind fun numeral => numeral.number?.bind fun number =>
        (scan? rest).map (.atom (.number number) :: ·) := by
  have stops : rest.takeWhile Numeral.isNumeralChar = [] ∧
      rest.dropWhile Numeral.isNumeralChar = rest := by
    cases rest with
    | nil => exact ⟨rfl, rfl⟩
    | cons d rest =>
      have foreign := ends d rfl
      exact ⟨List.takeWhile_cons_of_neg foreign, List.dropWhile_cons_of_neg foreign⟩
  have inside : (more ++ rest).takeWhile Numeral.isNumeralChar = more := by
    rw [List.takeWhile_append_of_pos belongs, stops.1, List.append_nil]
  have behind : (more ++ rest).dropWhile Numeral.isNumeralChar = rest := by
    rw [List.dropWhile_append_of_pos belongs, stops.2]
  have differs (d : Char) (other : ¬ (d.isDigit ∨ d = '-')) : c ≠ d := by
    rintro rfl
    exact other opens
  have notBlank : isBlank c = false := by
    simp [isBlank, differs]
  rw [List.cons_append, scan?]
  · simp only [notBlank, opens, inside, behind, Option.map_eq_bind]
    rfl
  -- No other token begins with a digit or a minus.
  all_goals
    intros
    apply differs _ _ ‹_›
    decide

end Token

theorem IntegerText.scan? {d rest : Text} {value : Int} (integer : IntegerText d value)
    (ends : Token.EndsNumeral rest) :
    ∃ number?, IntegerReading d value number? ∧
      Token.scan? (d ++ rest) =
        number?.bind fun number => (Token.scan? rest).map (.atom (.number number) :: ·) := by
  obtain ⟨numeral, read, reading⟩ := integer.reading
  obtain ⟨c, more, rfl⟩ := List.exists_cons_of_ne_nil integer.ne_nil
  have opens := integer.isDigit_or_minus c List.mem_cons_self
  have belongs : ∀ x ∈ more, Numeral.isNumeralChar x := by
    intro x member
    rcases integer.isDigit_or_minus x (List.mem_cons_of_mem c member) with digit | minus
    · simp [Numeral.isNumeralChar, digit]
    · rw [minus]
      decide
  refine ⟨_, reading, ?_⟩
  rw [Token.scan?_numeral opens belongs ends, read]
  rfl

theorem IntegerText.parse? {d : Text} {value : Int} (integer : IntegerText d value) :
    ∃ number?, IntegerReading d value number? ∧ Json.parse? d = number?.map .number := by
  have noMore : Token.EndsNumeral [] := nofun
  obtain ⟨number?, reading, scanned⟩ := integer.scan? noMore
  refine ⟨number?, reading, ?_⟩
  have nothing : Token.scan? [] = some [] := by
    rw [Token.scan?]
  rw [List.append_nil, nothing] at scanned
  rw [Json.parse?, read?, scanned]
  cases number? <;> rfl

namespace Token

theorem cuts_int {value : Int} {rest : Text} (inRange : Number.InRange value)
    (ends : EndsNumeral rest) : Cuts (Text.ofInt value) (.atom (.number (.int value))) rest := by
  obtain ⟨number?, reading, scanned⟩ := (integerText_ofInt value).scan? ends
  rw [reading.kept inRange] at scanned
  exact scanned

end Token

/-! ### Open arrays and objects -/

namespace Reading

def through? (limit : Nat) (text : Text) (reading : Reading) : Option Reading := do
  (← Token.scan? text).foldlM (step limit) reading

theorem read?_eq (limit : Nat) (text : Text) :
    read? limit text = (through? limit text start).bind finished? := by
  rw [read?, through?]
  cases Token.scan? text <;> rfl

theorem through?_cuts {front rest : Text} {token : Token} (cuts : Token.Cuts front token rest)
    (limit : Nat) (reading : Reading) :
    through? limit (front ++ rest) reading =
      (step limit reading token).bind (through? limit rest) := by
  have scanned : Token.scan? (front ++ rest) = (Token.scan? rest).map (token :: ·) := cuts
  unfold through?
  rw [scanned]
  cases Token.scan? rest with
  | none => cases step limit reading token <;> rfl
  | some tokens =>
    simp only [Option.map_some, Option.bind_eq_bind, Option.bind_some, List.foldlM_cons]

theorem through?_mark {c : Char} {token : Token} (mark : Token.Mark c token) (limit : Nat)
    (rest : Text) (reading : Reading) :
    through? limit (c :: rest) reading = (step limit reading token).bind (through? limit rest) :=
  through?_cuts (Token.cuts_mark mark rest) limit reading

def AwaitsValue (limit : Nat) (reading : Reading) : Prop :=
  ∀ token ≠ .closeArray, step limit reading token = beginValue limit reading.openFrames token

theorem awaitsValue_value (limit : Nat) (frames : List Frame) :
    AwaitsValue limit ⟨frames, .value⟩ := fun _ _ => rfl

theorem awaitsValue_firstItem (limit : Nat) (frames : List Frame) :
    AwaitsValue limit ⟨.items [] :: frames, .firstItem⟩ := by
  intro token other
  cases token <;> first | rfl | contradiction

/-- Inside at most `height` open arrays and objects, the text of the value is read as the value. -/
def ReadsBack (limit height : Nat) (value : Json) : Prop :=
  ∀ ⦃reading : Reading⦄ ⦃rest : Text⦄, reading.openFrames.length ≤ height →
    AwaitsValue limit reading → Token.EndsNumeral rest →
      through? limit (value.compact ++ rest) reading =
        through? limit rest ⟨reading.openFrames, .after value⟩

theorem readsBack_atom {value : Json} (limit height : Nat)
    (cuts : ∀ rest, Token.EndsNumeral rest → Token.Cuts value.compact (.atom value) rest) :
    ReadsBack limit height value := by
  intro reading rest fits awaits ends
  rw [through?_cuts (cuts rest ends), awaits _ Token.noConfusion]
  rfl

theorem through?_items {limit height : Nat} {frames : List Frame} (item : Json) (more : List Json)
    (each : ∀ value ∈ item :: more, ReadsBack limit (height + 1) value)
    (fits : frames.length ≤ height) (done : List Json) {reading : Reading}
    (opened : reading.openFrames = .items done :: frames) (awaits : AwaitsValue limit reading)
    (rest : Text) :
    through? limit (compactItems (item :: more) ++ ']' :: rest) reading =
      through? limit rest ⟨frames, .after (.array (done.reverse ++ item :: more))⟩ := by
  induction more generalizing item done reading with
  | nil =>
    have inside : reading.openFrames.length ≤ height + 1 := by simp [opened, fits]
    have read := each item List.mem_cons_self inside awaits
      (Token.endsNumeral_mark .closeArray rest)
    rw [compactItems, read, opened, through?_mark .closeArray, step, Option.bind_some,
      List.reverse_cons]
  | cons next more ih =>
    have inside : reading.openFrames.length ≤ height + 1 := by simp [opened, fits]
    have read := each item List.mem_cons_self inside awaits
      (Token.endsNumeral_mark .comma (compactItems (next :: more) ++ ']' :: rest))
    rw [compactItems, List.append_assoc, List.cons_append, read, opened, through?_mark .comma, step,
      Option.bind_some, ih next (fun value member => each value (List.mem_cons_of_mem _ member))
        (item :: done) rfl (awaitsValue_value limit _)]
    · simp
    · nofun

def AwaitsKey (limit : Nat) (done : List (Text × Json)) (reading : Reading) : Prop :=
  ∀ token ≠ .closeObject, step limit reading token = beginKey reading.openFrames done token

theorem awaitsKey_key (limit : Nat) (frames : List Frame) (done : List (Text × Json)) :
    AwaitsKey limit done ⟨frames, .key done⟩ := fun _ _ => rfl

theorem awaitsKey_firstKey (limit : Nat) (frames : List Frame) :
    AwaitsKey limit [] ⟨frames, .firstKey []⟩ := by
  intro token other
  cases token <;> first | rfl | contradiction

theorem through?_member {limit height : Nat} (key : Text) {value : Json}
    (back : ReadsBack limit (height + 1) value) {done : List (Text × Json)} {reading : Reading}
    (fits : reading.openFrames.length ≤ height) (awaits : AwaitsKey limit done reading)
    {rest : Text} (ends : Token.EndsNumeral rest) :
    through? limit (Quoted.write key ++ ':' :: (value.compact ++ rest)) reading =
      through? limit rest ⟨.members done key :: reading.openFrames, .after value⟩ := by
  have inside : (Frame.members done key :: reading.openFrames).length ≤ height + 1 :=
    Nat.succ_le_succ fits
  rw [through?_cuts (Token.cuts_quoted key _), awaits _ Token.noConfusion, beginKey,
    Option.bind_some, through?_mark .colon, step, Option.bind_some,
    back inside (awaitsValue_value limit _) ends]

theorem through?_members {limit height : Nat} {frames : List Frame} (member : Text × Json)
    (more : List (Text × Json))
    (each : ∀ entry ∈ member :: more, ReadsBack limit (height + 1) entry.2)
    (fits : frames.length ≤ height) (done : List (Text × Json))
    (ordered : Dict.Ordered (done ++ member :: more)) {reading : Reading}
    (opened : reading.openFrames = frames) (awaits : AwaitsKey limit done reading) (rest : Text) :
    through? limit (compactMembers (member :: more) ++ '}' :: rest) reading =
      through? limit rest ⟨frames, .after (.object (done ++ member :: more))⟩ := by
  induction more generalizing member done reading with
  | nil =>
    subst opened
    obtain ⟨key, value⟩ := member
    have read := through?_member key (each _ List.mem_cons_self) fits awaits
      (Token.endsNumeral_mark .closeObject rest)
    rw [compactMembers, List.append_assoc, List.cons_append, read, through?_mark .closeObject,
      step, Option.bind_some, Dict.insert_last ordered]
  | cons next more ih =>
    subst opened
    obtain ⟨key, value⟩ := member
    have read := through?_member key (each _ List.mem_cons_self) fits awaits
      (Token.endsNumeral_mark .comma (compactMembers (next :: more) ++ '}' :: rest))
    -- Members come in the order of their keys, so that storing one puts it behind the others.
    have stored : Dict.insert key value done = done ++ [(key, value)] :=
      Dict.insert_last (ordered.sublist (by simp))
    have regrouped : done ++ (key, value) :: next :: more =
        (done ++ [(key, value)]) ++ next :: more := List.append_cons _ _ _
    rw [regrouped] at ordered ⊢
    rw [compactMembers, List.append_assoc, List.cons_append, List.append_assoc, List.cons_append,
      read, through?_mark .comma, step, Option.bind_some, stored]
    · exact ih next (fun entry there => each entry (List.mem_cons_of_mem _ there)) _ ordered rfl
        (awaitsKey_key limit _ _)
    · nofun

theorem readsBack_of_floatFree {depth : Nat} {value : Json} (floatFree : FloatFree depth value)
    {limit height : Nat} (fits : height + depth ≤ limit) : ReadsBack limit height value := by
  -- What an array or object holds is read with one more of them open.
  induction floatFree generalizing height with
  | null => exact readsBack_atom limit height fun rest _ => Token.cuts_null rest
  | bool value => exact readsBack_atom limit height fun rest _ => Token.cuts_bool value rest
  | int inRange => exact readsBack_atom limit height fun rest ends => Token.cuts_int inRange ends
  | string text => exact readsBack_atom limit height fun rest _ => Token.cuts_quoted text rest
  | @array depth items each ih =>
    intro reading rest inside awaits ends
    have room : reading.openFrames.length < limit := by omega
    rw [compact, List.cons_append, List.append_assoc, List.singleton_append,
      through?_mark .openArray, awaits _ Token.noConfusion, beginValue, if_pos room,
      Option.bind_some]
    cases items with
    | nil =>
      rw [compactItems, List.nil_append, through?_mark .closeArray]
      rfl
    | cons item more =>
      exact through?_items item more (fun value member => ih value member (by omega)) inside [] rfl
        (awaitsValue_firstItem limit _) rest
  | @object depth members ordered each ih =>
    intro reading rest inside awaits ends
    have room : reading.openFrames.length < limit := by omega
    rw [compact, List.cons_append, List.append_assoc, List.singleton_append,
      through?_mark .openObject, awaits _ Token.noConfusion, beginValue, if_pos room,
      Option.bind_some]
    cases members with
    | nil =>
      rw [compactMembers, List.nil_append, through?_mark .closeObject]
      rfl
    | cons member more =>
      have opened : (⟨reading.openFrames, .firstKey []⟩ : Reading).openFrames =
          reading.openFrames := rfl
      exact through?_members member more (fun entry there => ih entry there (by omega)) inside []
        ordered opened (awaitsKey_firstKey limit _) rest

end Reading

/-- Compact text reads back as the value that it was written for. -/
theorem parse?_compact {value : Json} (floatFree : FloatFree depthLimit value) :
    parse? value.compact = some value := by
  have readsBack : Reading.ReadsBack depthLimit 0 value :=
    Reading.readsBack_of_floatFree floatFree (Nat.zero_add _).le
  have outside : Reading.start.openFrames.length ≤ 0 := Nat.le_refl 0
  have noMore : Token.EndsNumeral [] := nofun
  have back := readsBack outside (Reading.awaitsValue_value depthLimit []) noMore
  rw [List.append_nil] at back
  rw [parse?, Reading.read?_eq, back, Reading.through?, Token.scan?]
  rfl

end RoutePlan.Json

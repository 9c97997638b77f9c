import RoutePlan.Json.Quoted
import RoutePlan.Json.Numeral

/-!
Reading JSON text: the text is cut into tokens, and the tokens drive a stack of open arrays and
objects whose height is limited.
-/
namespace RoutePlan.Json

inductive Token where
  | openArray
  | closeArray
  | openObject
  | closeObject
  | comma
  | colon
  | atom (value : Json)

namespace Token

def isBlank (c : Char) : Bool := c = ' ' || c = '\t' || c = '\n' || c = '\r'

def scan? : Text → Option (List Token)
  | [] => some []
  | '[' :: rest => (scan? rest).map (.openArray :: ·)
  | ']' :: rest => (scan? rest).map (.closeArray :: ·)
  | '{' :: rest => (scan? rest).map (.openObject :: ·)
  | '}' :: rest => (scan? rest).map (.closeObject :: ·)
  | ',' :: rest => (scan? rest).map (.comma :: ·)
  | ':' :: rest => (scan? rest).map (.colon :: ·)
  | 't' :: 'r' :: 'u' :: 'e' :: rest => (scan? rest).map (.atom (.bool true) :: ·)
  | 'f' :: 'a' :: 'l' :: 's' :: 'e' :: rest => (scan? rest).map (.atom (.bool false) :: ·)
  | 'n' :: 'u' :: 'l' :: 'l' :: rest => (scan? rest).map (.atom .null :: ·)
  | '"' :: rest =>
    match h : Quoted.untilQuote? rest with
    | none => none
    | some (body, after) => do
      have := Quoted.untilQuote?_length h
      let text ← Quoted.unescape? body
      return .atom (.string text) :: (← scan? after)
  | c :: rest =>
    if isBlank c then scan? rest
    else if c.isDigit ∨ c = '-' then do
      let numeral ← Numeral.ofText? (c :: rest.takeWhile Numeral.isNumeralChar)
      let number ← numeral.number?
      return .atom (.number number) :: (← scan? (rest.dropWhile Numeral.isNumeralChar))
    else none
termination_by text => text.length
decreasing_by
  all_goals simp only [List.length_cons]
  all_goals try omega
  all_goals
    have := (List.dropWhile_suffix Numeral.isNumeralChar (l := rest)).length_le
    omega

end Token

inductive Frame where
  | items (reversed : List Json)
  | members (members : List (Text × Json)) (key : Text)

inductive Expectation where
  | value
  | firstItem
  | firstKey (members : List (Text × Json))
  | key (members : List (Text × Json))
  | colon (members : List (Text × Json)) (key : Text)
  | after (value : Json)

structure Reading where
  openFrames : List Frame
  expected : Expectation

namespace Reading

def start : Reading := ⟨[], .value⟩

def beginValue (limit : Nat) (frames : List Frame) : Token → Option Reading
  | .atom value => some ⟨frames, .after value⟩
  | .openArray =>
    if frames.length < limit then some ⟨.items [] :: frames, .firstItem⟩ else none
  | .openObject =>
    if frames.length < limit then some ⟨frames, .firstKey []⟩ else none
  | _ => none

def beginKey (frames : List Frame) (members : List (Text × Json)) : Token → Option Reading
  | .atom (.string key) => some ⟨frames, .colon members key⟩
  | _ => none

def step (limit : Nat) : Reading → Token → Option Reading
  | ⟨frames, .value⟩, token => beginValue limit frames token
  | ⟨.items [] :: frames, .firstItem⟩, .closeArray => some ⟨frames, .after (.array [])⟩
  | ⟨frames, .firstItem⟩, token => beginValue limit frames token
  | ⟨frames, .firstKey members⟩, .closeObject => some ⟨frames, .after (.object members)⟩
  | ⟨frames, .firstKey members⟩, token => beginKey frames members token
  | ⟨frames, .key members⟩, token => beginKey frames members token
  | ⟨frames, .colon members key⟩, .colon => some ⟨.members members key :: frames, .value⟩
  | ⟨.items items :: frames, .after value⟩, .comma =>
    some ⟨.items (value :: items) :: frames, .value⟩
  | ⟨.items items :: frames, .after value⟩, .closeArray =>
    some ⟨frames, .after (.array (value :: items).reverse)⟩
  | ⟨.members members key :: frames, .after value⟩, .comma =>
    some ⟨frames, .key (Dict.insert key value members)⟩
  | ⟨.members members key :: frames, .after value⟩, .closeObject =>
    some ⟨frames, .after (.object (Dict.insert key value members))⟩
  | _, _ => none

def finished? : Reading → Option Json
  | ⟨[], .after value⟩ => some value
  | _ => none

end Reading

/-- The value that the whole text writes, if at most `limit` arrays and objects stand inside one
another. -/
def read? (limit : Nat) (text : Text) : Option Json := do
  let tokens ← Token.scan? text
  (← tokens.foldlM (Reading.step limit) Reading.start).finished?

def depthLimit : Nat := 127

def parse? (text : Text) : Option Json := read? depthLimit text

end RoutePlan.Json

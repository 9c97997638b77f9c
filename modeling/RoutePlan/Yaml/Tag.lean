import RoutePlan.Text

/-!
Tags of nodes. A tag is written in bytes, and escapes can give it bytes that are no text; it ends
where the first zero byte would stand.
-/
namespace RoutePlan.Yaml

/-- The characters of a tag. Bytes that encode no character are `none`. -/
abbrev Tag := List (Option Char)

namespace Tag

def ofText (t : Text) : Tag := t.map some

def text? (tag : Tag) : Option Text := tag.mapM id

def untilZero (tag : Tag) : Tag := tag.takeWhile (· != some '\x00')

/-- The character that `more + 1` bytes of UTF-8 encode, given the bits that they carry. More bytes
than the character takes encode none. -/
def charOfBits? (more bits : Nat) : Option Char :=
  if bits.isValidChar && (Char.ofNat bits).utf8Size == more + 1 then some (Char.ofNat bits)
  else none

def ofCore (name : String) : Tag := ofText ("tag:yaml.org,2002:".toList ++ name.toList)

def null : Tag := ofCore "null"
def bool : Tag := ofCore "bool"
def int : Tag := ofCore "int"
def float : Tag := ofCore "float"

def isLocal (tag : Tag) : Bool := tag.head? == some (some '!')

def localName? (tag : Tag) : Option Text := if isLocal tag then text? (tag.drop 1) else none

end Tag
end RoutePlan.Yaml

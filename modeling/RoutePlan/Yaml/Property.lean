import RoutePlan.Yaml.Char
import RoutePlan.Yaml.Token

/-!
What may stand before a node or a document: anchors, tags and directives.
-/
namespace RoutePlan.Yaml.Property

def takeName (stream : Stream) : Text × Stream :=
  (Stream.text (stream.takeWhile fun next => isNameChar next.char),
    stream.dropWhile fun next => isNameChar next.char)

def anchorName? (stream : Stream) : Option (Text × Stream) :=
  let (name, rest) := takeName stream
  if name.isEmpty || !(Stream.atBlank rest || Stream.startsWithAny "?:,]\x7d%@`" rest) then none
  else some (name, rest)

def escapedByte? : Stream → Option (Nat × Stream)
  | percent :: high :: low :: rest =>
    if percent.char = '%' then (Text.nat? 16 [high.char, low.char]).map (·, rest) else none
  | _ => none

def continuation? : Nat → Nat → Stream → Option (Nat × Stream)
  | 0, bits, stream => some (bits, stream)
  | more + 1, bits, stream => do
    let (byte, rest) ← escapedByte? stream
    if byte / 0x40 = 2 then continuation? more (bits * 0x40 + byte % 0x40) rest else none

def escapedChar? (stream : Stream) : Option (Option Char × Stream) := do
  let (byte, rest) ← escapedByte? stream
  let (more, first) ←
    if byte < 0x80 then some (0, byte)
    else if byte / 0x20 = 6 then some (1, byte % 0x20)
    else if byte / 0x10 = 14 then some (2, byte % 0x10)
    else if byte / 8 = 30 then some (3, byte % 8)
    else none
  let (bits, rest) ← continuation? more first rest
  return (Tag.charOfBits? more bits, rest)

def isTagChar (verbatim : Bool) (c : Char) : Bool :=
  isNameChar c || ";/?:@&=+$.%!~*'()".toList.contains c || (verbatim && ",[]".toList.contains c)

def tagChars? (verbatim : Bool) : Nat → Stream → Option (Tag × Stream)
  | 0, _ => none
  | _ + 1, [] => some ([], [])
  | fuel + 1, next :: rest =>
    if !isTagChar verbatim next.char then some ([], next :: rest)
    else do
      let (c, after) ←
        if next.char = '%' then escapedChar? (next :: rest) else some (some next.char, rest)
      let (chars, after) ← tagChars? verbatim fuel after
      return (c :: chars, after)

def tagHandle? : Stream → Option (Text × Stream)
  | mark :: rest =>
    if mark.char ≠ '!' then none
    else
      let (name, after) := takeName rest
      if Stream.startsWith '!' after then some ('!' :: name ++ ['!'], after.drop 1)
      else some ('!' :: name, after)
  | [] => none

def isNamedHandle (handle : Text) : Bool := 2 ≤ handle.length && handle.getLast? == some '!'

/-- A tag as its handle and suffix. A verbatim tag has no handle, and neither has a lone mark. -/
def tag? (inFlow : Bool) (stream : Stream) : Option (Token × Stream) := do
  let fuel := stream.length + 1
  let (handle, suffix, rest) ←
    if Stream.startsWith '<' (stream.drop 1) then do
      let (suffix, rest) ← tagChars? true fuel (stream.drop 2)
      if suffix.isEmpty || !Stream.startsWith '>' rest then none
      else some ([], suffix.untilZero, rest.drop 1)
    else do
      let (handle, rest) ← tagHandle? stream
      let (suffix, rest) ← tagChars? false fuel rest
      let name := Tag.ofText (handle.drop 1) ++ suffix.untilZero
      if isNamedHandle handle then
        if suffix.isEmpty then none else some (handle, suffix.untilZero, rest)
      else if name.isEmpty then some ([], Tag.ofText ['!'], rest)
      else some (['!'], name, rest)
  if (inFlow && Stream.startsWith ',' rest) || Stream.atBlank rest then
    return (.tag handle suffix, rest)
  else none

def versionNumber? (stream : Stream) : Option (Nat × Stream) := do
  let digits := Stream.text (stream.takeWhile fun next => next.char.isDigit)
  if digits.length > 9 then none
  else return (← Text.nat? 10 digits, stream.dropWhile fun next => next.char.isDigit)

def versionDirective? (stream : Stream) : Option (Token × Stream) := do
  let (major, rest) ← versionNumber? (Stream.dropBlanks stream)
  if !Stream.startsWith '.' rest then none
  let (minor, rest) ← versionNumber? (rest.drop 1)
  return (.version major minor, rest)

def tagDirective? (stream : Stream) : Option (Token × Stream) := do
  let (handle, rest) ← tagHandle? (Stream.dropBlanks stream)
  if rest.isEmpty || !Stream.startsWithAny " \t" rest || !(isNamedHandle handle || handle = ['!'])
  then none
  let (expansion, rest) ← tagChars? true (rest.length + 1) (Stream.dropBlanks rest)
  if expansion.isEmpty || !Stream.atBlank rest then none
  return (.tagHandle handle expansion.untilZero, rest)

def directive? (stream : Stream) : Option (Token × Stream) := do
  let (name, rest) := takeName stream
  if !Stream.atBlank rest then none
  let (token, rest) ←
    if name = "YAML".toList then versionDirective? rest
    else if name = "TAG".toList then tagDirective? rest
    else none
  return (token, ← Stream.finishLine? rest)

end RoutePlan.Yaml.Property

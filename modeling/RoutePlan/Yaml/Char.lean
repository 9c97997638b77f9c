import RoutePlan.Text

/-!
The characters of a YAML stream with their places in it. Line breaks come in several spellings and
are made one character here, so that everything above sees a break as one step.
-/
namespace RoutePlan.Yaml

def isAllowed (c : Char) : Bool :=
  let n := c.toNat
  n == 0x09 || n == 0x0A || n == 0x0D || (0x20 ≤ n && n ≤ 0x7E) || n == 0x85 ||
    (0xA0 ≤ n && n ≤ 0xD7FF) || (0xE000 ≤ n && n ≤ 0xFFFD) || 0x10000 ≤ n

def lineSeparator : Char := '\u2028'
def paragraphSeparator : Char := '\u2029'
def nextLine : Char := '\u0085'
def byteOrderMark : Char := '\ufeff'

def isBreak (c : Char) : Bool := c = '\n' || c = lineSeparator || c = paragraphSeparator

def isBlank (c : Char) : Bool := c = ' ' || c = '\t'

def isNameChar (c : Char) : Bool := Text.isWordChar c || c = '-'

structure Located where
  char : Char
  line : Nat
  column : Nat
  offset : Nat

abbrev Stream := List Located

namespace Stream

def locateFrom (line column offset : Nat) : Text → Stream
  | [] => []
  | '\r' :: '\n' :: rest =>
    ⟨'\n', line, column, offset⟩ :: locateFrom (line + 1) 0 (offset + 2) rest
  | c :: rest =>
    let next := offset + c.utf8Size
    if c = '\r' || c = nextLine || c = '\n' then
      ⟨'\n', line, column, offset⟩ :: locateFrom (line + 1) 0 next rest
    else if isBreak c then ⟨c, line, column, offset⟩ :: locateFrom (line + 1) 0 next rest
    else ⟨c, line, column, offset⟩ :: locateFrom line (column + 1) next rest

def locate (text : Text) : Stream := locateFrom 0 0 0 text

def text (stream : Stream) : Text := stream.map (·.char)

def startsWith (c : Char) (stream : Stream) : Bool := stream.head?.any (·.char = c)

def startsWithAny (chars : String) (stream : Stream) : Bool :=
  stream.head?.any fun next => chars.toList.contains next.char

def atBreak (stream : Stream) : Bool := stream.head?.all fun next => isBreak next.char

def atBlank (stream : Stream) : Bool :=
  stream.head?.all fun next => isBlank next.char || isBreak next.char

def dropBlanks (stream : Stream) : Stream := stream.dropWhile fun next => isBlank next.char

def finishLine? (stream : Stream) : Option Stream :=
  let stream := dropBlanks stream
  let stream :=
    if startsWith '#' stream then stream.dropWhile fun next => !isBreak next.char else stream
  if atBreak stream then some (stream.drop 1) else none

/-- Three marks at the start of a line with a blank after them. -/
def atDocumentMark (mark : Char) : Stream → Bool
  | a :: b :: c :: rest =>
    a.column == 0 && a.char == mark && b.char == mark && c.char == mark && atBlank rest
  | _ => false

def atAnyDocumentMark (stream : Stream) : Bool :=
  atDocumentMark '-' stream || atDocumentMark '.' stream

end Stream
end RoutePlan.Yaml

import RoutePlan.Yaml.Property
import RoutePlan.Yaml.Scalar

/-!
The tokens of a YAML text. The lexer keeps the indentation of the open blocks, and for each level of
flow collections the place where a key without a mark may have begun: the mark for it is put in
when its colon is found.
-/
namespace RoutePlan.Yaml

/-- A place where a key may begin, and how many tokens came before it. A required key has to turn
out to be one. -/
structure KeyStart where
  place : Located
  tokensBefore : Nat
  required : Bool

structure Lexer where
  stream : Stream
  tokens : Array Token
  indent : Int
  outerIndents : List Int
  flowDepth : Nat
  keyAllowed : Bool
  keyStart : Option KeyStart
  outerKeyStarts : List (Option KeyStart)

namespace Lexer

def start (stream : Stream) : Lexer :=
  { stream, tokens := #[], indent := -1, outerIndents := [], flowDepth := 0, keyAllowed := true
    keyStart := none, outerKeyStarts := [] }

def inFlow (lexer : Lexer) : Bool := lexer.flowDepth != 0

def advance (token : Token) (rest : Stream) (lexer : Lexer) : Lexer :=
  { lexer with tokens := lexer.tokens.push token, stream := rest }

def allowKey (allowed : Bool) (lexer : Lexer) : Lexer := { lexer with keyAllowed := allowed }

/-- Passes over blanks, comments and breaks. In a block a new line may begin with a key, and a tab
may not stand where a key may begin. -/
def skipFrom (inFlow keyAllowed inComment : Bool) : Stream → Bool × Stream
  | [] => (keyAllowed, [])
  | next :: rest =>
    if isBreak next.char then skipFrom inFlow (keyAllowed || !inFlow) false rest
    else if inComment || next.char = ' ' || ((inFlow || !keyAllowed) && next.char = '\t') ||
        (next.column = 0 && next.char = byteOrderMark) then
      skipFrom inFlow keyAllowed inComment rest
    else if next.char = '#' then skipFrom inFlow keyAllowed true rest
    else (keyAllowed, next :: rest)

def skip (lexer : Lexer) : Lexer :=
  let (keyAllowed, stream) := skipFrom lexer.inFlow lexer.keyAllowed false lexer.stream
  { lexer with keyAllowed, stream }

/-- How many bytes a key without a mark may take, with all that stands before its colon. -/
def keyLimit : Nat := 1024

def expired (here : Located) (start : KeyStart) : Bool :=
  start.place.line < here.line || start.place.offset + keyLimit < here.offset

def expireStart? (here : Located) : Option KeyStart → Option (Option KeyStart)
  | some start =>
    if expired here start then (if start.required then none else some none) else some (some start)
  | none => some none

def expireKeys? (here : Located) (lexer : Lexer) : Option Lexer := do
  return { lexer with
    keyStart := ← expireStart? here lexer.keyStart
    outerKeyStarts := ← lexer.outerKeyStarts.mapM (expireStart? here) }

def dropKey? (lexer : Lexer) : Option Lexer :=
  match lexer.keyStart with
  | some start => if start.required then none else some { lexer with keyStart := none }
  | none => some lexer

/-- A key may begin here. It has to be one where the innermost block is indented to this column. -/
def noteKey? (here : Located) (lexer : Lexer) : Option Lexer :=
  if lexer.keyAllowed then do
    let lexer ← lexer.dropKey?
    let required := !lexer.inFlow && lexer.indent == (here.column : Int)
    return { lexer with keyStart := some ⟨here, lexer.tokens.size, required⟩ }
  else some lexer

/-- Opens a block at a column that is deeper than the innermost one, its token at a given place. -/
def openBlock (token : Token) (column : Nat) (tokensBefore : Nat) (lexer : Lexer) : Lexer :=
  if lexer.inFlow || (column : Int) ≤ lexer.indent then lexer
  else { lexer with
    tokens := lexer.tokens.insertIdxIfInBounds tokensBefore token
    indent := column
    outerIndents := lexer.indent :: lexer.outerIndents }

def closedBlocks (column : Int) (indent : Int) : List Int → Nat × Int × List Int
  | [] => (0, indent, [])
  | outer :: more =>
    if column < indent then
      let (closed, rest) := closedBlocks column outer more
      (closed + 1, rest)
    else (0, indent, outer :: more)

def closeBlocks (column : Int) (lexer : Lexer) : Lexer :=
  if lexer.inFlow then lexer
  else
    let (closed, indent, outerIndents) := closedBlocks column lexer.indent lexer.outerIndents
    { lexer with
      tokens := lexer.tokens ++ Array.replicate closed .blockEnd
      indent, outerIndents }

def endBlocks? (lexer : Lexer) : Option Lexer :=
  (lexer.closeBlocks (-1)).dropKey?.map (allowKey false)

def openFlow? (token : Token) (here : Located) (rest : Stream) (lexer : Lexer) : Option Lexer := do
  let lexer ← lexer.noteKey? here
  return { lexer.advance token rest with
    flowDepth := lexer.flowDepth + 1
    keyAllowed := true
    keyStart := none
    outerKeyStarts := lexer.keyStart :: lexer.outerKeyStarts }

def closeFlow? (token : Token) (rest : Stream) (lexer : Lexer) : Option Lexer := do
  let lexer := ((← lexer.dropKey?).advance token rest).allowKey false
  return match lexer.outerKeyStarts with
    | [] => lexer
    | keyStart :: outerKeyStarts =>
      { lexer with flowDepth := lexer.flowDepth - 1, keyStart, outerKeyStarts }

def flowEntry? (rest : Stream) (lexer : Lexer) : Option Lexer := do
  return ((← lexer.dropKey?).advance .flowEntry rest).allowKey true

def blockIndicator? (opening : Token) (here : Located) (lexer : Lexer) : Option Lexer :=
  if lexer.inFlow then some lexer
  else if lexer.keyAllowed then some (lexer.openBlock opening here.column lexer.tokens.size)
  else none

def blockEntry? (here : Located) (rest : Stream) (lexer : Lexer) : Option Lexer := do
  let lexer ← (← lexer.blockIndicator? .blockSequenceStart here).dropKey?
  return (lexer.advance .blockEntry rest).allowKey true

def key? (here : Located) (rest : Stream) (lexer : Lexer) : Option Lexer := do
  let lexer ← (← lexer.blockIndicator? .blockMappingStart here).dropKey?
  return (lexer.advance .key rest).allowKey !lexer.inFlow

/-- A colon. If a key may have begun on this line, its mark is put before it; a block mapping
opens there if need be, and no other key may follow on the line. -/
def value? (here : Located) (rest : Stream) (lexer : Lexer) : Option Lexer :=
  match lexer.keyStart with
  | some start =>
    let marked := { lexer with
      tokens := lexer.tokens.insertIdxIfInBounds start.tokensBefore .key
      keyStart := none }
    let opened := marked.openBlock .blockMappingStart start.place.column start.tokensBefore
    some ((opened.advance .value rest).allowKey false)
  | none => do
    let lexer ← lexer.blockIndicator? .blockMappingStart here
    return (lexer.advance .value rest).allowKey !lexer.inFlow

def node? (here : Located) (read : Option (Token × Stream)) (lexer : Lexer) : Option Lexer := do
  let lexer ← lexer.noteKey? here
  let (token, rest) ← read
  return (lexer.advance token rest).allowKey false

def plain? (here : Located) (lexer : Lexer) : Option Lexer := do
  let lexer ← lexer.noteKey? here
  let (text, broken, rest) ←
    Scalar.plain? lexer.inFlow (lexer.indent + 1) (lexer.stream.length + 1) lexer.stream
  return (lexer.advance (.scalar .plain text) rest).allowKey broken

def block? (style : Style) (rest : Stream) (lexer : Lexer) : Option Lexer := do
  let lexer ← lexer.dropKey?
  let (text, rest) ← Scalar.block? style lexer.indent rest
  return (lexer.advance (.scalar style text) rest).allowKey true

def indicators : String := "-?:,[]\x7b\x7d#&*!|>'\"%@`"

def beginsPlain (inFlow : Bool) (c : Char) (rest : Stream) : Bool :=
  !(isBlank c || isBreak c || indicators.toList.contains c) ||
    (c = '-' && !Stream.startsWithAny " \t" rest) ||
    (!inFlow && (c = '?' || c = ':') && !Stream.atBlank rest)

def fetch? (here : Located) (rest : Stream) (lexer : Lexer) : Option Lexer :=
  let stream := here :: rest
  let c := here.char
  let indicates := lexer.inFlow || Stream.atBlank rest
  if here.column = 0 && c = '%' then do
    let lexer ← lexer.endBlocks?
    let (token, rest) ← Property.directive? rest
    return lexer.advance token rest
  else if Stream.atDocumentMark '-' stream then
    lexer.endBlocks?.map (advance .documentStart (stream.drop 3))
  else if Stream.atDocumentMark '.' stream then
    lexer.endBlocks?.map (advance .documentEnd (stream.drop 3))
  else if c = '[' then lexer.openFlow? .flowSequenceStart here rest
  else if c = '{' then lexer.openFlow? .flowMappingStart here rest
  else if c = ']' then lexer.closeFlow? .flowSequenceEnd rest
  else if c = '}' then lexer.closeFlow? .flowMappingEnd rest
  else if c = ',' then lexer.flowEntry? rest
  else if c = '-' && Stream.atBlank rest then lexer.blockEntry? here rest
  else if c = '?' && indicates then lexer.key? here rest
  else if c = ':' && indicates then lexer.value? here rest
  else if c = '*' then
    lexer.node? here ((Property.anchorName? rest).map fun (name, after) => (.alias name, after))
  else if c = '&' then
    lexer.node? here ((Property.anchorName? rest).map fun (name, after) => (.anchor name, after))
  else if c = '!' then lexer.node? here (Property.tag? lexer.inFlow stream)
  else if c = '|' && !lexer.inFlow then lexer.block? .literal rest
  else if c = '>' && !lexer.inFlow then lexer.block? .folded rest
  else if c = '\'' || c = '"' then
    lexer.node? here ((Scalar.quoted? c (rest.length + 1) rest).map
      fun (text, after) => (.scalar .quoted text, after))
  else if beginsPlain lexer.inFlow c rest then lexer.plain? here
  else none

/-- Every token takes at least one character, so that the length of the stream is fuel enough. -/
def run? : Nat → Lexer → Option Lexer
  | 0, _ => none
  | fuel + 1, lexer =>
    let lexer := lexer.skip
    match lexer.stream with
    | [] => lexer.endBlocks?
    | here :: rest => do
      let lexer := (← lexer.expireKeys? here).closeBlocks here.column
      run? fuel (← lexer.fetch? here rest)

end Lexer

def Token.scan? (text : Text) : Option (List Token) :=
  if text.all isAllowed then
    let stream := Stream.locate text
    ((Lexer.start stream).run? (stream.length + 1)).map (·.tokens.toList)
  else none

end RoutePlan.Yaml

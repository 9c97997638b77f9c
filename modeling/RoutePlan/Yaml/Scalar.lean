import RoutePlan.Yaml.Char
import RoutePlan.Yaml.Token

/-!
The text of scalars: plain, in single or double quotes, and in indented blocks. Line breaks inside a
scalar are folded, in a way of its own for each of them.
-/
namespace RoutePlan.Yaml

structure Gap where
  blanks : Text
  breaks : Text

namespace Gap

def isEmpty (gap : Gap) : Bool := gap.blanks.isEmpty && gap.breaks.isEmpty

def fold (gap : Gap) : Text :=
  match gap.breaks with
  | [] => gap.blanks
  | ['\n'] => [' ']
  | '\n' :: more => more
  | breaks => breaks

/-- Reads blanks and breaks. Behind a break the blanks of a line are dropped, and a tab before the
column `indent` is not allowed. Both accumulators are reversed. -/
def read? (indent : Int) (broken : Bool) (blanks breaks : Text) : Stream → Option (Gap × Stream)
  | [] => some (⟨blanks.reverse, breaks.reverse⟩, [])
  | next :: rest =>
    if isBreak next.char then read? indent true [] (next.char :: breaks) rest
    else if isBlank next.char then
      if !broken then read? indent broken (next.char :: blanks) breaks rest
      else if next.char = '\t' && (next.column : Int) < indent then none
      else read? indent broken blanks breaks rest
    else some (⟨blanks.reverse, breaks.reverse⟩, next :: rest)

end Gap

namespace Scalar

def plainRun? (inFlow : Bool) : Stream → Option (Text × Stream)
  | [] => some ([], [])
  | next :: rest =>
    if Stream.atBlank [next] then some ([], next :: rest)
    else if inFlow && next.char = ':' && Stream.startsWithAny ",?[]\x7b\x7d" rest then none
    else if (next.char = ':' && Stream.atBlank rest) ||
        (inFlow && Stream.startsWithAny ",[]\x7b\x7d" [next]) then some ([], next :: rest)
    else (plainRun? inFlow rest).map fun (run, after) => (next.char :: run, after)

/-- A plain scalar goes on over lines that are indented at least to `indent`. The result tells
whether a break was passed behind it. -/
def plain? (inFlow : Bool) (indent : Int) : Nat → Stream → Option (Text × Bool × Stream)
  | 0, _ => none
  | fuel + 1, stream => do
    let (run, afterRun) ← plainRun? inFlow stream
    if run.isEmpty then return ([], false, stream)
    let (gap, next) ← Gap.read? indent false [] [] afterRun
    let ended := (run, !gap.breaks.isEmpty, next)
    match next with
    | [] => return ended
    | first :: _ =>
      if gap.isEmpty || (!inFlow && (first.column : Int) < indent) ||
          Stream.atAnyDocumentMark next || first.char = '#' then return ended
      else
        let (more, broken, after) ← plain? inFlow indent fuel next
        return if more.isEmpty then ended else (run ++ gap.fold ++ more, broken, after)

def singleRun : Stream → Text × Stream
  | [] => ([], [])
  | [next] => if next.char = '\'' || Stream.atBlank [next] then ([], [next]) else ([next.char], [])
  | next :: second :: rest =>
    if next.char = '\'' && second.char = '\'' then
      let (run, after) := singleRun rest
      ('\'' :: run, after)
    else if next.char = '\'' || Stream.atBlank [next] then ([], next :: second :: rest)
    else
      let (run, after) := singleRun (second :: rest)
      (next.char :: run, after)

def letterEscapes : List (Char × Char) :=
  [('0', '\x00'), ('a', '\x07'), ('b', '\x08'), ('t', '\t'), ('\t', '\t'), ('n', '\n'),
    ('v', '\x0b'), ('f', '\x0c'), ('r', '\r'), ('e', '\x1b'), (' ', ' '), ('"', '"'),
    ('/', '/'), ('\\', '\\'), ('N', nextLine), ('_', '\u00a0'), ('L', lineSeparator),
    ('P', paragraphSeparator)]

def codeEscapes : List (Char × Nat) := [('x', 2), ('u', 4), ('U', 8)]

def charOfCode? (code : Nat) : Option Char :=
  if code.isValidChar then some (Char.ofNat code) else none

def escape? (letter : Char) (stream : Stream) : Option (Char × Stream) :=
  match letterEscapes.lookup letter, codeEscapes.lookup letter with
  | some c, _ => some (c, stream)
  | none, some width => do
    if stream.length < width then none
    let code ← Text.nat? 16 (Stream.text (stream.take width))
    return (← charOfCode? code, stream.drop width)
  | none, none => none

def doubleRun? : Nat → Stream → Option (Text × Bool × Stream)
  | 0, _ => none
  | _ + 1, [] => some ([], false, [])
  | fuel + 1, next :: rest => do
    if next.char = '"' || Stream.atBlank [next] then return ([], false, next :: rest)
    if next.char = '\\' then
      match rest with
      | [] => none
      | letter :: more =>
        if isBreak letter.char then return ([], true, more)
        let (c, after) ← escape? letter.char more
        let (run, joined, after) ← doubleRun? fuel after
        return (c :: run, joined, after)
    else
      let (run, joined, after) ← doubleRun? fuel rest
      return (next.char :: run, joined, after)

def quoted? (quote : Char) : Nat → Stream → Option (Text × Stream)
  | 0, _ => none
  | fuel + 1, stream => do
    if Stream.atAnyDocumentMark stream || stream.isEmpty then none
    let (run, joined, afterRun) ←
      if quote = '"' then doubleRun? (stream.length + 1) stream
      else
        let (run, after) := singleRun stream
        some (run, false, after)
    if Stream.startsWith quote afterRun then return (run, afterRun.drop 1)
    let (gap, next) ← Gap.read? 0 joined [] [] afterRun
    let (more, after) ← quoted? quote fuel next
    return (run ++ (if joined then gap.breaks else gap.fold) ++ more, after)

inductive Chomping where
  | strip
  | clip
  | keep
  deriving DecidableEq

def chomping? : Stream → Option (Chomping × Stream)
  | next :: rest =>
    if next.char = '-' then some (.strip, rest)
    else if next.char = '+' then some (.keep, rest)
    else none
  | [] => none

def increment? : Stream → Option (Nat × Stream)
  | next :: rest =>
    if next.char.isDigit then
      if next.char = '0' then none else some (next.char.toNat - '0'.toNat, rest)
    else some (0, next :: rest)
  | [] => some (0, [])

def blockHeader? (stream : Stream) : Option (Chomping × Nat × Stream) :=
  match chomping? stream with
  | some (chomping, rest) => (increment? rest).map fun (n, after) => (chomping, n, after)
  | none => (increment? stream).map fun (n, after) =>
    match chomping? after with
    | some (chomping, rest) => (chomping, n, rest)
    | none => (.clip, n, after)

/-- Empty lines before the next line of a block. An indentation of zero is still to be found: it is
the deepest column reached, and at least `least`. -/
def blockBreaks? (least indent deepest : Nat) (breaks : Text) :
    Stream → Option (Nat × Text × Stream)
  | [] => some (if indent = 0 then max deepest least else indent, breaks.reverse, [])
  | next :: rest =>
    let before := indent = 0 || next.column < indent
    if before && next.char = ' ' then blockBreaks? least indent deepest breaks rest
    else if before && next.char = '\t' then none
    else
      let deepest := max deepest next.column
      if isBreak next.char then blockBreaks? least indent deepest (next.char :: breaks) rest
      else some (if indent = 0 then max deepest least else indent, breaks.reverse, next :: rest)

def blockLines? (style : Style) (indent : Nat) (previousBreak breaks : Text)
    (previousBlank : Bool) : Nat → Stream → Option (Text × Text × Text × Stream)
  | 0, _ => none
  | fuel + 1, stream =>
    match stream with
    | [] => some ([], previousBreak, breaks, [])
    | first :: _ =>
      if first.column ≠ indent then some ([], previousBreak, breaks, stream)
      else do
        let beginsBlank := isBlank first.char
        let folds := style = .folded && previousBreak = ['\n'] && !previousBlank && !beginsBlank
        let joint :=
          if folds then (if breaks.isEmpty then [' '] else breaks) else previousBreak ++ breaks
        let line := stream.takeWhile fun next => !isBreak next.char
        let after := stream.dropWhile fun next => !isBreak next.char
        let (_, nextBreaks, next) ← blockBreaks? 0 indent 0 [] (after.drop 1)
        let (more, lastBreak, lastBreaks, rest) ←
          blockLines? style indent (Stream.text (after.take 1)) nextBreaks beginsBlank fuel next
        return (joint ++ Stream.text line ++ more, lastBreak, lastBreaks, rest)

def block? (style : Style) (parent : Int) (stream : Stream) : Option (Text × Stream) := do
  let (chomping, increment, rest) ← blockHeader? stream
  let rest ← Stream.finishLine? rest
  let given := if increment = 0 then 0 else (max parent 0).toNat + increment
  let (indent, breaks, rest) ← blockBreaks? (max (parent + 1) 1).toNat given 0 [] rest
  let (text, lastBreak, lastBreaks, rest) ←
    blockLines? style indent [] breaks false (rest.length + 1) rest
  let tail := match chomping with
    | .strip => []
    | .clip => lastBreak
    | .keep => lastBreak ++ lastBreaks
  return (text ++ tail, rest)

end Scalar
end RoutePlan.Yaml

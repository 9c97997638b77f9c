import RoutePlan.CommandLine

/-!
The program: it reads the file that an invocation needs, prints the result or the failure, and tells
by its exit code which of them it was.
-/
namespace RoutePlan.CommandLine

def contents? (path : Text) : IO (Option Text) := do
  try
    return some (← IO.FS.readFile (String.ofList path)).toList
  catch _ =>
    return none

def usageText : String :=
  "Usage: bind TEMPLATE [NAME=VALUE]... [--keep-trailing-slashes]\n" ++
  "       slots TEMPLATE\n" ++
  "       plan [-r FILE] [-d JSON] RESOURCE ACTION [NAME=VALUE]..."

def execute (arguments : List Text) : IO UInt32 := do
  match Invocation.parse arguments with
  | .error .help =>
    IO.println usageText
    return 0
  | .error .usage =>
    IO.eprintln usageText
    return 2
  | .ok invocation =>
    let contents ← match invocation.routes? with
      | some path => contents? path
      | none => pure none
    let outcome := invocation.outcome fun _ => contents
    if outcome.exitCode = 0 then IO.println (String.ofList outcome.text)
    else IO.eprintln ("Error: " ++ String.ofList outcome.text)
    return outcome.exitCode

end RoutePlan.CommandLine

def main (arguments : List String) : IO UInt32 :=
  RoutePlan.CommandLine.execute (arguments.map String.toList)

import RoutePlan.Text

/-!
Arguments of a command: switches, options with a value, and positional arguments in between.
-/
namespace RoutePlan.CommandLine

inductive Argument where
  | positional (text : Text)
  | endOfOptions
  | long (name : Text) (attached : Option Text)
  | short (letter : Char) (attached : Text)
  deriving DecidableEq

def Argument.ofText : Text → Argument
  | ['-', '-'] => .endOfOptions
  | '-' :: '-' :: rest =>
    match Text.cutAt? '=' rest with
    | some (name, value) => .long name (some value)
    | none => .long rest none
  | '-' :: letter :: attached => .short letter attached
  | text => .positional text

inductive Refusal where
  | help
  | usage
  deriving DecidableEq

structure Signature where
  switches : List Text
  options : List (Char × Text)
  mostPositionals : Option Nat

structure Arguments where
  positionals : List Text := []
  switches : List Text := []
  options : List (Text × Text) := []

namespace Arguments

def option? (arguments : Arguments) (name : Text) : Option Text := arguments.options.lookup name

def hasSwitch (arguments : Arguments) (name : Text) : Bool := arguments.switches.contains name

def addPositional (signature : Signature) (arguments : Arguments) (text : Text) :
    Except Refusal Arguments :=
  if signature.mostPositionals.all (arguments.positionals.length < ·) then
    .ok { arguments with positionals := arguments.positionals ++ [text] }
  else .error .usage

def addSwitch (arguments : Arguments) (name : Text) (attached : Option Text) :
    Except Refusal Arguments :=
  if attached.isNone ∧ ¬ arguments.hasSwitch name then
    .ok { arguments with switches := name :: arguments.switches }
  else .error .usage

def addOption (arguments : Arguments) (name value : Text) : Except Refusal Arguments :=
  if (arguments.option? name).isNone then
    .ok { arguments with options := (name, value) :: arguments.options }
  else .error .usage

def helpLetter : Char := 'h'
def helpName : Text := "help".toList

def attachedValue? : Text → Option Text
  | [] => none
  | '=' :: value => some value
  | value => some value

def namedOption? (signature : Signature) : Argument → Option (Text × Option Text)
  | .long name attached =>
    if signature.options.any (·.2 = name) then some (name, attached) else none
  | .short letter attached =>
    (signature.options.lookup letter).map fun name => (name, attachedValue? attached)
  | _ => none

def addOther (signature : Signature) (arguments : Arguments) : Argument → Except Refusal Arguments
  | .long name attached =>
    if name = helpName then .error (if attached.isNone then .help else .usage)
    else if signature.switches.contains name then arguments.addSwitch name attached
    else .error .usage
  | .short letter _ => .error (if letter = helpLetter then .help else .usage)
  | _ => .error .usage

/-- Goes through the arguments one by one, so that the first fault or plea for help decides. The
value of an option is attached to it or the next argument, if that looks like a positional one. -/
def collect (signature : Signature) (found : Arguments) : List Text → Except Refusal Arguments
  | [] => .ok found
  | argument :: rest =>
    match Argument.ofText argument with
    | .positional text => do collect signature (← found.addPositional signature text) rest
    | .endOfOptions => rest.foldlM (addPositional signature) found
    | other =>
      match namedOption? signature other with
      | some (name, some value) => do collect signature (← found.addOption name value) rest
      | some (name, none) =>
        match rest with
        | [] => .error .usage
        | next :: after =>
          match Argument.ofText next with
          | .positional value => do collect signature (← found.addOption name value) after
          | _ => .error .usage
      | none => do collect signature (← found.addOther signature other) rest

end Arguments
end RoutePlan.CommandLine

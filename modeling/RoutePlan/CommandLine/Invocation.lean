import RoutePlan.CommandLine.Arguments

/-!
Invocations: a command with the arguments that it needs.
-/
namespace RoutePlan.CommandLine

inductive Invocation where
  | bind (template : Text) (assignments : List Text) (keepTrailingSlashes : Bool)
  | slots (template : Text)
  | plan (routes resource action : Text) (assignments : List Text) (data : Option Text)
  deriving DecidableEq

inductive Command where
  | bind
  | slots
  | plan
  deriving DecidableEq

namespace Command

def all : List Command := [.bind, .slots, .plan]

def name : Command → Text
  | .bind => "bind".toList
  | .slots => "slots".toList
  | .plan => "plan".toList

def ofName? (name : Text) : Option Command := all.find? (·.name = name)

def keepTrailingSlashes : Text := "keep-trailing-slashes".toList
def routes : Text := "routes".toList
def data : Text := "data".toList

def defaultRoutes : Text := "resources.yml".toList

def signature : Command → Signature
  | .bind => { switches := [keepTrailingSlashes], options := [], mostPositionals := none }
  | .slots => { switches := [], options := [], mostPositionals := some 1 }
  | .plan => { switches := [], options := [('r', routes), ('d', data)], mostPositionals := none }

def invocation? (command : Command) (arguments : Arguments) : Option Invocation :=
  match command, arguments.positionals with
  | .bind, template :: assignments =>
    some (.bind template assignments (arguments.hasSwitch keepTrailingSlashes))
  | .slots, [template] => some (.slots template)
  | .plan, resource :: action :: assignments =>
    some (.plan ((arguments.option? routes).getD defaultRoutes) resource action assignments
      (arguments.option? data))
  | _, _ => none

end Command

namespace Invocation

def refusal (name : Text) (rest : List Text) : Refusal :=
  match Argument.ofText name with
  | .long long none => if long = Arguments.helpName then .help else .usage
  | .short letter _ => if letter = Arguments.helpLetter then .help else .usage
  | .positional word =>
    if word ≠ Arguments.helpName then .usage
    else match rest with
      | [] => .help
      | [topic] =>
        if topic = Arguments.helpName ∨ (Command.ofName? topic).isSome then .help else .usage
      | _ => .usage
  | _ => .usage

def parse : List Text → Except Refusal Invocation
  | [] => .error .usage
  | name :: rest =>
    match Command.ofName? name with
    | none => .error (refusal name rest)
    | some command => do
      let arguments ← Arguments.collect command.signature {} rest
      match command.invocation? arguments with
      | some invocation => return invocation
      | none => throw .usage

def routes? : Invocation → Option Text
  | .plan routes _ _ _ _ => some routes
  | _ => none

end Invocation
end RoutePlan.CommandLine

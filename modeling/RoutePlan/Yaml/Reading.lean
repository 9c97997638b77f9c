import RoutePlan.Yaml.Document
import RoutePlan.Yaml.Meaning

/-!
Reading a document: following aliases, and taking nodes as texts, as lists, as mappings and as JSON
values. Aliases may lead back into the nodes that hold them, so that the depth of a value and the
number of aliases followed are both limited.
-/
namespace RoutePlan.Yaml

/-- A step of reading a document. The state counts the aliases that may still be followed. -/
abbrev Reading := ReaderT Document (StateT Nat Option)

namespace Reading

def depthLimit : Nat := 128

/-- How many aliases may be followed for each step that it takes to walk the document. -/
def aliasesPerStep : Nat := 100

def require {α : Type} (value? : Option α) : Reading α :=
  match value? with
  | some value => pure value
  | none => failure

def follow : Node → Reading Node
  | .alias anchor => do
    match ← get with
    | 0 => failure
    | left + 1 =>
      set left
      require ((← read).anchored? anchor)
  | node => pure node

def text (node : Node) : Reading Text := do
  match ← follow node with
  | .scalar _ _ text => return text
  | _ => failure

def items (node : Node) : Reading (List Node) := do
  match ← follow node with
  | .sequence _ items => return items
  | .scalar _ .plain [] => return []
  | _ => failure

def entries (node : Node) : Reading (List (Node × Node)) := do
  match ← follow node with
  | .mapping _ entries => return entries
  | .scalar _ .plain [] => return []
  | _ => failure

def fields (node : Node) : Reading (List (Text × Node)) := do
  (← entries node).mapM fun (key, value) => return (← text key, value)

def field? (fields : List (Text × Node)) (key : Text) : Reading (Option Node) :=
  match fields.filter (·.1 = key) with
  | [] => pure none
  | [(_, value)] => pure (some value)
  | _ => failure

def fieldOr {α : Type} (fields : List (Text × Node)) (key : Text) (missing : Reading α)
    (read : Node → Reading α) : Reading α := do
  match ← field? fields key with
  | some node => read node
  | none => missing

def dict {α : Type} (read : Node → Reading α) (node : Node) : Reading (OrderedDict α) := do
  return .ofList (← (← fields node).mapM fun (key, value) => return (key, ← read value))

inductive KeyRule where
  | scalar
  | string

def key (rule : KeyRule) (node : Node) : Reading Text := do
  match rule, ← follow node with
  | .scalar, .scalar _ _ text => return text
  | .string, .scalar tag style text =>
    match Meaning.scalar? tag style text with
    | some (.string text) => return text
    | _ => failure
  | _, _ => failure

def refuseLocal (tag : Option Tag) : Reading Unit :=
  if (tag.bind Tag.localName?).isSome then failure else pure ()

/-- The JSON value of a node, inside which collections may stand as deep as the number says. -/
def json (rule : KeyRule) : Nat → Node → Reading Json
  | 0, node => do
    match ← follow node with
    | .scalar tag style text => require (Meaning.scalar? tag style text)
    | _ => failure
  | depth + 1, node => do
    match ← follow node with
    | .scalar tag style text => require (Meaning.scalar? tag style text)
    | .sequence tag items =>
      refuseLocal tag
      return .array (← items.mapM (json rule depth))
    | .mapping tag entries =>
      refuseLocal tag
      return .ofMembers (← entries.mapM fun (name, value) =>
        return (← key rule name, ← json rule depth value))
    | .alias _ => failure

/-- A truth value, or nothing: an empty or null scalar. Of the scalars that are not plain only a
literal block with the tag for truth values is one. -/
def bool? (node : Node) : Reading (Option Bool) := do
  match ← follow node with
  | .scalar none .plain text =>
    if text.isEmpty || Meaning.isNull text then return none
    else some <$> require (Meaning.bool? text)
  | .scalar (some tag) .plain text =>
    if tag = Tag.null then
      if Meaning.isNull text then return none else failure
    else some <$> require (Meaning.bool? text)
  | .scalar (some tag) .literal text =>
    if tag = Tag.bool then some <$> require (Meaning.bool? text) else failure
  | _ => failure

end Reading

def Document.read? {α : Type} (document : Document) (missing : α) (read : Node → Reading α) :
    Option α :=
  match document.root with
  | none => some missing
  | some root => ((read root).run document).run' (Reading.aliasesPerStep * document.size)

end RoutePlan.Yaml

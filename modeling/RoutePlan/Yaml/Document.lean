import RoutePlan.Dict
import RoutePlan.Yaml.Lexer

/-!
The one document of a YAML stream as a tree of nodes. An alias stands in the tree as the number of
its anchor; what that number means is fixed by the whole document.
-/
namespace RoutePlan.Yaml

inductive Node where
  | scalar (tag : Option Tag) (style : Style) (text : Text)
  | sequence (tag : Option Tag) (items : List Node)
  | mapping (tag : Option Tag) (entries : List (Node × Node))
  | alias (anchor : Nat)

structure Anchored where
  order : Nat
  anchor : Nat
  node : Node

structure Document where
  /-- A stream without any content has no root. -/
  root : Option Node
  anchored : List Anchored

namespace Node

def empty : Node := .scalar none .plain []

mutual

def size : Node → Nat
  | .scalar _ _ _ => 1
  | .alias _ => 1
  | .sequence _ items => sizeOfItems items + 2
  | .mapping _ entries => sizeOfEntries entries + 2

def sizeOfItems : List Node → Nat
  | [] => 0
  | item :: rest => size item + sizeOfItems rest

def sizeOfEntries : List (Node × Node) → Nat
  | [] => 0
  | (key, value) :: rest => size key + size value + sizeOfEntries rest

end

end Node

structure Composer where
  tokens : List Token
  tagHandles : List (Text × Tag)
  /-- The number of each anchor name. A name that is used again takes a new number. -/
  anchorNames : Dict Nat
  anchorCount : Nat
  anchored : List Anchored

abbrev Compose := StateT Composer Option

namespace Compose

def peek : Compose (Option Token) := do return (← get).tokens.head?

def skip : Compose Unit := modify fun composer => { composer with tokens := composer.tokens.drop 1 }

def skipIf (token : Token) : Compose Bool := do
  if (← peek) = some token then
    skip
    return true
  else return false

def require (token : Token) : Compose Unit := do
  if !(← skipIf token) then failure

def nextIs (tokens : List Token) : Compose Bool := do return (← peek).any tokens.contains

def resolveTag (handle : Text) (suffix : Tag) : Compose Tag := do
  if handle.isEmpty then return suffix
  else match (← get).tagHandles.lookup handle with
    | some expansion => return expansion ++ suffix
    | none => failure

def properties : Compose (Option Text × Option Tag) := do
  match ← peek with
  | some (.anchor name) =>
    skip
    match ← peek with
    | some (.tag handle suffix) =>
      skip
      return (some name, some (← resolveTag handle suffix))
    | _ => return (some name, none)
  | some (.tag handle suffix) =>
    skip
    match ← peek with
    | some (.anchor name) =>
      skip
      return (some name, some (← resolveTag handle suffix))
    | _ => return (none, some (← resolveTag handle suffix))
  | _ => return (none, none)

/-- Gives the node that begins here the number of its anchor: how many names there are already. -/
def beginAnchor (name : Text) : Compose (Nat × Nat) := do
  let composer ← get
  let anchor := composer.anchorNames.length
  let order := composer.anchorCount
  set { composer with
    anchorNames := composer.anchorNames.insert name anchor
    anchorCount := order + 1 }
  return (order, anchor)

def keepAnchored (order anchor : Nat) (node : Node) : Compose Unit :=
  modify fun composer => { composer with anchored := ⟨order, anchor, node⟩ :: composer.anchored }

def aliasNode (name : Text) : Compose Node := do
  match (← get).anchorNames.get? name with
  | some anchor => return .alias anchor
  | none => failure

mutual

/-- A node. Collections of a block only stand where `inBlock` says so, and a sequence that is not
indented only as the key or value of a block mapping. -/
def node (inBlock mayBeUnindented : Bool) : Nat → Compose Node
  | 0 => failure
  | fuel + 1 => do
    if let some (.alias name) ← peek then
      skip
      return ← aliasNode name
    let (anchor?, tag) ← properties
    let place? ← anchor?.mapM beginAnchor
    let node ← content inBlock mayBeUnindented (anchor?.isSome || tag.isSome) tag fuel
    if let some (order, anchor) := place? then keepAnchored order anchor node
    return node

def content (inBlock mayBeUnindented mayBeEmpty : Bool) (tag : Option Tag) : Nat → Compose Node
  | 0 => failure
  | fuel + 1 => do
    match ← peek with
    | some (.scalar style text) =>
      skip
      return .scalar tag style text
    | some .flowSequenceStart =>
      skip
      return .sequence tag (← flowItems true fuel)
    | some .flowMappingStart =>
      skip
      return .mapping tag (← flowEntries true fuel)
    | some .blockEntry =>
      if mayBeUnindented then return .sequence tag (← unindentedItems fuel)
      else if mayBeEmpty then return .scalar tag .plain []
      else failure
    | some .blockSequenceStart =>
      if inBlock then
        skip
        return .sequence tag (← blockItems fuel)
      else if mayBeEmpty then return .scalar tag .plain []
      else failure
    | some .blockMappingStart =>
      if inBlock then
        skip
        return .mapping tag (← blockEntries fuel)
      else if mayBeEmpty then return .scalar tag .plain []
      else failure
    | _ => if mayBeEmpty then return .scalar tag .plain [] else failure

def blockItems : Nat → Compose (List Node)
  | 0 => failure
  | fuel + 1 => do
    if ← skipIf .blockEnd then return []
    require .blockEntry
    let item ← if ← nextIs [.blockEntry, .blockEnd] then pure .empty else node true false fuel
    return item :: (← blockItems fuel)

def unindentedItems : Nat → Compose (List Node)
  | 0 => failure
  | fuel + 1 => do
    if !(← skipIf .blockEntry) then return []
    let item ←
      if ← nextIs [.blockEntry, .key, .value, .blockEnd] then pure .empty else node true false fuel
    return item :: (← unindentedItems fuel)

def blockEntries : Nat → Compose (List (Node × Node))
  | 0 => failure
  | fuel + 1 => do
    if ← skipIf .blockEnd then return []
    require .key
    let key ← if ← nextIs [.key, .value, .blockEnd] then pure .empty else node true true fuel
    let value ←
      if !(← skipIf .value) then pure .empty
      else if ← nextIs [.key, .value, .blockEnd] then pure .empty
      else node true true fuel
    return (key, value) :: (← blockEntries fuel)

def flowItems (first : Bool) : Nat → Compose (List Node)
  | 0 => failure
  | fuel + 1 => do
    if ← skipIf .flowSequenceEnd then return []
    if !first then require .flowEntry
    if ← skipIf .flowSequenceEnd then return []
    let item ← if ← skipIf .key then flowPair fuel else node false false fuel
    return item :: (← flowItems false fuel)

/-- A mapping of one entry inside a flow sequence. Where its key is empty, one token is lost. -/
def flowPair : Nat → Compose Node
  | 0 => failure
  | fuel + 1 => do
    let key ←
      if ← nextIs [.value, .flowEntry, .flowSequenceEnd] then
        skip
        pure .empty
      else node false false fuel
    let value ←
      if !(← skipIf .value) then pure .empty
      else if ← nextIs [.flowEntry, .flowSequenceEnd] then pure .empty
      else node false false fuel
    return .mapping none [(key, value)]

def flowEntries (first : Bool) : Nat → Compose (List (Node × Node))
  | 0 => failure
  | fuel + 1 => do
    if ← skipIf .flowMappingEnd then return []
    if !first then require .flowEntry
    if ← skipIf .flowMappingEnd then return []
    if ← skipIf .key then
      let key ←
        if ← nextIs [.value, .flowEntry, .flowMappingEnd] then pure .empty
        else node false false fuel
      let value ←
        if !(← skipIf .value) then pure .empty
        else if ← nextIs [.flowEntry, .flowMappingEnd] then pure .empty
        else node false false fuel
      return (key, value) :: (← flowEntries false fuel)
    else
      let key ← node false false fuel
      return (key, .empty) :: (← flowEntries false fuel)

end

def standardHandles : List (Text × Tag) :=
  [("!".toList, Tag.ofText ['!']), ("!!".toList, Tag.ofCore "")]

def directives (versionSeen : Bool) : List Token → Compose Unit
  | .version major minor :: rest => do
    if versionSeen || major ≠ 1 || !(minor = 1 || minor = 2) then failure
    skip
    directives true rest
  | .tagHandle handle expansion :: rest => do
    let composer ← get
    if (composer.tagHandles.lookup handle).isSome then failure
    set { composer with tagHandles := composer.tagHandles ++ [(handle, expansion)] }
    skip
    directives versionSeen rest
  | _ => return

def finish : Compose Unit := do
  if (← get).tokens.any (· ≠ .documentEnd) then failure

def root : Compose (Option Node) := do
  let tokens := (← get).tokens
  let fuel := 4 * (tokens.length + 2)
  let node ← match tokens with
    | [] => pure none
    | .version _ _ :: _ | .tagHandle _ _ :: _ | .documentStart :: _ =>
      directives false tokens
      require .documentStart
      modify fun composer => { composer with tagHandles := composer.tagHandles ++ standardHandles }
      match ← peek with
      | none | some .documentEnd | some .documentStart | some (.version _ _)
      | some (.tagHandle _ _) =>
        pure (some .empty)
      | _ => some <$> node true false fuel
    | _ =>
      modify fun composer => { composer with tagHandles := standardHandles }
      some <$> node true false fuel
  finish
  return node

end Compose

namespace Document

def ofTokens? (tokens : List Token) : Option Document := do
  let (root, composer) ← Compose.root.run
    { tokens, tagHandles := [], anchorNames := Dict.empty, anchorCount := 0, anchored := [] }
  return { root, anchored := composer.anchored }

def parse? (text : Text) : Option Document := (Token.scan? text).bind ofTokens?

def anchored? (document : Document) (anchor : Nat) : Option Node :=
  let candidates := document.anchored.filter (·.anchor = anchor)
  let last := candidates.foldl (fun best next => match best with
    | some (found : Anchored) => if found.order < next.order then some next else best
    | none => some next) none
  last.map (·.node)

def size (document : Document) : Nat := (document.root.map Node.size).getD 0

end Document
end RoutePlan.Yaml

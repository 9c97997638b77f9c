import RoutePlan.Yaml.Tag

/-!
The tokens of a YAML stream. Indentation has become tokens of its own, and the key of a mapping is
marked before it begins.
-/
namespace RoutePlan.Yaml

inductive Style where
  | plain
  | quoted
  | literal
  | folded
  deriving DecidableEq

inductive Token where
  | version (major minor : Nat)
  | tagHandle (handle : Text) (expansion : Tag)
  | documentStart
  | documentEnd
  | blockSequenceStart
  | blockMappingStart
  | blockEnd
  | flowSequenceStart
  | flowSequenceEnd
  | flowMappingStart
  | flowMappingEnd
  | blockEntry
  | flowEntry
  | key
  | value
  | alias (name : Text)
  | anchor (name : Text)
  | tag (handle : Text) (suffix : Tag)
  | scalar (style : Style) (text : Text)
  deriving DecidableEq

end RoutePlan.Yaml

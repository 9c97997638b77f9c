import RoutePlan.Percent

/-!
URL templates: literal text and slots, in the order in which they are written.
-/
namespace RoutePlan

inductive SlotEncoding where
  | pathSegment
  | queryValue
  deriving DecidableEq

def SlotEncoding.encode : SlotEncoding → Text → Text
  | .pathSegment => Percent.encodePath
  | .queryValue => Percent.encodeQuery

/-- A named place for a value. It is a query value once any occurrence of it is one. -/
structure Slot where
  name : Text
  isQueryValue : Bool
  deriving DecidableEq

def Slot.encoding (slot : Slot) : SlotEncoding :=
  if slot.isQueryValue then .queryValue else .pathSegment

/-- Literal text with its colons already unescaped, or a slot by its index in the slot table. -/
inductive Part where
  | literal (text : Text)
  | slot (index : Nat)
  deriving DecidableEq

/-- `slots` lists each slot once, in the order of first occurrence. -/
structure Template where
  source : Text
  parts : List Part
  slots : List Slot
  deriving DecidableEq

namespace Template

def slot? (template : Template) (name : Text) : Option Slot :=
  template.slots.find? (·.name = name)

def partText (slots : List Slot) : Part → Text
  | .literal text => text
  | .slot index => match slots[index]? with
    | some slot => ':' :: slot.name
    | none => []

def unescaped (template : Template) : Text := template.parts.flatMap (partText template.slots)

end Template
end RoutePlan

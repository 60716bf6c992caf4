import ConceptScript.Text.Join
import ConceptScript.Model.Basic

/-!
# `ConceptScript.Script.Node`: concepts read from a script

A node is one occurrence of a concept: its type and a slot for each
member of the type. A slot holds a text, another concept, or nothing.
Nothing is in the slots of members that are not written, and in a concept
referred to by its keys all slots but those of the keys are empty.

A concept is known by the texts of its keys, joined by dots; the keys
that are concepts are known by theirs.
-/

set_option autoImplicit false

namespace ConceptScript.Script

open ConceptScript.Text
open ConceptScript.Model (TypeId Member)

mutual

/-- One occurrence of a concept. -/
inductive Node where
  | mk (type : TypeId) (slots : List Slot)

/-- The value of one member. -/
inductive Slot where
  | empty
  | text (value : String)
  | node (concept : Node)

end

deriving instance Repr, BEq for Node, Slot
deriving instance Inhabited for Slot

namespace Node

/-- The type of a concept. -/
def type : Node → TypeId
  | mk type _ => type

/-- The values of the members, in the order of the type. -/
def slots : Node → List Slot
  | mk _ slots => slots

mutual

/-- The texts of the keys, joined by dots. -/
def keyText (m : Model) : Node → String
  | mk type slots => joinWith "." (keyTexts m (m.typeAt type).members slots)

/-- The texts of the filled keys among some members with their slots. -/
def keyTexts (m : Model) : List Member → List Slot → List String
  | member :: members, slot :: slots =>
    let others := keyTexts m members slots
    if member.isKey then
      match slot with
      | .empty => others
      | .text value => value :: others
      | .node concept => keyText m concept :: others
    else others
  | _, _ => []

end

/-- A concept as messages name it: what its type is shown by, followed by
its keys. -/
def describe (m : Model) (n : Node) : String :=
  let keys := n.keyText m
  let shown := (m.typeAt n.type).shownName
  if keys = "" then shown else shown ++ " " ++ keys

end Node

end ConceptScript.Script

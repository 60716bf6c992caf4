import ConceptScript.Text.Blank
import ConceptScript.Text.Join
import ConceptScript.Model.Basic

/-!
# `ConceptScript.Model.Signature`: how a type is shown to its users

A signature shows how a statement of a type is written: the keyword, the
parsable keys joined by dots, and the other parsable members, each as
`<Name: Type>`. The parameters are the same labels, as a list in the
order in which a statement gives the values.
-/

set_option autoImplicit false

namespace ConceptScript

open ConceptScript.Text

namespace Model

/-- The type of a member as signatures show it. -/
def typeLabel (m : Model) (member : Member) : String :=
  match member.value with
  | .text => "String"
  | .concept id => (m.typeAt id).typeName
  | .anyConcept => "IConceptInfo"
  | .choice values => joinWith "|" values

/-- A member as signatures show it. -/
def parameterLabel (m : Model) (member : Member) : String :=
  "<" ++ member.name ++ ": " ++ m.typeLabel member ++ ">"

/-- The labels of the parsable members, in the order in which a statement
gives them. -/
def parameters (m : Model) (c : ConceptType) : List String :=
  c.parsableMembers.map fun (member, _) => m.parameterLabel member

/-- The labels of the parsable keys. -/
def keyLabels (m : Model) (c : ConceptType) : List String :=
  (c.parsableMembers.filter (·.1.isKey)).map fun (member, _) => m.parameterLabel member

/-- The labels of the parsable members that are no keys. -/
def otherLabels (m : Model) (c : ConceptType) : List String :=
  (c.parsableMembers.filter (!·.1.isKey)).map fun (member, _) => m.parameterLabel member

/-- How a statement of a type is written. -/
def signature (m : Model) (c : ConceptType) : String :=
  let keys := m.keyLabels c
  let dotted := if keys.isEmpty then [] else [joinWith "." keys]
  joinWith " " (c.shownName :: (dotted ++ m.otherLabels c))

end Model

/-- The place of a member, given by its index, among the parsable
members. -/
def ConceptType.parsablePlace (c : ConceptType) (index : Nat) : Option Nat :=
  c.parsableMembers.findIdx? (·.2 == index)

/-- One way to write a keyword's statement, with what is known about
it. -/
structure SignatureInfo where
  type : Model.TypeId
  label : String
  documentation : Option String
  parameters : List String
  deriving DecidableEq, Repr

namespace Model

/-- The signatures of a keyword, one for each of its types, or nothing
for a word that is no keyword. -/
def signaturesFor (m : Model) (keyword : String) : Option (List SignatureInfo) :=
  match m.byKeyword keyword with
  | [] => none
  | types => some (types.map fun c =>
      ⟨c.id, m.signature c, c.documentation, m.parameters c⟩)

/-- A signature followed by its documentation, if it has any. -/
def describeSignature (s : SignatureInfo) : String :=
  let text := trim (s.documentation.getD "").toList
  if text.isEmpty then s.label else s.label ++ "\n" ++ String.ofList text

/-- Everything known about a keyword, as one text. -/
def fullDescription (m : Model) (keyword : String) : Option String :=
  (m.signaturesFor keyword).map fun signatures =>
    joinWith "\n\n" (signatures.map describeSignature)

end Model

end ConceptScript

import ConceptScript.Model.Ancestors

/-!
# `ConceptScript.Model.Nesting`: what can stand in a block

A concept can stand in a block of another when its parent member can be
filled from that block. The keywords of such concepts are the ones
offered there; outside of all blocks every keyword is.
-/

set_option autoImplicit false

namespace ConceptScript

open ConceptScript.Text

namespace Model

/-- Whether the parent member of a type accepts a concept, given all
types that the concept can stand for. -/
def acceptsParent (c : ConceptType) (types : List TypeId) : Bool :=
  match c.parentMember? with
  | some (⟨_, .anyConcept, _, _, _⟩, _) => true
  | some (⟨_, .concept declared, _, _, _⟩, _) => types.contains declared
  | _ => false

/-- The types that can stand in a block of a type, in the order of the
model. A type never stands in a block of itself. -/
def validChildren (m : Model) (parent : TypeId) : List ConceptType :=
  let types := m.assignableTo parent
  m.types.filter fun c => c.id != parent && acceptsParent c types

/-- Of words that differ only in ASCII case, the first. The words already
taken come first. -/
def firstsIgnoringAsciiCase : List String → List String → List String
  | taken, [] => taken
  | taken, word :: rest =>
    if taken.any (sameIgnoringAsciiCase · word) then firstsIgnoringAsciiCase taken rest
    else firstsIgnoringAsciiCase (taken ++ [word]) rest

/-- The keywords that can start a statement in a block of a type, or
outside of all blocks. -/
def keywordsFor (m : Model) : Option TypeId → List String
  | none => m.keywords
  | some parent =>
    sortWords (firstsIgnoringAsciiCase [] ((m.validChildren parent).filterMap (·.keyword)))

end Model

end ConceptScript

import ConceptScript.Text.Lowercase

/-!
# `ConceptScript.Model.Basic`: concept types and their members

A model lists the types of concepts that scripts may declare. Types refer
to each other by their place in the list. A type has a keyword, base
types, and members in the order in which a statement gives their values.

Keywords are looked up by their lowercase form under the full Unicode
rules, and so are they sorted.
-/

set_option autoImplicit false

namespace ConceptScript

open ConceptScript.Text

namespace Model

/-- A type, named by its place in the model. -/
abbrev TypeId := Nat

/-- What the value of a member can be. -/
inductive ValueKind where
  /-- Any text. -/
  | text
  /-- A concept of a type or of a type derived from it. -/
  | concept (type : TypeId)
  /-- Any concept, taken from the block that the statement stands in. -/
  | anyConcept
  /-- One of some words. -/
  | choice (values : List String)
  deriving DecidableEq, Repr

/-- Whether values of a kind are concepts. -/
def ValueKind.isConcept : ValueKind → Bool
  | .concept _ | .anyConcept => true
  | .text | .choice _ => false

/-- A member of a type of concepts. Keys identify a concept; only
parsable members are written in a statement; a member nested in the
parent is filled from the block that the statement stands in. -/
structure Member where
  name : String
  value : ValueKind
  isKey : Bool
  isParsable : Bool
  isParentNested : Bool
  deriving DecidableEq, Repr

end Model

open Model

/-- A type of concepts. -/
structure ConceptType where
  id : TypeId
  typeName : String
  keyword : Option String
  baseTypes : List TypeId
  members : List Member
  documentation : Option String
  deriving DecidableEq, Repr

namespace ConceptType

/-- A type without a name or members. It stands in where a model has no
type under an id, which does not happen in a model that loaded. -/
def blank : ConceptType := ⟨0, "", none, [], [], none⟩

instance : Inhabited ConceptType := ⟨blank⟩

/-- The members with their indices. -/
def numbered (c : ConceptType) : List (Member × Nat) := c.members.zipIdx

/-- The parsable members with their indices, in the order in which a
statement gives them. -/
def parsableMembers (c : ConceptType) : List (Member × Nat) :=
  c.numbered.filter (·.1.isParsable)

/-- The keys with their indices. -/
def keyMembers (c : ConceptType) : List (Member × Nat) :=
  c.numbered.filter (·.1.isKey)

/-- The member that a statement in a block takes from that block: the
first one marked as nested in the parent; without such a mark the first
member, if it is a key and a concept. -/
def parentMember? (c : ConceptType) : Option (Member × Nat) :=
  match c.numbered.find? (·.1.isParentNested) with
  | some found => some found
  | none =>
    match c.members with
    | m :: _ => if m.isKey && m.value.isConcept then some (m, 0) else none
    | [] => none

/-- Whether a type has a given keyword, up to ASCII case. -/
def hasKeyword (c : ConceptType) (word : String) : Bool :=
  c.keyword.any (sameIgnoringAsciiCase · word)

/-- The word a type is shown by: its keyword, or its name if it has
none. -/
def shownName (c : ConceptType) : String := c.keyword.getD c.typeName

end ConceptType

/-- A model: its version and its types. -/
structure Model where
  version : String
  types : List ConceptType
  deriving DecidableEq, Repr

/-- The items of a list whose keys have not occurred before. -/
def firstsBy {α β : Type} [BEq β] (key : α → β) : List β → List α → List α
  | _, [] => []
  | seen, a :: rest =>
    if seen.contains (key a) then firstsBy key seen rest
    else a :: firstsBy key (key a :: seen) rest

/-- Words sorted by their lowercase form; words with the same form keep
their order. -/
def sortWords (words : List String) : List String :=
  words.mergeSort fun a b => decide (lowercase a ≤ lowercase b)

namespace Model

/-- The type under an id. -/
def typeAt (m : Model) (id : TypeId) : ConceptType := m.types.getD id .blank

/-- The type with a given name. -/
def byTypeName (m : Model) (name : String) : Option ConceptType :=
  m.types.find? (·.typeName == name)

/-- The types whose keyword has the same lowercase form as a word, in the
order of the model. -/
def byKeyword (m : Model) (word : String) : List ConceptType :=
  let form := lowercase word
  m.types.filter fun c => c.keyword.any (lowercase · == form)

/-- Whether a word is the keyword of some type. -/
def isKeyword (m : Model) (word : String) : Bool := !(m.byKeyword word).isEmpty

/-- All keywords as they are declared, sorted. Of those with the same
lowercase form only the first is kept. -/
def keywords (m : Model) : List String :=
  sortWords (firstsBy lowercase [] (m.types.filterMap (·.keyword)))

end Model

end ConceptScript

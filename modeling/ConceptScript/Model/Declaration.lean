import ConceptScript.Model.Basic

/-!
# `ConceptScript.Model.Declaration`: models as they are written down

A model file names types instead of pointing at them. Resolving it looks
the names up and checks the rules that a model must obey:

* no two types have the same name,
* every type that is referred to is declared,
* a member with listed values lists at least one,
* the keys of a type come before its other members,
* following keys that are concepts never leads back to the start.

The checks come in that order: names over the whole file, then type by
type the base types and the members, each member's value before its
place among the keys, and the keys' circles last. The first rule broken
is the one reported.
-/

set_option autoImplicit false

namespace ConceptScript

open Model

namespace Model

/-- The declared value of a member. -/
inductive ValueDecl where
  | text
  | concept (typeName : String)
  | anyConcept
  | choice (values : List String)
  deriving DecidableEq, Repr

/-- A declared member. -/
structure MemberDecl where
  name : String
  value : ValueDecl
  isKey : Bool
  isParsable : Bool
  isParentNested : Bool
  deriving DecidableEq, Repr

/-- A declared type. -/
structure TypeDecl where
  typeName : String
  keyword : Option String
  baseTypes : List String
  documentation : Option String
  members : List MemberDecl
  deriving DecidableEq, Repr

/-- A declared model. -/
structure Declaration where
  version : String
  types : List TypeDecl
  deriving DecidableEq, Repr

/-- Why a declaration is no model. -/
inductive Flaw where
  | duplicateType (typeName : String)
  | unknownType (typeName referencedBy : String)
  /-- A member lists values, but none. -/
  | noValues (typeName member : String)
  | keyAfterOther (typeName member : String)
  | circularKeys (typeName : String)
  deriving DecidableEq, Repr

/-- A flaw in words. -/
def Flaw.message : Flaw → String
  | .duplicateType typeName => "Duplicate concept type: " ++ typeName
  | .unknownType typeName referencedBy =>
    "Unresolved concept type '" ++ typeName ++ "' referenced by " ++ referencedBy
  | .noValues typeName member =>
    "Invalid concept type " ++ typeName ++ ": enum member '" ++ member ++ "' has no values"
  | .keyAfterOther typeName member =>
    "Invalid concept type " ++ typeName ++ ": key member '" ++ member
      ++ "' follows a non-key member"
  | .circularKeys typeName =>
    "Invalid concept type " ++ typeName
      ++ ": key members reference the concept type itself, directly or through other key members"

/-- The first name that has occurred before. -/
def firstRepeated : List String → List String → Option String
  | _, [] => none
  | seen, name :: rest =>
    if seen.contains name then some name else firstRepeated (name :: seen) rest

/-- The place of a name in a list. -/
def placeOf (name : String) : List String → Option Nat
  | [] => none
  | n :: rest => if n = name then some 0 else (placeOf name rest).map (· + 1)

/-- The id of a declared type. -/
def lookUp (names : List String) (name referencedBy : String) : Except Flaw TypeId :=
  match placeOf name names with
  | some id => .ok id
  | none => .error (.unknownType name referencedBy)

/-- The ids of declared base types. -/
def resolveBases (names : List String) (typeName : String) :
    List String → Except Flaw (List TypeId)
  | [] => .ok []
  | base :: rest => do
    let id ← lookUp names base typeName
    let ids ← resolveBases names typeName rest
    pure (id :: ids)

/-- The value of a member. -/
def resolveValue (names : List String) (typeName member : String) :
    ValueDecl → Except Flaw ValueKind
  | .text => .ok .text
  | .anyConcept => .ok .anyConcept
  | .concept target => do
    let id ← lookUp names target (typeName ++ "." ++ member)
    pure (.concept id)
  | .choice values =>
    if values.isEmpty then .error (.noValues typeName member) else .ok (.choice values)

/-- The members of a type, told whether a member that is no key has been
seen. -/
def resolveMembers (names : List String) (typeName : String) :
    Bool → List MemberDecl → Except Flaw (List Member)
  | _, [] => .ok []
  | keysEnded, m :: rest => do
    let value ← resolveValue names typeName m.name m.value
    if m.isKey && keysEnded then throw (.keyAfterOther typeName m.name)
    let members ← resolveMembers names typeName (keysEnded || !m.isKey) rest
    pure (⟨m.name, value, m.isKey, m.isParsable, m.isParentNested⟩ :: members)

/-- The types, numbered from a given id. An empty keyword means none. -/
def resolveTypes (names : List String) : TypeId → List TypeDecl → Except Flaw (List ConceptType)
  | _, [] => .ok []
  | id, t :: rest => do
    let bases ← resolveBases names t.typeName t.baseTypes
    let members ← resolveMembers names t.typeName false t.members
    let types ← resolveTypes names (id + 1) rest
    let keyword := t.keyword.filter (· != "")
    pure (⟨id, t.typeName, keyword, bases, members, t.documentation⟩ :: types)

/-- The types that the keys of a type refer to. -/
def keyReferences (types : List ConceptType) (id : TypeId) : List TypeId :=
  ((types.getD id .blank).keyMembers).filterMap fun (m, _) =>
    match m.value with
    | .concept target => some target
    | _ => none

/-- Follows key references from a type. `path` holds the types being
followed and `done` those known to lead into no circle. A reference to a
type on the path is a circle, and that type is the answer. Otherwise the
types known to be safe come back. The path holds each type once, so it
never gets longer than the list of types. -/
def followKeys (types : List ConceptType) :
    Nat → List TypeId → List TypeId → TypeId → Except TypeId (List TypeId)
  | 0, _, done, _ => .ok done
  | depth + 1, path, done, id => do
    let done ← (keyReferences types id).foldlM (fun done target =>
      if target ∈ id :: path then .error target
      else if target ∈ done then .ok done
      else followKeys types depth (id :: path) done target) done
    pure (id :: done)

/-- A type whose keys lead back to it. The types are tried in order. -/
def keyCircle? (types : List ConceptType) : Option TypeId :=
  let search := (List.range types.length).foldlM (fun done id =>
    if id ∈ done then .ok done else followKeys types types.length [] done id) []
  match search with
  | .error id => some id
  | .ok _ => none

/-- The model that a declaration describes, or what is wrong with it. -/
def resolve (d : Declaration) : Except Flaw Model := do
  let names := d.types.map (·.typeName)
  if let some name := firstRepeated [] names then throw (.duplicateType name)
  let types ← resolveTypes names 0 d.types
  if let some id := keyCircle? types then
    throw (.circularKeys (types.getD id .blank).typeName)
  pure ⟨d.version, types⟩

end Model

end ConceptScript

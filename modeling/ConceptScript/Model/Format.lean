import ConceptScript.Json.Read
import ConceptScript.Json.Fields
import ConceptScript.Model.Declaration

/-!
# `ConceptScript.Model.Format`: model files

A model file is JSON: a record with the version and the concept types.
This module decodes the records and puts reading, decoding and resolving
together. Each record lists its fields in the order in which an array gives
them.
-/

set_option autoImplicit false

namespace ConceptScript

open ConceptScript.Json

namespace Model

/-- How deep arrays and objects may be nested in the value of a member.
Nesting is limited to 127 levels in all, and the value is on the sixth:
it stands in a member, in the members, in a type, in the types, in the
model, each of which is an object or an array. -/
def valueDepth : Nat := 122

/-- The value of a member: its `kind` says what it is. Only two kinds have a
field; nothing may follow the tag of the others in an array. -/
def ValueDecl.ofJson? (v : Value) : Option ValueDecl := do
  if v.isKeepable valueDepth then
    let (kind, content) ← v.tagged? "kind"
    match kind with
    | "string" => (content.fields? []).map fun _ => .text
    | "any_concept" => (content.fields? []).map fun _ => .anyConcept
    | "concept" => do
      let fields ← content.fields? ["concept_type"]
      let type ← required fields "concept_type" Value.text?
      pure (.concept type)
    | "enum" => do
      let fields ← content.fields? ["values"]
      let values ← required fields "values" (Value.list? Value.text?)
      pure (.choice values)
    | _ => none
  else none

/-- A member of a type. -/
def MemberDecl.ofJson? (v : Value) : Option MemberDecl := do
  let fields ← v.fields? ["name", "value", "is_key", "is_parsable", "is_parent_nested"]
  let name ← required fields "name" Value.text?
  let value ← required fields "value" ValueDecl.ofJson?
  let isKey ← optional fields "is_key" false Value.bool?
  let isParsable ← optional fields "is_parsable" true Value.bool?
  let isParentNested ← optional fields "is_parent_nested" false Value.bool?
  pure ⟨name, value, isKey, isParsable, isParentNested⟩

/-- A concept type. -/
def TypeDecl.ofJson? (v : Value) : Option TypeDecl := do
  let fields ← v.fields? ["type_name", "keyword", "base_types", "documentation", "members"]
  let typeName ← required fields "type_name" Value.text?
  let keyword ← optional fields "keyword" none (Value.orNull? Value.text?)
  let baseTypes ← optional fields "base_types" [] (Value.list? Value.text?)
  let documentation ← optional fields "documentation" none (Value.orNull? Value.text?)
  let members ← optional fields "members" [] (Value.list? MemberDecl.ofJson?)
  pure ⟨typeName, keyword, baseTypes, documentation, members⟩

/-- A model. -/
def Declaration.ofJson? (v : Value) : Option Declaration := do
  let fields ← v.fields? ["version", "concept_types"]
  let version ← optional fields "version" "" Value.text?
  let types ← required fields "concept_types" (Value.list? TypeDecl.ofJson?)
  pure ⟨version, types⟩

/-- All records here are arrays, and the member leaves out its last fields. -/
example :
    Json.read "[\"5\", [[\"Info\", null, [], null, [[\"Name\", [\"string\"], true]]]]]".toList
        >>= Declaration.ofJson?
      = some ⟨"5", [⟨"Info", none, [], none, [⟨"Name", .text, true, true, false⟩]⟩]⟩ := by
  decide +kernel

/-- Why a model cannot be loaded. -/
inductive LoadError where
  /-- The file cannot be read. -/
  | unreadable (reason : String)
  /-- The text is not JSON, or not a record of a model. -/
  | malformed
  /-- The record breaks a rule of models. -/
  | flawed (flaw : Flaw)
  deriving DecidableEq, Repr

/-- A load error in words. Nothing more is said about malformed text. -/
def LoadError.message : LoadError → String
  | .unreadable reason => "IO error: " ++ reason
  | .malformed => "JSON error"
  | .flawed flaw => flaw.message

/-- The model that the text of a model file describes. -/
def ofText (text : List Char) : Except LoadError Model :=
  match Json.read text >>= Declaration.ofJson? with
  | none => .error .malformed
  | some declaration =>
    match resolve declaration with
    | .error flaw => .error (.flawed flaw)
    | .ok model => .ok model

end Model

end ConceptScript

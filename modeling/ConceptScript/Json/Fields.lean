import ConceptScript.Json.Value

/-!
# `ConceptScript.Json.Fields`: records written as JSON

A record is written in one of two ways. An object has the fields as
members, in any order; members that are no fields are ignored, but a field
may not be given twice. An array has the values of the fields in the order
in which the record declares them, and may leave out the last ones.
`Value.fields?_array` says that the two are read alike.

A value of one of several kinds carries a tag that names the kind. In an
object the tag is a member among the others, and an array begins with it.
What is left of the value is a record of the fields of that kind.

Where a value has to be kept before it is known what it is, it is held to
more rules: its strings denote texts, its numbers fit double precision,
and it is not nested too deeply.
-/

set_option autoImplicit false

namespace ConceptScript.Json

namespace Value

/-- The text that a string denotes. -/
def text? : Value → Option String
  | .string text => text
  | _ => none

/-- A truth value. -/
def bool? : Value → Option Bool
  | .bool b => some b
  | _ => none

/-- An integer literal from zero up to below 2^64. -/
def natural? : Value → Option Nat
  | .number n => n.natural?
  | _ => none

/-- The items of an array. -/
def list? {α : Type} (item? : Value → Option α) : Value → Option (List α)
  | .array items => items.mapM item?
  | _ => none

/-- A value that may also be `null`. -/
def orNull? {α : Type} (value? : Value → Option α) : Value → Option (Option α)
  | .null => some none
  | v => (value? v).map some

/-- The values of a record's fields with their names, given the names in the
order of the record. All names in an object have to denote texts, and an
array may not hold more values than there are fields. -/
def fields? (names : List String) : Value → Option (List (String × Value))
  | .object members => members.mapM fun (name, value) => name.map (·, value)
  | .array items => if items.length ≤ names.length then some (names.zip items) else none
  | _ => none

/-- An array is read like an object that names the first fields in order. -/
theorem fields?_array {names : List String} {items : List Value}
    (h : items.length ≤ names.length) :
    (array items).fields? names
      = (object ((names.zip items).map fun field => (some field.1, field.2))).fields? names := by
  have hnamed : ∀ fields : List (String × Value),
      (fields.map fun field => (some field.1, field.2)).mapM
        (fun (name, value) => name.map (·, value)) = some fields := by
    intro fields
    induction fields with
    | nil => rfl
    | cons field fields ih =>
      rw [List.map_cons, List.mapM_cons, ih]
      rfl
  rw [fields?, fields?, if_pos h, hnamed]

/-- Whether a value can be kept for later decoding: arrays and objects in
it are nested no deeper than allowed, every string denotes a text, and no
number is too large. -/
def isKeepable : Nat → Value → Bool
  | _, .null | _, .bool _ => true
  | _, .number n => !n.isHuge
  | _, .string text => text.isSome
  | 0, .array _ | 0, .object _ => false
  | depth + 1, .array items => items.all (isKeepable depth)
  | depth + 1, .object members =>
    members.all fun (name, value) => name.isSome && isKeepable depth value

end Value

/-- The value of a field, if it is there. A field given twice is no
record. -/
def field? (fields : List (String × Value)) (name : String) : Option (Option Value) :=
  match fields.filter (·.1 == name) with
  | [] => some none
  | [(_, value)] => some (some value)
  | _ => none

/-- A field that must be there. -/
def required {α : Type} (fields : List (String × Value)) (name : String)
    (decode? : Value → Option α) : Option α := do
  let value ← field? fields name
  decode? (← value)

/-- A field with a value to use when it is not there. -/
def optional {α : Type} (fields : List (String × Value)) (name : String) (default : α)
    (decode? : Value → Option α) : Option α := do
  match ← field? fields name with
  | none => pure default
  | some value => decode? value

/-- The tag of a value under a given name, and what is left of the value to
hold the fields. -/
def Value.tagged? (name : String) : Value → Option (String × Value)
  | .object members => do
    let fields ← (Value.object members).fields? []
    let tag ← required fields name text?
    pure (tag, .object members)
  | .array (tag :: rest) => tag.text?.map (·, .array rest)
  | _ => none

end ConceptScript.Json

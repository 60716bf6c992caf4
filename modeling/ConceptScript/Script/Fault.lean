import ConceptScript.Text.Join
import ConceptScript.Script.Token

/-!
# `ConceptScript.Script.Fault`: what can be wrong with a script

A fault says what is wrong and a syntax error also where. Every fault has
a code and a message. Codes come in groups: 01 for lexemes and external
texts, 02 for the structure of statements and blocks, 03 for concepts,
and 09 for a failure of the analysis itself.

A mismatch is why a statement could not be read as a certain type of
concept. It is reported only when no other type fits either.
-/

set_option autoImplicit false

namespace ConceptScript.Script

open ConceptScript.Text

/-- The codes of faults. -/
inductive ErrorCode where
  | e0101
  | e0102
  | e0103
  | e0201
  | e0202
  | e0203
  | e0301
  | e0302
  | e0303
  | e0999
  deriving DecidableEq, Repr

/-- A code as it is shown. -/
def ErrorCode.text : ErrorCode → String
  | .e0101 => "E0101"
  | .e0102 => "E0102"
  | .e0103 => "E0103"
  | .e0201 => "E0201"
  | .e0202 => "E0202"
  | .e0203 => "E0203"
  | .e0301 => "E0301"
  | .e0302 => "E0302"
  | .e0303 => "E0303"
  | .e0999 => "E0999"

/-- Why a statement cannot be read as a certain type of concept. -/
inductive Mismatch where
  /-- The statement does not start with the keyword of the type. -/
  | expectedKeyword (keyword : String)
  /-- A value should stand here. -/
  | expectedText (found : Token)
  /-- A key follows a reference to the parent without a dot between. -/
  | expectedDotAfterParent (member typeName : String)
  /-- Two keys of a reference stand without a dot between. -/
  | expectedDotBetweenKeys (typeName : String)
  /-- The value is none of those listed for the member. -/
  | invalidValue (value member : String) (allowed : List String)
  /-- The statement fits only inside a block of another concept. -/
  | notNested (keyword member : String)
  /-- A key of the referenced type has no written form. -/
  | notReferable (typeName member : String)
  /-- The keys of the referenced type lead back to it. Models with such
  keys do not load. -/
  | endlessReference (typeName : String)
  deriving DecidableEq, Repr

/-- A mismatch in words. -/
def Mismatch.message : Mismatch → String
  | .expectedKeyword keyword => "Expected keyword \"" ++ keyword ++ "\"."
  | .expectedText found => "Expected text, found " ++ found.describe ++ "."
  | .expectedDotAfterParent member typeName =>
    "Expected \".\" between the referenced parent and the key member " ++ member ++ " of "
      ++ typeName ++ "."
  | .expectedDotBetweenKeys typeName =>
    "Expected \".\" between key members of the referenced " ++ typeName ++ "."
  | .invalidValue value member allowed =>
    "Invalid value \"" ++ value ++ "\" for " ++ member ++ ". Allowed values: "
      ++ joinWith ", " allowed ++ "."
  | .notNested keyword member =>
    keyword ++ " must be nested within the concept it applies to: member " ++ member
      ++ " accepts any concept."
  | .notReferable typeName member =>
    typeName ++ " cannot be referenced by key: member " ++ member ++ " accepts any concept."
  | .endlessReference typeName =>
    typeName ++ " cannot be referenced by key: its keys lead back to it."

/-- What is wrong with a script. -/
inductive Fault where
  /-- The script ends inside a quoted string. -/
  | unclosedQuote (quote : Quote)
  /-- The script ends inside a reference to an external text. -/
  | unclosedReference
  /-- An external text cannot be read. -/
  | unreadableText (path reason : String)
  /-- A statement does not end with `;` or a block. -/
  | expectedTerminator (concept : String) (found : Token)
  /-- The script ends inside a block. -/
  | unclosedBlock (concept : String)
  /-- A `}` closes no block. -/
  | strayBrace
  /-- A statement starts with a word that is no keyword. -/
  | unknownKeyword (word : String)
  /-- A statement does not start with a word. -/
  | expectedConceptKeyword (found : Token)
  /-- A statement fits no type with its keyword. -/
  | noInterpretation (keyword : String) (why : Mismatch)
  /-- A statement fits several types equally well. -/
  | ambiguous (keyword : String) (typeNames : List String)
  deriving DecidableEq, Repr

namespace Fault

/-- The code of a fault. -/
def code : Fault → ErrorCode
  | unclosedQuote _ => .e0101
  | unclosedReference => .e0102
  | unreadableText _ _ => .e0103
  | expectedTerminator _ _ => .e0201
  | unclosedBlock _ => .e0202
  | strayBrace => .e0203
  | unknownKeyword _ => .e0301
  | expectedConceptKeyword _ => .e0301
  | noInterpretation _ _ => .e0302
  | ambiguous _ _ => .e0303

/-- A fault in words. -/
def message : Fault → String
  | unclosedQuote quote =>
    "Unexpected end of script within quoted string. Missing closing character: "
      ++ String.singleton quote.char
  | unclosedReference =>
    "Unexpected end of script within external text reference. Missing closing character: >"
  | unreadableText path reason =>
    "Cannot read the external text file '" ++ path ++ "': " ++ reason
  | expectedTerminator concept found =>
    "Expected \";\" or \"\x7b\" after " ++ concept ++ ", found " ++ found.describe ++ "."
  | unclosedBlock concept =>
    "Expected \"\x7d\" at the end of the script to close concept \"" ++ concept ++ "\"."
  | strayBrace => "Unexpected \"\x7d\"."
  | unknownKeyword word => "Unrecognized concept keyword \"" ++ word ++ "\"."
  | expectedConceptKeyword found =>
    "Expected a concept keyword, found " ++ found.describe ++ "."
  | noInterpretation keyword why => "Cannot parse " ++ keyword ++ ": " ++ why.message
  | ambiguous keyword typeNames =>
    "Ambiguous syntax. There are multiple possible interpretations of keyword \"" ++ keyword
      ++ "\": " ++ joinWith ", " typeNames ++ "."

end Fault

/-- A fault and the stretch of the script it is about, both in offsets
and in places. -/
structure SyntaxError where
  fault : Fault
  start : Nat
  stop : Nat
  span : Span
  deriving DecidableEq, Repr

namespace SyntaxError

/-- A fault in a stretch of a text. -/
def inText (text : List Char) (fault : Fault) (start stop : Nat) : SyntaxError :=
  ⟨fault, start, stop, lineChrOf text start, lineChrOf text stop⟩

/-- A syntax error on one line: code, line and column from one, message. -/
def describe (e : SyntaxError) : String :=
  e.fault.code.text ++ " (" ++ e.span.start.fromOne ++ "): " ++ e.fault.message

end SyntaxError

end ConceptScript.Script

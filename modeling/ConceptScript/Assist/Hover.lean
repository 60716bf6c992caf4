import ConceptScript.Cursor.Analysis

/-!
# `ConceptScript.Assist.Hover`: what the keyword under the cursor means
-/

set_option autoImplicit false

namespace ConceptScript.Assist

open ConceptScript.Text
open ConceptScript.Cursor

/-- A description of a keyword, with the stretch of the script that it is
about. -/
structure Hover where
  contents : String
  keyword : String
  span : Span
  deriving DecidableEq, Repr

/-- The description of the keyword that the cursor is on, if there is one
and it is known. -/
def hover (m : Model) (a : Analysis) : Option Hover :=
  match a.keyword with
  | none => none
  | some token =>
    if token.touches a.target then
      (m.fullDescription token.value).map fun contents =>
        ⟨contents, token.value, lineChrOf a.text token.start, lineChrOf a.text token.stop⟩
    else none

end ConceptScript.Assist

/-!
# `ConceptScript.Text.Beginning`: texts that begin with another
-/

set_option autoImplicit false

namespace ConceptScript.Text

/-- What follows a beginning in a text, if the text begins with it. -/
def after? : List Char → List Char → Option (List Char)
  | [], s => some s
  | _ :: _, [] => none
  | c :: beginning, d :: s => if c = d then after? beginning s else none

end ConceptScript.Text

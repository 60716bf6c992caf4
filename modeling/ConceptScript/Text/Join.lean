/-!
# `ConceptScript.Text.Join`: texts put together

Lists in messages, keys and signatures are written with a separator
between their items and none at the ends.
-/

set_option autoImplicit false

namespace ConceptScript.Text

/-- Texts put after one another with a separator between them. -/
def joinWith (separator : String) : List String → String
  | [] => ""
  | [s] => s
  | s :: next :: more => s ++ separator ++ joinWith separator (next :: more)

end ConceptScript.Text

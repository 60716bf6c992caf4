import ConceptScript.Model.Nesting
import ConceptScript.Cursor.Analysis

/-!
# `ConceptScript.Assist.Completion`: words to offer at the cursor

After a keyword the words used elsewhere in the script are offered, since
names are repeated. Where a statement may start, and on its keyword, the
keywords that fit the enclosing block are. In a comment nothing is.
-/

set_option autoImplicit false

namespace ConceptScript.Assist

open ConceptScript.Text
open ConceptScript.Cursor

/-- The kinds of words that are offered. -/
inductive CompletionKind where
  | keyword
  /-- A word used in the script. -/
  | word
  deriving DecidableEq, Repr

/-- A word to offer, with what is shown beside it. -/
structure CompletionItem where
  label : String
  kind : CompletionKind
  detail : Option String
  documentation : Option String
  deriving DecidableEq, Repr

/-- The words to offer, in the order in which they are shown. -/
def completionWords (m : Model) (a : Analysis) : List String :=
  if a.insideComment || a.isBlocked then []
  else if a.keyword.isSome && !a.onKeyword then a.words
  else m.keywordsFor (a.innermost?.map (·.type))

/-- A word as it is offered. A keyword shows its signatures and the first
documentation there is. -/
def completionItem (m : Model) (word : String) : CompletionItem :=
  match m.signaturesFor word with
  | some signatures =>
    ⟨word, .keyword, some (joinWith "\n" (signatures.map (·.label))),
      signatures.findSome? (·.documentation)⟩
  | none => ⟨word, .word, none, none⟩

/-- The words to offer with what is shown beside them. -/
def completions (m : Model) (a : Analysis) : List CompletionItem :=
  (completionWords m a).map (completionItem m)

end ConceptScript.Assist

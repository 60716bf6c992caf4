import ConceptScript.Text.Beginning
import ConceptScript.Text.Blank
import ConceptScript.Text.Lines
import ConceptScript.Files.FilePath

/-!
# `ConceptScript.Project.Directive`: a script that names its project

A script may say which project it belongs to, on a line of its own:

    // <rhetosProjectRootPath="C:\My\Project" />

Blanks may stand before `//`, after it, and before `/>`; whatever follows
`/>` does not matter. The first line of this form with a path counts.
-/

set_option autoImplicit false

namespace ConceptScript.Project

open ConceptScript.Text
open ConceptScript.Files (FilePath)

/-- What stands before the path in a directive. -/
def opening : List Char := "<rhetosProjectRootPath=\"".toList

/-- The path that a line names, if it has the form of the directive. -/
def directivePath? (line : List Char) : Option FilePath := do
  let comment ← after? "//".toList (trimStart line)
  let rest ← after? opening (trimStart comment)
  let value := trim (rest.takeWhile (· != '"'))
  let tail ← after? ['"'] (rest.dropWhile (· != '"'))
  let _ ← after? "/>".toList (trimStart tail)
  if value.isEmpty then none else some ⟨String.ofList value⟩

/-- The path of the project that a script names. -/
def rootPath? (text : List Char) : Option FilePath :=
  (lines text).findSome? fun line => directivePath? (content line)

end ConceptScript.Project

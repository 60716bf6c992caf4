import ConceptScript.Files.Store
import ConceptScript.Script.TokenStream

/-!
# `ConceptScript.Script.StoredTexts`: external texts from files

A script that is stored somewhere refers to external texts by paths from
its own directory.
-/

set_option autoImplicit false

namespace ConceptScript.Script

open ConceptScript.Files

/-- External texts read from a store. A script without a place, or at a
place that no directory holds, has none. -/
def storedTexts (store : Store) : ExternalTexts := fun source path =>
  match source.path.bind FilePath.parent with
  | none => .unavailable ("script '" ++ source.name ++ "' has no location on disk")
  | some directory =>
    let file := directory.join ⟨path⟩
    match store.readText file with
    | .ok text => .content text
    | .error e => .unavailable (file.text ++ ": " ++ e.message)

end ConceptScript.Script

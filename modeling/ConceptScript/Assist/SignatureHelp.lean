import ConceptScript.Cursor.Analysis

/-!
# `ConceptScript.Assist.SignatureHelp`: how the statement goes on

All signatures of the keyword at the cursor are shown. One of them is
active while the statement may still be of its type, and then so is the
parameter that comes next in it.
-/

set_option autoImplicit false

namespace ConceptScript.Assist

open ConceptScript.Cursor

/-- The signatures of a keyword, and which one and which parameter of it
is active. -/
structure SignatureHelp where
  signatures : List SignatureInfo
  activeSignature : Option Nat
  activeParameter : Option Nat
  deriving DecidableEq, Repr

/-- The first possible type that has a signature: the place of the
signature and the active parameter. -/
def active? (m : Model) (a : Analysis) (signatures : List SignatureInfo) : Option (Nat × Nat) :=
  a.valid.findSome? fun type =>
    (signatures.findIdx? (·.type == type)).map fun place => (place, a.activeParameter m type)

/-- The signatures of the keyword at the cursor, if there is one and it
is known. -/
def signatureHelp (m : Model) (a : Analysis) : Option SignatureHelp :=
  match a.keyword with
  | none => none
  | some token =>
    (m.signaturesFor token.value).map fun signatures =>
      let active := active? m a signatures
      ⟨signatures, active.map (·.1), active.map (·.2)⟩

end ConceptScript.Assist

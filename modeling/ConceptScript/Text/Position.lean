/-!
# `ConceptScript.Text.Position`: places in a text

A place is a line and a character within it, both counted from zero.
Places are ordered by line first. A span is a pair of places and holds
everything between them, its ends included.
-/

set_option autoImplicit false

namespace ConceptScript.Text

/-- A place in a text: line and character, both counted from zero.
Characters are Unicode scalar values. -/
structure LineChr where
  line : Nat
  chr : Nat
  deriving DecidableEq, Repr, Inhabited

namespace LineChr

/-- The first place of every text. -/
def zero : LineChr := ⟨0, 0⟩

/-- Places are compared by line, and on one line by character. -/
def le (p q : LineChr) : Bool :=
  p.line < q.line || (p.line == q.line && p.chr ≤ q.chr)

instance : LE LineChr := ⟨fun p q => p.le q = true⟩

instance (p q : LineChr) : Decidable (p ≤ q) :=
  inferInstanceAs (Decidable (p.le q = true))

/-- A place as messages for tools print it: `(line, chr)`. -/
def describe (p : LineChr) : String :=
  "(" ++ toString p.line ++ ", " ++ toString p.chr ++ ")"

/-- A place as people count it, from one: `line,column`. -/
def fromOne (p : LineChr) : String :=
  toString (p.line + 1) ++ "," ++ toString (p.chr + 1)

end LineChr

/-- The part of a text between two places. -/
structure Span where
  start : LineChr
  stop : LineChr
  deriving DecidableEq, Repr, Inhabited

namespace Span

/-- The empty span at a place. -/
def empty (p : LineChr) : Span := ⟨p, p⟩

/-- A span holds both of its ends. A span whose ends are in the wrong
order holds nothing. -/
def contains (s : Span) (p : LineChr) : Bool :=
  s.start.le p && p.le s.stop

end Span

end ConceptScript.Text

import ConceptScript.Script.Lexeme

/-!
# `ConceptScript.Script.Token`: what statements are read from

A token is a lexeme with its meaning worked out: quotes are removed from
a quoted string, and a reference to an external text stands for that
text. The last token of a complete script is the end of the script.
-/

set_option autoImplicit false

namespace ConceptScript.Script

/-- The kinds of tokens. -/
inductive TokenKind where
  | word
  | quoted (quote : Quote)
  /-- The content of an external text. -/
  | external
  /-- A single character that is none of the others. -/
  | special
  | comment
  | endOfScript
  deriving DecidableEq, Repr

/-- Whether tokens of a kind can be the value of a member. -/
def TokenKind.isValue : TokenKind → Bool
  | .word | .quoted _ | .external => true
  | .special | .comment | .endOfScript => false

/-- A token: its kind, its value, and the offsets of its first byte and
just past its last byte. -/
structure Token where
  kind : TokenKind
  value : String
  start : Nat
  stop : Nat
  deriving DecidableEq, Repr

namespace Token

/-- The token that ends a script of a given length. -/
def endAt (offset : Nat) : Token := ⟨.endOfScript, "", offset, offset⟩

/-- Whether a token ends the script. -/
def isEnd (t : Token) : Bool := t.kind == .endOfScript

/-- Whether a token is the given word or special character. A quoted
string never is, whatever it holds. -/
def is (t : Token) (text : String) : Bool :=
  (t.kind == .special || t.kind == .word) && t.value == text

/-- The word that a token is, if it is one. -/
def word? (t : Token) : Option String :=
  if t.kind = .word then some t.value else none

/-- A token as messages name it. -/
def describe (t : Token) : String :=
  if t.isEnd then "end of script" else "\"" ++ t.value ++ "\""

/-- Whether an offset lies on a token or at one of its ends. -/
def touches (t : Token) (offset : Nat) : Bool := t.start ≤ offset && offset ≤ t.stop

end Token

end ConceptScript.Script

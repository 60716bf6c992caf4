import ConceptScript.Text.Lines
import ConceptScript.Text.Letter
import ConceptScript.Text.Blank

/-!
# `ConceptScript.Script.Lexeme`: the pieces a script is written in

A lexeme is a stretch of the script: a comment, a word, a quoted string,
a reference to an external text, or a single other character. Blank
characters separate lexemes and belong to none. At each place the longest
possible lexeme is taken.

Nothing is refused here. A quoted string or a reference that the script
ends inside is a lexeme too, marked as not closed; it reaches the end of
the script, so it is always the last one.
-/

set_option autoImplicit false

namespace ConceptScript.Script

open ConceptScript.Text

/-- The two quote characters. A string opened by one is closed by the
same. -/
inductive Quote where
  | single
  | double
  deriving DecidableEq, Repr

/-- The character of a quote. -/
def Quote.char : Quote → Char
  | .single => '\''
  | .double => '"'

/-- The kinds of lexemes. A quoted string and a reference are `closed`
when the character that ends them is there. -/
inductive LexemeKind where
  /-- From `//` up to the end of the line. -/
  | comment
  /-- Letters, numbers and underscores. -/
  | word
  /-- A string in quotes; a quote inside it is written twice. -/
  | quoted (quote : Quote) (closed : Bool)
  /-- A reference `<path>` to an external text. -/
  | reference (closed : Bool)
  /-- Any other single character. -/
  | special
  deriving DecidableEq, Repr

/-- A stretch of a script, with its first offset and the offset just past
it. -/
structure Lexeme where
  kind : LexemeKind
  text : List Char
  start : Nat
  stop : Nat
  deriving DecidableEq, Repr

namespace Lexeme

/-- Whether a lexeme is a comment. -/
def isComment (l : Lexeme) : Bool := l.kind == .comment

/-- Whether the script ends inside a lexeme. -/
def isUnclosed (l : Lexeme) : Bool :=
  match l.kind with
  | .quoted _ closed => !closed
  | .reference closed => !closed
  | _ => false

end Lexeme

/-- One lexeme cut off the front of a text. -/
structure Cut where
  kind : LexemeKind
  text : List Char
  rest : List Char
  deriving DecidableEq, Repr

/-- The rest of a quoted string after its opening quote: the characters
up to and including the closing quote, whether there is one, and what
follows. Two quotes in a row stand for one inside the string. -/
def splitQuoted (q : Char) : List Char → List Char × Bool × List Char
  | [] => ([], false, [])
  | [c] => ([c], c == q, [])
  | c :: d :: rest =>
    if c = q then
      if d = q then
        let (taken, closed, left) := splitQuoted q rest
        (c :: d :: taken, closed, left)
      else ([c], true, d :: rest)
    else
      let (taken, closed, left) := splitQuoted q (d :: rest)
      (c :: taken, closed, left)

/-- Whether a character can stand in a comment: it does not end the
line. -/
def staysOnLine (c : Char) : Bool := c != '\r' && c != '\n'

/-- The lexeme that starts with a quote. -/
def cutQuoted (q : Quote) (rest : List Char) : Cut :=
  let (taken, closed, left) := splitQuoted q.char rest
  ⟨.quoted q closed, q.char :: taken, left⟩

/-- The lexeme that starts with `<`. -/
def cutReference (rest : List Char) : Cut :=
  match rest.dropWhile (· != '>') with
  | [] => ⟨.reference false, '<' :: rest, []⟩
  | close :: left => ⟨.reference true, '<' :: (rest.takeWhile (· != '>') ++ [close]), left⟩

/-- The lexeme that starts with a given character, which is not blank. -/
def cutLexeme (c : Char) (rest : List Char) : Cut :=
  if isWordChar c then ⟨.word, c :: rest.takeWhile isWordChar, rest.dropWhile isWordChar⟩
  else if c = '\'' then cutQuoted .single rest
  else if c = '"' then cutQuoted .double rest
  else if c = '<' then cutReference rest
  else if c = '/' ∧ rest.head? = some '/' then
    ⟨.comment, c :: rest.takeWhile staysOnLine, rest.dropWhile staysOnLine⟩
  else ⟨.special, [c], rest⟩

/-- Splitting a quoted text parts it and loses nothing of it, so what is cut
off is a suffix of the script. -/
theorem splitQuoted_append (q : Char) (s : List Char) :
    (splitQuoted q s).1 ++ (splitQuoted q s).2.2 = s := by
  fun_induction splitQuoted q s <;> simp_all

/-- Nothing is lost: a lexeme and what follows it make up the text. -/
theorem cutLexeme_append (c : Char) (rest : List Char) :
    (cutLexeme c rest).text ++ (cutLexeme c rest).rest = c :: rest := by
  -- Both kinds of quotes start a string that is cut off in the same way.
  have hq : ∀ q : Quote, q.char = c → (cutQuoted q rest).text ++ (cutQuoted q rest).rest
      = c :: rest := by
    intro q h
    simp [cutQuoted, h, splitQuoted_append]
  unfold cutLexeme
  split
  · simp
  split
  · next h => exact hq .single h.symm
  split
  · next h => exact hq .double h.symm
  split
  · next h =>
    subst h
    have key := List.takeWhile_append_dropWhile (p := fun x => x != '>') (l := rest)
    unfold cutReference
    split
    · simp
    · next close left hdrop =>
      rw [hdrop] at key
      simpa using key
  split
  · simp
  · rfl

/-- A lexeme has at least the character it starts with. This is why cutting
lexemes ends. -/
theorem cutLexeme_text_ne_nil (c : Char) (rest : List Char) :
    (cutLexeme c rest).text ≠ [] := by
  unfold cutLexeme
  (repeat' split) <;> simp [cutQuoted, cutReference]
  split <;> simp

/-- A lexeme takes at least one character, so lexing ends. -/
theorem cutLexeme_rest_length (c : Char) (rest : List Char) :
    (cutLexeme c rest).rest.length < (c :: rest).length := by
  have h := congrArg List.length (cutLexeme_append c rest)
  have hpos := List.length_pos_iff.mpr (cutLexeme_text_ne_nil c rest)
  rw [List.length_append] at h
  omega

/-- The lexemes of a text that starts at a given offset. -/
def lexFrom (offset : Nat) : List Char → List Lexeme
  | [] => []
  | c :: rest =>
    if isBlank c then lexFrom (offset + c.utf8Size) rest
    else
      let cut := cutLexeme c rest
      let stop := offset + byteLen cut.text
      ⟨cut.kind, cut.text, offset, stop⟩ :: lexFrom stop cut.rest
termination_by text => text.length
decreasing_by
  · simp
  · exact cutLexeme_rest_length c rest

/-- The lexemes of a script, in order, comments included. -/
def lex (text : List Char) : List Lexeme := lexFrom 0 text

end ConceptScript.Script

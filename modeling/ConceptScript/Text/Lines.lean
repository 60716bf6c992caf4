import ConceptScript.Text.Position

/-!
# `ConceptScript.Text.Lines`: lines and byte offsets

A text is a list of characters. Tools address it in two ways: by a place
(line and character) and by an offset in bytes of its UTF-8 form. This
module splits a text into lines and converts between the two.

A line ends with its `\n`, which belongs to it; the last line has none.
The content of a line is the line without its `\n` or `\r\n`. A `\r`
alone is an ordinary character.

Both conversions are total. A place outside the text is moved to the
nearest place on its line or on the last line. An offset outside the text
is moved to its end, one inside a character to the start of that
character, and one between `\r` and `\n` to the `\r`.

Cutting a text after the line that holds an offset is the one operation
here that can fail: it has no answer for an offset inside a character.

Lengths and offsets are natural numbers. Scripts are taken to stay below
4 GiB, so that every offset in one fits into 32 bits.
-/

set_option autoImplicit false

namespace ConceptScript.Text

/-- The length of a text in bytes. -/
def byteLen : List Char → Nat
  | [] => 0
  | c :: rest => c.utf8Size + byteLen rest

/-- The lines of a text, each with the `\n` that ends it. There is always
a last line without one; it may be empty. -/
def lines : List Char → List (List Char)
  | [] => [[]]
  | c :: rest =>
    if c = '\n' then [c] :: lines rest
    else match lines rest with
      | [] => [[c]]
      | line :: more => (c :: line) :: more

/-- A line without the `\n` or `\r\n` that ends it. -/
def content : List Char → List Char
  | [] => []
  | ['\n'] => []
  | ['\r', '\n'] => []
  | c :: rest => c :: content rest

/-- The number of lines of a text; an empty text has one. -/
def lineCount (text : List Char) : Nat := (lines text).length

/-- The number of characters on a line, without those that end it. A line
number past the end means the last line. -/
def lineLength (text : List Char) (line : Nat) : Nat :=
  (content ((lines text).getD (min line (lineCount text - 1)) [])).length

/-- The offset of a place in a text given by its lines. -/
def offsetIn : List (List Char) → LineChr → Nat
  | [], _ => 0
  | [line], p => byteLen ((content line).take p.chr)
  | line :: _ :: _, ⟨0, chr⟩ => byteLen ((content line).take chr)
  | line :: next :: more, ⟨n + 1, chr⟩ => byteLen line + offsetIn (next :: more) ⟨n, chr⟩

/-- The offset of a place. A line past the end means the last line, and a
character past the end of a line means the end of its content. -/
def offsetOf (text : List Char) (p : LineChr) : Nat := offsetIn (lines text) p

/-- How many leading characters end at or before an offset. -/
def charsWithin : List Char → Nat → Nat
  | [], _ => 0
  | c :: rest, offset =>
    if c.utf8Size ≤ offset then charsWithin rest (offset - c.utf8Size) + 1 else 0

/-- The place of an offset in a text given by its lines. -/
def placeIn : List (List Char) → Nat → LineChr
  | [], _ => ⟨0, 0⟩
  | [line], offset => ⟨0, min (charsWithin line offset) (content line).length⟩
  | line :: next :: more, offset =>
    if offset < byteLen line then ⟨0, min (charsWithin line offset) (content line).length⟩
    else
      let p := placeIn (next :: more) (offset - byteLen line)
      ⟨p.line + 1, p.chr⟩

/-- The place of an offset. An offset past the end means the end, one
inside a character means its start, and one between `\r` and `\n` means
the `\r`. -/
def lineChrOf (text : List Char) (offset : Nat) : LineChr := placeIn (lines text) offset

/-- A text up to and including its first `\n`. -/
def firstLine : List Char → List Char
  | [] => []
  | c :: rest => if c = '\n' then [c] else c :: firstLine rest

/-- A text cut just after the first `\n` at or after an offset, or all of
it if none follows. An offset past the end means the end. There is no
answer for an offset inside a character. -/
def truncateAtLineEnd : List Char → Nat → Option (List Char)
  | text, 0 => some (firstLine text)
  | [], _ + 1 => some []
  | c :: rest, offset + 1 =>
    if c.utf8Size ≤ offset + 1 then
      (truncateAtLineEnd rest (offset + 1 - c.utf8Size)).map (c :: ·)
    else none

/-- The offset at which `truncateAtLineEnd` cuts. -/
def endOfLineAfter (text : List Char) (offset : Nat) : Option Nat :=
  (truncateAtLineEnd text offset).map byteLen

end ConceptScript.Text

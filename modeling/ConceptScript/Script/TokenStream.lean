import ConceptScript.Files.FilePath
import ConceptScript.Script.Fault

/-!
# `ConceptScript.Script.TokenStream`: the tokens of a script

Lexemes become tokens one by one; comments are left out, and are found
by a scan of their own that never fails. The first fault stops the
stream, but the tokens before it stay and are followed by the end of the
script as usual.

External texts come from outside. Asking for one can have three outcomes:
the text, a reason why there is none, or a crash of whoever was asked. A
crash ends the stream at once, without an end of the script.
-/

set_option autoImplicit false

namespace ConceptScript.Script

open ConceptScript.Text
open ConceptScript.Files (FilePath)

/-- A script: its name, where it is stored if anywhere, and its text. -/
structure Source where
  name : String
  path : Option FilePath
  text : List Char
  deriving DecidableEq, Repr

/-- What comes of asking for an external text. -/
inductive ExternalOutcome where
  | content (text : String)
  | unavailable (reason : String)
  | crash (message : String)
  deriving DecidableEq, Repr

/-- Where external texts come from: asked by a script for a path relative
to it. -/
abbrev ExternalTexts := Source → String → ExternalOutcome

/-- How a stream of tokens ends. -/
inductive StreamEnd where
  /-- All lexemes became tokens. -/
  | complete
  /-- A lexeme is faulty; later ones were not looked at. -/
  | faulty (error : SyntaxError)
  /-- Reading an external text crashed. -/
  | crashed (message : String)
  deriving DecidableEq, Repr

/-- The tokens of a script and how they end. -/
structure TokenStream where
  tokens : List Token
  ending : StreamEnd
  deriving DecidableEq, Repr

/-- What becomes of one lexeme. -/
inductive Converted where
  | token (t : Token)
  | skipped
  | stopped (ending : StreamEnd)
  deriving DecidableEq, Repr

/-- The content of a quoted string, given with its quotes: each doubled
quote inside stands for one. -/
def undouble (q : Char) : List Char → List Char
  | [] => []
  | [c] => [c]
  | c :: d :: rest =>
    if c = q ∧ d = q then c :: undouble q rest else c :: undouble q (d :: rest)

/-- A text without its first and last character. -/
def withoutEnds (s : List Char) : List Char := s.tail.dropLast

/-- The token that a lexeme stands for. -/
def convert (texts : ExternalTexts) (source : Source) (l : Lexeme) : Converted :=
  let fault (f : Fault) := Converted.stopped (.faulty (.inText source.text f l.start l.stop))
  match l.kind with
  | .comment => .skipped
  | .word => .token ⟨.word, String.ofList l.text, l.start, l.stop⟩
  | .special => .token ⟨.special, String.ofList l.text, l.start, l.stop⟩
  | .quoted q true =>
    .token ⟨.quoted q, String.ofList (undouble q.char (withoutEnds l.text)), l.start, l.stop⟩
  | .quoted q false => fault (.unclosedQuote q)
  | .reference true =>
    let path := String.ofList (withoutEnds l.text)
    match texts source path with
    | .content text => .token ⟨.external, text, l.start, l.stop⟩
    | .unavailable reason => fault (.unreadableText path reason)
    | .crash message => .stopped (.crashed message)
  | .reference false => fault .unclosedReference

/-- The tokens of a list of lexemes, up to the first that stops the
stream. -/
def convertAll (texts : ExternalTexts) (source : Source) :
    List Lexeme → List Token × StreamEnd
  | [] => ([], .complete)
  | l :: rest =>
    match convert texts source l with
    | .skipped => convertAll texts source rest
    | .stopped ending => ([], ending)
    | .token t =>
      let (tokens, ending) := convertAll texts source rest
      (t :: tokens, ending)

/-- The tokens of a script. The end of the script follows them unless
reading crashed. -/
def tokenize (texts : ExternalTexts) (source : Source) : TokenStream :=
  match convertAll texts source (lex source.text) with
  | (tokens, .crashed message) => ⟨tokens, .crashed message⟩
  | (tokens, ending) => ⟨tokens ++ [.endAt (byteLen source.text)], ending⟩

/-- The comments of a text, as tokens. -/
def comments (text : List Char) : List Token :=
  ((lex text).filter Lexeme.isComment).map fun l =>
    ⟨.comment, String.ofList l.text, l.start, l.stop⟩

/-- The syntax error that stopped a stream, if one did. -/
def TokenStream.error (s : TokenStream) : Option SyntaxError :=
  match s.ending with
  | .faulty e => some e
  | .complete | .crashed _ => none

end ConceptScript.Script

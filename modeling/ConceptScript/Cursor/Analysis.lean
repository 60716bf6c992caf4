import ConceptScript.Cursor.Tracker
import ConceptScript.Model.Signature
import ConceptScript.Script.TokenStream

/-!
# `ConceptScript.Cursor.Analysis`: a script as seen from a cursor

An analysis reads a script and keeps what is known at one place in it.
Only the part up to the end of the cursor's line is read, so what stands
on later lines cannot matter. Without a cursor the whole script is read,
which is how its faults are found.

In a comment, and after one on the same line, there is no keyword.

Reading an external text may crash. The analysis then has the tokens read
before, and a finding that says so.
-/

set_option autoImplicit false

namespace ConceptScript.Cursor

open ConceptScript.Text
open ConceptScript.Script
open ConceptScript.Files (FilePath)
open ConceptScript.Model (TypeId)

/-- How serious a finding is. -/
inductive Severity where
  | error
  | warning
  | information
  | hint
  deriving DecidableEq, Repr

/-- Something to tell about a document. -/
structure Finding where
  message : String
  span : Span
  severity : Severity
  code : Option ErrorCode
  deriving DecidableEq, Repr

namespace Finding

/-- A syntax error as a finding. -/
def ofSyntaxError (e : SyntaxError) : Finding :=
  ⟨e.fault.message, e.span, .error, some e.fault.code⟩

/-- A finding about no place in particular. -/
def general (severity : Severity) (message : String) : Finding :=
  ⟨message, .empty .zero, severity, none⟩

/-- Reading an external text crashed. -/
def ofCrash (message : String) : Finding :=
  { general .error ("Unexpected error during analysis: " ++ message) with code := some .e0999 }

end Finding

/-- What is known about a script at a cursor. -/
structure Analysis where
  /-- The part of the script that was read. -/
  text : List Char
  /-- The cursor; without one the whole script was read. -/
  position : Option LineChr
  /-- The offset of the cursor. -/
  target : Nat
  tokens : List Token
  comments : List Token
  /-- The words that are no keywords, each once, sorted. -/
  words : List String
  /-- The concepts whose blocks enclose the cursor, innermost first. -/
  context : List Node
  keyword : Option Token
  nextKeyword : Option Token
  insideComment : Bool
  /-- Whether the script was looked at, whatever was found. -/
  completed : Bool
  findings : List Finding
  /-- For each type the last token and member read before the cursor. -/
  lastRead : List (TypeId × LastRead)
  /-- The types that the statement at the cursor may be. -/
  valid : List TypeId

/-- The part of a text up to the end of a cursor's line. A cursor never
points inside a character, so there always is one. -/
def textToRead (text : List Char) : Option LineChr → List Char
  | none => text
  | some p => (truncateAtLineEnd text (offsetOf text p)).getD text

/-- The offset of a cursor; without one, of the start of the text. -/
def targetIn (text : List Char) : Option LineChr → Nat
  | none => 0
  | some p => offsetOf text p

/-- The words of a script that are no keywords, each once, sorted. -/
def otherWords (m : Model) (tokens : List Token) : List String :=
  sortWords (firstsBy id [] ((tokens.filterMap Token.word?).filter (!m.isKeyword ·)))

/-- What reading a list of tokens says about a cursor. -/
def track (m : Model) (tokens : List Token) (target : Nat) : Tracker :=
  (Tracker.start tokens target).follow (parse m tokens).events

/-- The fault that a complete script is reported for, if any. A script
whose tokens are cut short by a fault is reported for that one. -/
def faultOf (m : Model) (text : List Char) (stream : TokenStream) : Option SyntaxError :=
  match stream.error with
  | some e => some e
  | none =>
    match (parse m stream.tokens).result with
    | .ok _ => none
    | .error failure => some (failure.inText text stream.tokens)

/-- Whether an offset is in a comment, or after one on the same line. -/
def inComment (text : List Char) (comments : List Token) (target : Nat) : Bool :=
  comments.any (fun c => c.start < target && target < c.stop) ||
    match (comments.filter (·.stop ≤ target)).getLast? with
    | some c => (lineChrOf text c.stop).line == (lineChrOf text target).line
    | none => false

/-- Analyses a script at a cursor, or the whole script. The path says
where the script is stored. -/
def analyze (m : Model) (texts : ExternalTexts) (path : Option FilePath) (fullText : List Char)
    (position : Option LineChr) : Analysis :=
  let text := textToRead fullText position
  let target := targetIn text position
  let stream := tokenize texts ⟨"document", path, text⟩
  let comments := comments text
  let suppressed := inComment text comments target
  match stream.ending with
  | .crashed message =>
    { text, position, target, comments
      tokens := stream.tokens
      words := []
      context := []
      keyword := none
      nextKeyword := none
      insideComment := suppressed
      completed := true
      findings := [.ofCrash message]
      lastRead := []
      valid := [] }
  | _ =>
    let tracker := track m stream.tokens target
    { text, position, target, comments
      tokens := stream.tokens
      words := otherWords m stream.tokens
      context := tracker.context
      keyword := if suppressed then none else tracker.keyword
      nextKeyword := tracker.nextKeyword
      insideComment := suppressed
      completed := true
      findings := ((faultOf m text stream).map .ofSyntaxError).toList
      lastRead := tracker.lastRead
      valid := tracker.valid }

namespace Analysis

/-- What stands in for an analysis that is not possible: a finding that
says why. -/
def blocked (severity : Severity) (message : String) : Analysis where
  text := []
  position := none
  target := 0
  tokens := []
  comments := []
  words := []
  context := []
  keyword := none
  nextKeyword := none
  insideComment := false
  completed := false
  findings := [.general severity message]
  lastRead := []
  valid := []

/-- Whether an analysis stands in for one that was not possible. -/
def isBlocked (a : Analysis) : Bool :=
  !a.completed && a.tokens.isEmpty && !a.findings.isEmpty

/-- Whether something is wrong with the script. -/
def hasErrors (a : Analysis) : Bool := a.findings.any (·.severity == .error)

/-- The innermost concept whose block encloses the cursor. -/
def innermost? (a : Analysis) : Option Node := a.context.head?

/-- The first token that an offset lies on or beside. -/
def tokenAt? (a : Analysis) (offset : Nat) : Option Token :=
  a.tokens.find? fun t => !t.isEnd && t.touches offset

/-- Whether the cursor is on the keyword or beside it. -/
def onKeyword (a : Analysis) : Bool := a.keyword.any (·.touches a.target)

/-- The keyword that applies at the cursor: that of the statement or,
outside of statements, that of the innermost concept around it. -/
def effectiveKeyword? (m : Model) (a : Analysis) : Option String :=
  match a.keyword with
  | some token => some token.value
  | none => a.innermost?.bind fun node => (m.typeAt node.type).keyword

/-- The place among the parameters of a type that the cursor is at. It is
the parameter read last while the cursor still touches its token, and the
next one after that. After the keyword the first one is next. -/
def activeParameter (m : Model) (a : Analysis) (type : TypeId) : Nat :=
  match a.lastRead.lookup type with
  | none => 0
  | some last =>
    let c := m.typeAt type
    let place := (c.parsablePlace last.member).getD 0
    if c.hasKeyword last.token.value || !last.token.touches a.target then place + 1 else place

/-- The types that the statement may be, each with its active
parameter. -/
def validWithParameter (m : Model) (a : Analysis) : List (TypeId × Nat) :=
  a.valid.map fun type => (type, a.activeParameter m type)

end Analysis

end ConceptScript.Cursor

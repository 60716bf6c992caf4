import ConceptScript.Script.Parse

/-!
# `ConceptScript.Cursor.Tracker`: what a script says about a cursor

The tracker follows the events of reading a script and keeps what matters
at one offset, the cursor:

* the keyword of the statement that the cursor is in or after,
* the first statement that starts after the cursor,
* the concepts whose blocks enclose the cursor,
* for every type tried, the last token and member read before the cursor,
* the types that the statement at the cursor may still be.

What is kept about types belongs to the keyword and is dropped with the
next one.
-/

set_option autoImplicit false

namespace ConceptScript.Cursor

open ConceptScript.Script
open ConceptScript.Model (TypeId)

/-- The last token read for a type before the cursor, and the index of
the member it was read for. -/
structure LastRead where
  token : Token
  member : Nat
  deriving DecidableEq, Repr

/-- What is known about a cursor. -/
structure Tracker where
  /-- The offset of the cursor. -/
  target : Nat
  /-- The index of the last token that starts before the cursor. -/
  lastBefore : Option Nat
  keyword : Option Token
  nextKeyword : Option Token
  /-- The concepts whose blocks enclose the cursor, innermost first. -/
  context : List Node
  /-- What was read last for each type. -/
  lastRead : List (TypeId × LastRead)
  /-- The types still possible, in the order in which they were found. -/
  valid : List TypeId

/-- The index of the last item with a property. -/
def lastIndex? {α : Type} (p : α → Bool) : List α → Option Nat
  | [] => none
  | a :: rest =>
    match lastIndex? p rest with
    | some i => some (i + 1)
    | none => if p a then some 0 else none

/-- Puts a value under a key. A key that is there keeps its place. -/
def putLast (key : TypeId) (value : LastRead) : List (TypeId × LastRead) →
    List (TypeId × LastRead)
  | [] => [(key, value)]
  | (k, v) :: rest => if k = key then (key, value) :: rest else (k, v) :: putLast key value rest

/-- Adds a type to a list unless it is there. -/
def addOnce (type : TypeId) (types : List TypeId) : List TypeId :=
  if types.contains type then types else types ++ [type]

namespace Tracker

/-- Nothing is known yet about a cursor in some tokens. -/
def start (tokens : List Token) (target : Nat) : Tracker where
  target := target
  lastBefore := lastIndex? (fun t => !t.isEnd && t.start < target) tokens
  keyword := none
  nextKeyword := none
  context := []
  lastRead := []
  valid := []

/-- A statement starts. A word at or before the cursor is the keyword
from now on. Anything else before the cursor ends the last keyword, once
the cursor is past it. The first start after the cursor is kept. -/
def onStatement (t : Tracker) (r : Reader) : Tracker :=
  let token := r.current
  if token.start ≤ t.target then
    if token.kind = .word then
      { t with keyword := some token, lastRead := [], valid := [] }
    else if token.stop < t.target then { t with keyword := none }
    else t
  else
    match t.nextKeyword with
    | none => { t with nextKeyword := some token }
    | some _ => t

/-- A member was tried. What was read by then is the token before the
reader. Up to the cursor it is kept as the last token of the type; from
the last token before the cursor on, the type is a possible one. Once a
later statement has started, nothing is kept. -/
def onMember (t : Tracker) (e : MemberEvent) : Tracker :=
  match t.nextKeyword, t.lastBefore, e.reader.before with
  | none, some lastBefore, token :: earlier =>
    let read := earlier.length
    let t :=
      match e.value with
      | .ok _ =>
        if read ≤ lastBefore then
          { t with lastRead := putLast e.type ⟨token, e.index⟩ t.lastRead }
        else t
      | .error _ => t
    if lastBefore ≤ read then { t with valid := addOnce e.type t.valid } else t
  | _, _, _ => t

/-- A block was opened or closed. A brace that ends at or before the
cursor decides which blocks enclose it, and ends the last keyword. -/
def onBlock (t : Tracker) (r : Reader) (context : List Node) : Tracker :=
  match r.last? with
  | some brace =>
    if brace.stop ≤ t.target then { t with context := context, keyword := none } else t
  | none => t

/-- Takes one event into account. -/
def watch (t : Tracker) : Event → Tracker
  | .statement r => t.onStatement r
  | .member e => t.onMember e
  | .block r context _ => t.onBlock r context

/-- What some events say about a cursor. -/
def follow (t : Tracker) (events : List Event) : Tracker := events.foldl watch t

end Tracker

end ConceptScript.Cursor

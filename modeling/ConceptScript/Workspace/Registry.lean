import ConceptScript.Workspace.Document

/-!
# `ConceptScript.Workspace.Registry`: all open scripts

A registry holds the open documents in the order in which they were
opened, the provider of the model in use, and a clock. Reading the clock
moves it on, so every reading is later than the ones before.

Opening a document is two steps: making it, which reads the clock, and
putting it into the registry. Opening one that is open replaces it in its
place.
-/

set_option autoImplicit false

namespace ConceptScript.Workspace

open ConceptScript.Text
open ConceptScript.Files (Store)
open ConceptScript.Script (ExternalTexts)
open ConceptScript.Cursor
open ConceptScript.Project

/-- The open documents and what they share. -/
structure Registry where
  provider : Provider
  documents : List Document
  /-- The latest moment read from the clock. -/
  clock : Nat
  /-- How many numbers were given to analyses. -/
  numbers : Nat

/-- Puts a document in the place of the one with the same URI, or at the
end. -/
def putDocument (d : Document) : List Document → List Document
  | [] => [d]
  | e :: rest => if e.uri = d.uri then d :: rest else e :: putDocument d rest

/-- Whole-document analyses of chosen documents: what was found in each,
the next free number, and the documents with what they now keep. -/
def analyzeChosen (p : Provider) (texts : ExternalTexts) (chosen : Document → Bool) :
    Nat → List Document → List (String × List Finding) × Nat × List Document
  | number, [] => ([], number, [])
  | number, d :: rest =>
    if chosen d then
      let answer := d.analysisAt p texts number none
      let (found, number, documents) := analyzeChosen p texts chosen (number + 1) rest
      ((d.uri, answer.result.analysis.findings) :: found, number, answer.document :: documents)
    else
      let (found, number, documents) := analyzeChosen p texts chosen number rest
      (found, number, d :: documents)

namespace Registry

/-- A registry without documents. -/
def new (provider : Provider) : Registry := ⟨provider, [], 0, 0⟩

/-- Reads the clock. -/
def now (r : Registry) : Nat × Registry :=
  (r.clock + 1, { r with clock := r.clock + 1 })

/-- The document with a URI. -/
def find? (r : Registry) (uri : String) : Option Document := r.documents.find? (·.uri == uri)

/-- Puts a document into the registry. -/
def put (r : Registry) (d : Document) : Registry :=
  { r with documents := putDocument d r.documents }

/-- Opens a document. -/
def openDocument (r : Registry) (uri : String) (text : List Char) : Document × Registry :=
  let (now, r) := r.now
  let d := Document.new uri text now
  (d, r.put d)

/-- Gives an open document a new text, or opens it. The answer tells
whether it was open. -/
def update (r : Registry) (uri : String) (text : List Char) : Bool × Document × Registry :=
  match r.find? uri with
  | some d =>
    let (now, r) := r.now
    let d := d.update text now
    (true, d, r.put d)
  | none =>
    let (d, r) := r.openDocument uri text
    (false, d, r)

/-- Closes a document. The answer tells whether it was open. -/
def close (r : Registry) (uri : String) : Bool × Registry :=
  ((r.find? uri).isSome, { r with documents := r.documents.filter (·.uri != uri) })

/-- The URIs of the open documents, in order. -/
def uris (r : Registry) : List String := r.documents.map (·.uri)

/-- The analysis of an open document at a cursor, with the context that
was used. -/
def analysisAt (r : Registry) (texts : ExternalTexts) (uri : String)
    (position : Option LineChr) : Option (Answer × Registry) :=
  (r.find? uri).map fun d =>
    let answer := d.analysisAt r.provider texts r.numbers position
    (answer, { r.put answer.document with numbers := r.numbers + 1 })

/-- Whether a document got its text after a moment. Every document did
where no moment is given. -/
def changedAfter (since : Option Nat) (d : Document) : Bool := since.all (· < d.changed)

/-- The documents that got their texts after a moment. -/
def changedSince (r : Registry) (since : Nat) : List Document :=
  r.documents.filter (changedAfter (some since))

/-- What is found in the documents that got their texts after a moment,
or in all documents. -/
def collect (r : Registry) (texts : ExternalTexts) (since : Option Nat) :
    List (String × List Finding) × Registry :=
  let (found, numbers, documents) :=
    analyzeChosen r.provider texts (changedAfter since) r.numbers r.documents
  (found, { r with numbers := numbers, documents := documents })

/-- Sees to it that a model is in use: refreshes it, or puts in place the
one of the first document whose project is known. The answer tells
whether a model was put in place. -/
def ensureContext (r : Registry) (store : Store) : Except ProjectError Bool × Registry :=
  match r.provider.context with
  | some _ =>
    let (result, provider) := r.provider.refresh store
    (result, { r with provider := provider })
  | none =>
    match r.documents.findSome? (·.root? r.provider.config) with
    | none => (.ok false, r)
    | some root =>
      let (result, provider) := r.provider.adopt store root
      (result.map fun _ => true, { r with provider := provider })

/-- Changes the provider by a step that may fail. -/
def withProvider {α : Type} (r : Registry) (step : Provider → Except ProjectError α × Provider) :
    Except ProjectError α × Registry :=
  let (result, provider) := step r.provider
  (result, { r with provider := provider })

end Registry

end ConceptScript.Workspace

import ConceptScript.Text.Beginning
import ConceptScript.Cursor.Analysis
import ConceptScript.Project.Directive
import ConceptScript.Project.Provider

/-!
# `ConceptScript.Workspace.Document`: an open script

A document is the current text of a script together with the analyses
made of it. An analysis is kept under the offset of its cursor, or as the
one of the whole text, and is used again for the same request. All are
dropped when the text changes or another model is in use.

A document can be analyzed only while the project in use is its own: the
one that its directive names or else the one of the settings.
-/

set_option autoImplicit false

namespace ConceptScript.Workspace

open ConceptScript.Text
open ConceptScript.Files (FilePath)
open ConceptScript.Script (ExternalTexts)
open ConceptScript.Cursor
open ConceptScript.Project

/-- What an analysis is kept under. -/
inductive CacheKey where
  | whole
  | offset (offset : Nat)
  deriving DecidableEq, Repr

/-- An analysis with the number it was given when it was made. The same
number means the same analysis. -/
structure Numbered where
  number : Nat
  analysis : Analysis

/-- An open script. -/
structure Document where
  uri : String
  text : List Char
  /-- The project that the text names. -/
  directive : Option FilePath
  /-- The generation of the context that the kept analyses used. -/
  generation : Option Nat
  /-- The analyses kept. -/
  cache : List (CacheKey × Numbered)
  /-- The moment at which the text was last given. -/
  changed : Nat

/-- Why a document cannot be analyzed. -/
inductive Obstacle where
  | noRoot
  | noContext (root : FilePath)
  | otherRoot (root inUse : FilePath)
  deriving DecidableEq, Repr

/-- An obstacle in words. -/
def Obstacle.message : Obstacle → String
  | .noRoot =>
    "No project root path is known for this document. "
      ++ "Add a '// <rhetosProjectRootPath=\"...\" />' line to the script."
  | .noContext root => "Project at '" ++ root.text ++ "' is not initialized yet."
  | .otherRoot root inUse =>
    "Document root path '" ++ root.text ++ "' differs from the initialized project root path '"
      ++ inUse.text ++ "'."

/-- What is answered to a request: the analysis, the context it used if
there was one, and the document with what it now keeps. -/
structure Answer where
  result : Numbered
  context : Option Context
  document : Document

namespace Document

/-- A document opened at a moment. -/
def new (uri : String) (text : List Char) (now : Nat) : Document where
  uri := uri
  text := text
  directive := rootPath? text
  generation := none
  cache := []
  changed := now

/-- A document with a new text. -/
def update (d : Document) (text : List Char) (now : Nat) : Document :=
  { d with text := text, directive := rootPath? text, cache := [], changed := now }

/-- The project of a document. -/
def root? (d : Document) (config : Config) : Option FilePath :=
  match d.directive with
  | some root => some root
  | none => config.rootPath

/-- Where a script is stored: what follows `file://` in its URI. -/
def path? (d : Document) : Option FilePath :=
  (after? "file://".toList d.uri.toList).map fun path => ⟨String.ofList path⟩

/-- The context to analyze a document with. -/
def usableContext (d : Document) (p : Provider) : Except Obstacle Context :=
  match d.root? p.config with
  | none => .error .noRoot
  | some root =>
    match p.context with
    | none => .error (.noContext root)
    | some context =>
      if context.root.same root then .ok context else .error (.otherRoot root context.root)

/-- What the analysis at a cursor is kept under. Cursors with the same
offset share it. -/
def keyFor (d : Document) : Option LineChr → CacheKey
  | none => .whole
  | some p => .offset (offsetOf d.text p)

/-- The analysis of a document at a cursor, made anew. -/
def run (d : Document) (context : Context) (texts : ExternalTexts) (position : Option LineChr) :
    Analysis :=
  analyze context.model texts d.path? d.text position

/-- A document that keeps only analyses made with the given context. -/
def keepFor (d : Document) (context : Context) : Document :=
  if d.generation = some context.generation then d
  else { d with cache := [], generation := some context.generation }

/-- The analysis of a document at a cursor, or of the whole of it: the
one that is kept, or a new one, which gets the given number and is
kept. -/
def analysisAt (d : Document) (p : Provider) (texts : ExternalTexts) (number : Nat)
    (position : Option LineChr) : Answer :=
  match d.usableContext p with
  | .error obstacle => ⟨⟨number, .blocked .warning obstacle.message⟩, none, d⟩
  | .ok context =>
    let d := d.keepFor context
    let key := d.keyFor position
    match d.cache.lookup key with
    | some kept => ⟨kept, some context, d⟩
    | none =>
      let made : Numbered := ⟨number, d.run context texts position⟩
      ⟨made, some context, { d with cache := (key, made) :: d.cache }⟩

end Document

end ConceptScript.Workspace

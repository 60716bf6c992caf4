import ConceptScript.Files.Store
import ConceptScript.Model.Format
import ConceptScript.Project.Config

/-!
# `ConceptScript.Project.Provider`: the model in use

Analyses use the model of one project at a time. The provider holds it
together with the root of the project and a generation, which counts the
models installed so far. So two contexts of one provider with the same
generation are the same context.

Putting a model in place takes two steps: loading the file, which may
fail, and installing what was loaded. Refreshing also takes two steps
before these: remembering which project and file time are current, and
looking at the time of the file now. The steps are kept apart because
other steps may come in between.
-/

set_option autoImplicit false

namespace ConceptScript.Project

open ConceptScript.Files
open ConceptScript.Model (LoadError)

/-- Why there is no model or no configuration. -/
inductive ProjectError where
  /-- A file cannot be read. -/
  | unreadable (reason : FileError)
  /-- The configuration is malformed. -/
  | config
  /-- The project has no model file. -/
  | missingModel (file : FilePath)
  /-- The model file is no model. -/
  | badModel (file : FilePath) (source : LoadError)
  deriving DecidableEq, Repr

/-- A project error in words. Nothing more is said about malformed
settings. -/
def ProjectError.message : ProjectError → String
  | .unreadable reason => "IO error: " ++ reason.message
  | .config => "Invalid configuration"
  | .missingModel file =>
    "Syntax model not found at " ++ file.text ++ ". Build the project to generate it."
  | .badModel file source =>
    "Failed to load syntax model " ++ file.text ++ ": " ++ source.message

/-- The settings in a file. -/
def Config.load (store : Store) (file : FilePath) : Except ProjectError Config :=
  match store.readText file with
  | .error reason => .error (.unreadable reason)
  | .ok text =>
    match Config.ofText? text.toList with
    | none => .error .config
    | some config => .ok config

/-- The model in a file. -/
def loadModel (store : Store) (file : FilePath) : Except LoadError Model :=
  match store.readText file with
  | .error reason => .error (.unreadable reason.message)
  | .ok text => Model.ofText text.toList

/-- What an analysis uses: a model, the project it belongs to, and the
count of models installed by then. -/
structure Context where
  root : FilePath
  model : Model
  generation : Nat
  deriving DecidableEq, Repr

/-- A model that was read and is not yet in place: the project, the model
and the time of the file. -/
structure Loaded where
  root : FilePath
  model : Model
  modified : Option ModTime
  deriving DecidableEq, Repr

/-- The holder of the model in use. -/
structure Provider where
  config : Config
  context : Option Context
  /-- The time of the file that the model was read from, if known. -/
  modified : Option ModTime
  /-- The number of models installed. -/
  generation : Nat
  deriving DecidableEq, Repr

/-- What a refresh remembers before it looks at the file. -/
structure Remembered where
  root : FilePath
  modified : Option ModTime
  deriving DecidableEq, Repr

namespace Provider

/-- A provider without a model. -/
def new (config : Config) : Provider := ⟨config, none, none, 0⟩

/-- A provider with a model that comes from no file. -/
def ofModel (root : FilePath) (model : Model) : Provider :=
  ⟨{ Config.standard with rootPath := some root }, some ⟨root, model, 1⟩, none, 1⟩

/-- Reads the model of a project. -/
def load (config : Config) (store : Store) (root : FilePath) : Except ProjectError Loaded :=
  let file := config.modelFile root
  if !store.isFile file then .error (.missingModel file)
  else match loadModel store file with
    | .error source => .error (.badModel file source)
    | .ok model => .ok ⟨root, model, store.modified? file⟩

/-- Puts a model in place. -/
def install (p : Provider) (loaded : Loaded) : Provider :=
  let generation := p.generation + 1
  { p with
    context := some ⟨loaded.root, loaded.model, generation⟩
    modified := loaded.modified
    generation := generation }

/-- Reads the model of a project and puts it in place. On failure
everything stays as it was. -/
def adopt (p : Provider) (store : Store) (root : FilePath) : Except ProjectError Unit × Provider :=
  match load p.config store root with
  | .error e => (.error e, p)
  | .ok loaded => (.ok (), p.install loaded)

/-- What to compare the file with. Without a model there is nothing to
refresh. -/
def remember (p : Provider) : Option Remembered :=
  p.context.map fun c => ⟨c.root, p.modified⟩

/-- Whether the model file has been written since. A file that is gone
has not. -/
def isStale (config : Config) (store : Store) (r : Remembered) : Bool :=
  match store.modified? (config.modelFile r.root) with
  | none => false
  | some now => some now != r.modified

/-- Reads the model again if its file has been written since, and tells
whether a model was put in place. -/
def refresh (p : Provider) (store : Store) : Except ProjectError Bool × Provider :=
  match p.remember with
  | none => (.ok false, p)
  | some r =>
    if isStale p.config store r then
      match p.adopt store r.root with
      | (.error e, p') => (.error e, p')
      | (.ok (), p') => (.ok true, p')
    else (.ok false, p)

end Provider

end ConceptScript.Project

import ConceptScript.Files.FilePath
import ConceptScript.Json.Read
import ConceptScript.Json.Fields

/-!
# `ConceptScript.Project.Config`: settings of the analysis

Settings are a JSON record in which every field may be missing. An empty
object and an empty array both leave all settings as they are.
-/

set_option autoImplicit false

namespace ConceptScript.Project

open ConceptScript.Files (FilePath)
open ConceptScript.Json

/-- The settings. Times are in milliseconds. -/
structure Config where
  /-- The project of scripts that do not name one. -/
  rootPath : Option FilePath
  /-- Where the model file is, from the root of a project. -/
  modelPath : FilePath
  publishInterval : Nat
  rootCheckInterval : Nat
  shutdownTimeout : Nat
  deriving DecidableEq, Repr

namespace Config

/-- The settings that apply where nothing else is said. -/
def standard : Config := ⟨none, ⟨"obj/Rhetos/DslSyntax.json"⟩, 500, 2000, 2000⟩

/-- A path, written as a string. -/
def path? (v : Value) : Option FilePath := v.text?.map FilePath.mk

/-- The settings that a record holds. -/
def ofJson? (v : Value) : Option Config := do
  let fields ← v.fields? ["rootPath", "syntaxModelPath", "publishDiagnosticsIntervalMs",
    "rootPathCheckIntervalMs", "shutdownTimeoutMs"]
  let rootPath ← optional fields "rootPath" standard.rootPath (Value.orNull? path?)
  let modelPath ← optional fields "syntaxModelPath" standard.modelPath path?
  let publish ← optional fields "publishDiagnosticsIntervalMs" standard.publishInterval
    Value.natural?
  let rootCheck ← optional fields "rootPathCheckIntervalMs" standard.rootCheckInterval
    Value.natural?
  let shutdown ← optional fields "shutdownTimeoutMs" standard.shutdownTimeout Value.natural?
  pure ⟨rootPath, modelPath, publish, rootCheck, shutdown⟩

/-- The settings that a text holds. -/
def ofText? (text : List Char) : Option Config := Json.read text >>= ofJson?

/-- The model file of a project. -/
def modelFile (c : Config) (root : FilePath) : FilePath := root.join c.modelPath

end Config

end ConceptScript.Project

import ConceptScript.Workspace.Registry

/-!
# `ConceptScript.Workspace.Publisher`: telling what is wrong, again and again

The publisher runs at intervals. A tick publishes the findings of the
documents that got a new text since the last tick started, or of all
documents when another model is in use than at the last tick. It has
three steps: reading the clock and the generation, collecting, and
remembering both for the next tick. A tick that is broken off before the
last step leaves nothing to remember, so what it published is published
again.
-/

set_option autoImplicit false

namespace ConceptScript.Workspace

open ConceptScript.Script (ExternalTexts)
open ConceptScript.Cursor

/-- What the publisher remembers of its last complete tick: when it
started and the generation of the context then. -/
structure Publisher where
  started : Option Nat
  generation : Option Nat
  deriving DecidableEq, Repr

/-- A tick that has started. -/
structure Tick where
  started : Nat
  generation : Option Nat
  /-- The moment after which documents have to be published, or none for
  all documents. -/
  since : Option Nat
  deriving DecidableEq, Repr

namespace Publisher

/-- A publisher before its first tick. -/
def new : Publisher := ⟨none, none⟩

/-- Starts a tick, given the moment and the generation in use. -/
def start (p : Publisher) (now : Nat) (generation : Option Nat) : Tick where
  started := now
  generation := generation
  since := if generation = p.generation then p.started else none

/-- Remembers a tick that is complete. -/
def finish (t : Tick) : Publisher := ⟨some t.started, t.generation⟩

/-- A whole tick: what is published, and what is remembered. A tick that
is broken off has published but remembers nothing. -/
def tick (p : Publisher) (r : Registry) (texts : ExternalTexts) (brokenOff : Bool) :
    List (String × List Finding) × Publisher × Registry :=
  let (now, r) := r.now
  let t := p.start now (r.provider.context.map (·.generation))
  let (found, r) := r.collect texts t.since
  (found, if brokenOff then p else finish t, r)

end Publisher

end ConceptScript.Workspace

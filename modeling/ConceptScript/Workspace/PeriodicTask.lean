/-!
# `ConceptScript.Workspace.PeriodicTask`: jobs that run at intervals

A task runs its job again and again. A run that fails is over and does
not keep later runs from happening. Shutting a task down cancels it and
waits a limited time for a run that is still going on.
-/

set_option autoImplicit false

namespace ConceptScript.Workspace

/-- How a run ended. -/
inductive RunEnd where
  | done
  | failed
  deriving DecidableEq, Repr

/-- A task: its name, whether it was cancelled, whether a run is going
on, and how the runs so far ended. -/
structure PeriodicTask where
  name : String
  cancelled : Bool
  running : Bool
  ends : List RunEnd
  deriving DecidableEq, Repr

namespace PeriodicTask

/-- The task that publishes findings. -/
def publishing : String := "publish-diagnostics"

/-- The task that looks for the project and for new models. -/
def rootCheck : String := "root-path-check"

/-- A task that was just started. -/
def spawn (name : String) : PeriodicTask := ⟨name, false, false, []⟩

/-- A run begins, unless the task was cancelled. -/
def beginRun (t : PeriodicTask) : PeriodicTask :=
  if t.cancelled then t else { t with running := true }

/-- The run that is going on ends. -/
def endRun (t : PeriodicTask) (how : RunEnd) : PeriodicTask :=
  if t.running then { t with running := false, ends := t.ends ++ [how] } else t

/-- Cancels a task and tells whether it stopped in time. It does not
while a run is going on for longer than the wait. -/
def shutdown (t : PeriodicTask) : Bool × PeriodicTask :=
  (!t.running, { t with cancelled := true })

end PeriodicTask

end ConceptScript.Workspace

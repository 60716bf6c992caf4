import Mathlib.Data.List.Induction
import Mathlib.Logic.Function.Basic
import ConceptScript.Proofs.Project.ModelFile

/-!
# `ConceptScript.Proofs.Project.Refreshing`: calls that overlap

Reading a model takes long, so several threads can be at it at once. A
`Calls` is a provider with the stage that the call of each thread is at, a
`Move` is a part of the call of a thread, and a run is any order of moves in
which each can be made. Files may change between moves: a part that looks
at files is given those that are there then.

* Adopting a project loads its model, then installs it.
* A refresh remembers the project in use, looks whether its file has been
  written since, loads the model again, then installs it.

A call that fails or has nothing to do ends early. `run_adopt` and
`run_refresh` say that the parts without anything in between are the
operations of a provider.

What a refresh remembers may be out of date by the time it installs a
model, since other calls may have installed models during it. What a part
can do is said once, for the project in use (`Part.root?_step`) and for the
project that a refresh is at work on (`Part.refreshes?_step`).
`refresh_keeps_root_iff` puts these together: a refresh stays with the
project in use unless the last model installed during it is of another
project. If one is, that project is lost (`not_keepsProject`).
-/

set_option autoImplicit false

namespace ConceptScript.Project

open ConceptScript.Files

/-! ### Parts of calls -/

/-- The calls that put models in place. -/
inductive Call where
  | adopt
  | refresh
  deriving DecidableEq, Repr

/-- How far the call of a thread has come. -/
inductive Stage where
  /-- No call is under way. -/
  | idle
  /-- A refresh has remembered the project in use. -/
  | remembered (r : Remembered)
  /-- A refresh has found that the file of a project has been written. -/
  | stale (root : FilePath)
  /-- The model is read and not in place yet. -/
  | loaded (call : Call) (model : Loaded)
  deriving DecidableEq, Repr

/-- How a call goes on after its model was to be loaded. -/
def Stage.afterLoad (call : Call) : Except ProjectError Loaded → Stage
  | .ok model => .loaded call model
  | .error _ => .idle

/-- The project that a refresh is at work on. -/
def Stage.refreshes? : Stage → Option FilePath
  | .remembered r => some r.root
  | .stale root => some root
  | .loaded .refresh model => some model.root
  | .idle | .loaded .adopt _ => none

/-- A part of a call. The store holds the files that are there at that
time. -/
inductive Part where
  | adopt (store : Store) (root : FilePath)
  | remember
  | look (store : Store)
  | reload (store : Store)
  | install

/-- A part of the call of a thread. -/
structure Move where
  thread : Nat
  part : Part

/-- The root of the project in use. -/
def Provider.root? (p : Provider) : Option FilePath := p.context.map (·.root)

namespace Part

/-- The provider and the stage of a call after a part of it, if the call is
at the stage for this part. -/
def step (p : Provider) : Part → Stage → Option (Provider × Stage)
  | .adopt store root, .idle => some (p, .afterLoad .adopt (Provider.load p.config store root))
  | .remember, .idle => some (p, (p.remember.map .remembered).getD .idle)
  | .look store, .remembered r =>
    some (p, if Provider.isStale p.config store r then .stale r.root else .idle)
  | .reload store, .stale root =>
    some (p, .afterLoad .refresh (Provider.load p.config store root))
  | .install, .loaded _ model => some (p.install model, .idle)
  | _, _ => none

/-- The project whose model a part puts in place. -/
def installs? : Part → Stage → Option FilePath
  | .install, .loaded _ model => some model.root
  | _, _ => none

variable {p p' : Provider} {part : Part} {stage stage' : Stage}

/-- A part of a call sets the project in use to the one whose model it
installs, if it installs one. -/
theorem root?_step (h : part.step p stage = some (p', stage')) :
    p'.root? = (part.installs? stage).or p.root? := by
  unfold step at h
  split at h <;> cases h <;> rfl

/-- After its model was to be loaded a call is at work on a refresh only if
it was one, and for the same project. -/
theorem refreshes?_afterLoad {config : Config} {store : Store} {root root' : FilePath} {call : Call}
    (h : (Stage.afterLoad call (Provider.load config store root)).refreshes? = some root') :
    call = .refresh ∧ root = root' := by
  cases hload : Provider.load config store root with
  | error e =>
    rw [hload] at h
    cases h
  | ok model =>
    rw [hload] at h
    cases call with
    | adopt => cases h
    | refresh => exact ⟨rfl, (Provider.load_eq_ok hload).1.symm.trans (Option.some.inj h)⟩

/-- What a refresh remembers is the project in use at that time. -/
theorem root?_of_remember {r : Remembered} (h : p.remember = some r) : p.root? = some r.root := by
  obtain ⟨context, hcontext, rfl⟩ := Option.map_eq_some_iff.mp h
  rw [Provider.root?, hcontext]
  rfl

/-- A refresh gets its project when it remembers, and keeps it. -/
theorem refreshes?_step (h : part.step p stage = some (p', stage')) {root : FilePath}
    (hafter : stage'.refreshes? = some root) :
    (part = .remember ∧ p.root? = some root)
      ∨ (part ≠ .remember ∧ stage.refreshes? = some root) := by
  -- Each part goes with one stage, and with no other one.
  cases part with
  | adopt store root' =>
    cases stage with
    | idle =>
      cases h
      cases (refreshes?_afterLoad hafter).1
    | remembered _ | stale _ | loaded _ _ => cases h
  | remember =>
    cases stage with
    | idle =>
      cases h
      cases hremember : p.remember with
      | none =>
        rw [hremember] at hafter
        cases hafter
      | some r =>
        rw [hremember] at hafter
        exact .inl ⟨rfl, (root?_of_remember hremember).trans hafter⟩
    | remembered _ | stale _ | loaded _ _ => cases h
  | look store =>
    cases stage with
    | remembered r =>
      cases h
      refine .inr ⟨by simp, ?_⟩
      split at hafter
      · exact hafter
      · cases hafter
    | idle | stale _ | loaded _ _ => cases h
  | reload store =>
    cases stage with
    | stale root' =>
      cases h
      exact .inr ⟨by simp, congrArg some (refreshes?_afterLoad hafter).2⟩
    | idle | remembered _ | loaded _ _ => cases h
  | install =>
    cases stage with
    | loaded call model =>
      -- The call has ended.
      cases h
      cases hafter
    | idle | remembered _ | stale _ => cases h

/-- What some parts of a call come to, one after the other. -/
def run (p : Provider) (stage : Stage) (parts : List Part) : Option (Provider × Stage) :=
  parts.foldlM (fun (p, stage) part => part.step p stage) (p, stage)

/-- Some parts of a call are done one after the other. -/
theorem run_cons {parts : List Part} : run p stage (part :: parts)
    = (part.step p stage).bind fun (p', stage') => run p' stage' parts := rfl

/-- Adopting a project in one go. The call ends early if loading fails. -/
theorem run_adopt (p : Provider) (store : Store) (root : FilePath) :
    ∃ n, run p .idle ([.adopt store root, .install].take n)
      = some ((p.adopt store root).2, .idle) := by
  unfold Provider.adopt
  cases hload : Provider.load p.config store root with
  | error e => exact ⟨1, by simp [run, step, hload, Stage.afterLoad]⟩
  | ok model => exact ⟨2, by simp [run, step, hload, Stage.afterLoad]⟩

/-- Refreshing in one go. The call ends early if there is nothing to refresh,
the file has not been written since, or loading fails. -/
theorem run_refresh (p : Provider) (store : Store) :
    ∃ n, run p .idle ([.remember, .look store, .reload store, .install].take n)
      = some ((p.refresh store).2, .idle) := by
  unfold Provider.refresh
  cases hremember : p.remember with
  | none => exact ⟨1, by simp [run, step, hremember]⟩
  | some r =>
    dsimp only
    cases hstale : Provider.isStale p.config store r with
    | false => exact ⟨2, by simp [run, step, hremember, hstale]⟩
    | true =>
      unfold Provider.adopt
      cases hload : Provider.load p.config store r.root with
      | error e => exact ⟨3, by simp [run, step, hremember, hstale, hload, Stage.afterLoad]⟩
      | ok model => exact ⟨4, by simp [run, step, hremember, hstale, hload, Stage.afterLoad]⟩

end Part

/-! ### Runs -/

/-- A provider with the calls that are under way, one of each thread. -/
structure Calls where
  provider : Provider
  stage : Nat → Stage

namespace Calls

/-- A provider without calls. -/
def atRest (p : Provider) : Calls := ⟨p, fun _ => .idle⟩

/-- The root of the project in use. -/
def root? (s : Calls) : Option FilePath := s.provider.root?

/-- What there is after a move, if the move can be made. -/
def step (s : Calls) (m : Move) : Option Calls :=
  (m.part.step s.provider (s.stage m.thread)).map fun (provider, stage) =>
    ⟨provider, Function.update s.stage m.thread stage⟩

/-- What there is after some moves, the first one first, if they can be
made. -/
def run (s : Calls) (moves : List Move) : Option Calls := moves.foldlM step s

/-- The projects whose models some moves put in place, in order. -/
def installed (s : Calls) : List Move → List FilePath
  | [] => []
  | m :: rest =>
    (m.part.installs? (s.stage m.thread)).toList
      ++ ((s.step m).map (installed · rest)).getD []

variable {s s' start now : Calls} {m : Move} {moves : List Move}

/-- A move is a part of the call of its thread, and leaves all other calls
as they are. -/
theorem step_cases (h : s.step m = some s') :
    m.part.step s.provider (s.stage m.thread) = some (s'.provider, s'.stage m.thread)
      ∧ ∀ thread, thread ≠ m.thread → s'.stage thread = s.stage thread := by
  obtain ⟨⟨p, stage⟩, hpart, rfl⟩ := Option.map_eq_some_iff.mp h
  dsimp only
  rw [Function.update_self]
  exact ⟨hpart, fun thread hother => Function.update_of_ne hother _ _⟩

/-- A move does the part of its thread and leaves the calls of the others
where they are. -/
theorem step_of_part {p : Provider} {stage : Stage}
    (h : m.part.step s.provider (s.stage m.thread) = some (p, stage)) :
    s.step m = some ⟨p, Function.update s.stage m.thread stage⟩ := by
  rw [step, h]
  rfl

/-- Moves are made one after the other: the first one, and from there the
others. -/
theorem run_cons : s.run (m :: moves) = some s'
    ↔ ∃ between, s.step m = some between ∧ between.run moves = some s' := by
  rw [run, List.foldlM_cons]
  exact Option.bind_eq_some_iff

/-- Two stretches of moves can be made just if the second one can be made
from where the first one leads. -/
theorem run_append {more : List Move} : s.run (moves ++ more) = some s'
    ↔ ∃ between, s.run moves = some between ∧ between.run more = some s' := by
  rw [run, List.foldlM_append]
  exact Option.bind_eq_some_iff

/-- The project in use is that of the model installed last. -/
theorem root?_run (h : s.run moves = some s') :
    s'.root? = (s.installed moves).getLast?.or s.root? := by
  induction moves generalizing s with
  | nil =>
    cases h
    rfl
  | cons m rest ih =>
    obtain ⟨between, hstep, hrest⟩ := run_cons.mp h
    have hroot : between.root? = (m.part.installs? (s.stage m.thread)).or s.root? :=
      Part.root?_step (step_cases hstep).1
    rw [ih hrest, installed, hstep, List.getLast?_append, Option.or_assoc, hroot]
    cases m.part.installs? (s.stage m.thread) <;> rfl

/-- The refresh of a thread gets its project when it remembers. Every other
move, of whatever thread, leaves it with that project or ends it. -/
theorem refreshes?_step (h : s.step m = some s') {thread : Nat} {root : FilePath}
    (hafter : (s'.stage thread).refreshes? = some root) :
    (m = ⟨thread, .remember⟩ ∧ s.root? = some root)
      ∨ (m ≠ ⟨thread, .remember⟩ ∧ (s.stage thread).refreshes? = some root) := by
  obtain ⟨mover, part⟩ := m
  obtain ⟨hpart, hothers⟩ := step_cases h
  by_cases hthread : thread = mover
  · subst hthread
    rcases Part.refreshes?_step hpart hafter with ⟨rfl, hroot⟩ | ⟨hother, hkept⟩
    · exact .inl ⟨rfl, hroot⟩
    · exact .inr ⟨fun heq => hother (congrArg Move.part heq), hkept⟩
  · refine .inr ⟨fun heq => hthread (congrArg Move.thread heq).symm, ?_⟩
    rwa [hothers thread hthread] at hafter

/-- A refresh that is under way has remembered its project at some move, and
since then its thread has not started another one. -/
theorem exists_remember {p : Provider} (h : (atRest p).run moves = some now) {thread : Nat}
    {root : FilePath} (hroot : (now.stage thread).refreshes? = some root) :
    ∃ before between start, moves = before ++ ⟨thread, .remember⟩ :: between
      ∧ ⟨thread, .remember⟩ ∉ between ∧ (atRest p).run before = some start
      ∧ start.run (⟨thread, .remember⟩ :: between) = some now ∧ start.root? = some root := by
  induction moves using List.reverseRecOn generalizing now with
  | nil =>
    cases h
    cases hroot
  | append_singleton moves m ih =>
    obtain ⟨last, hmoves, hlast⟩ := run_append.mp h
    obtain ⟨_, hstep, hnone⟩ := run_cons.mp hlast
    cases hnone
    rcases refreshes?_step hstep hroot with ⟨rfl, hstart⟩ | ⟨hother, hbefore⟩
    · exact ⟨moves, [], last, rfl, List.not_mem_nil, hmoves, hlast, hstart⟩
    · -- The refresh was under way before the last move.
      obtain ⟨before, between, start, rfl, hnone, hrun, hrest, hstart⟩ := ih hmoves hbefore
      refine ⟨before, between ++ [m], start, by simp, ?_, hrun, ?_, hstart⟩
      · simpa [hnone] using hother.symm
      · rw [← List.cons_append]
        exact run_append.mpr ⟨last, hrest, hlast⟩

/-! ### The parts of a call make the call -/

/-- Some parts of the call of a thread, one after the other. -/
def movesOf (thread : Nat) (parts : List Part) : List Move := parts.map (⟨thread, ·⟩)

/-- Without anything in between, the parts of a call see only what they
leave for each other. -/
theorem run_movesOf (s : Calls) (thread : Nat) (parts : List Part) :
    s.run (movesOf thread parts) = (Part.run s.provider (s.stage thread) parts).map
      fun (provider, stage) => ⟨provider, Function.update s.stage thread stage⟩ := by
  induction parts generalizing s with
  | nil =>
    show some s = some ⟨s.provider, Function.update s.stage thread (s.stage thread)⟩
    rw [Function.update_eq_self]
  | cons part rest ih =>
    show (s.step ⟨thread, part⟩).bind (·.run (movesOf thread rest)) = _
    rw [Part.run_cons, step]
    cases part.step s.provider (s.stage thread) with
    | none => rfl
    | some after =>
      show Calls.run _ _ = _
      -- The later parts find the stage that this one leaves for its thread.
      rw [ih]
      dsimp only
      rw [Function.update_self]
      simp only [Function.update_idem]
      rfl

/-- A call that ends without anything in between changes the provider and
nothing else. -/
theorem run_movesOf_of_idle {thread : Nat} {parts : List Part} {p : Provider}
    (hidle : s.stage thread = .idle) (h : Part.run s.provider .idle parts = some (p, .idle)) :
    s.run (movesOf thread parts) = some { s with provider := p } := by
  rw [run_movesOf, hidle, h, ← hidle]
  show some (Calls.mk p (Function.update s.stage thread (s.stage thread))) = _
  rw [Function.update_eq_self]

/-- Adopting a project in one go. -/
theorem run_adopt {thread : Nat} (hidle : s.stage thread = .idle) (store : Store)
    (root : FilePath) : ∃ n, s.run (movesOf thread ([.adopt store root, .install].take n))
      = some { s with provider := (s.provider.adopt store root).2 } :=
  let ⟨n, h⟩ := Part.run_adopt s.provider store root
  ⟨n, run_movesOf_of_idle hidle h⟩

/-- Refreshing in one go. -/
theorem run_refresh {thread : Nat} (hidle : s.stage thread = .idle) (store : Store) :
    ∃ n, s.run (movesOf thread ([.remember, .look store, .reload store, .install].take n))
      = some { s with provider := (s.provider.refresh store).2 } :=
  let ⟨n, h⟩ := Part.run_refresh s.provider store
  ⟨n, run_movesOf_of_idle hidle h⟩

/-! ### A refresh among other calls -/

/-- Whether each refresh stays with the project that is in use when it
installs its model, whatever other calls there are. -/
def KeepsProject (p : Provider) : Prop :=
  ∀ moves now thread model after, (atRest p).run moves = some now →
    now.stage thread = .loaded .refresh model → now.step ⟨thread, .install⟩ = some after →
      after.root? = now.root?

/-- A refresh that is about to install a model stays with the project in use
if and only if the model installed last since the refresh began, should
there be one, is of the project that was in use then. It installs a model
of that project in any case. -/
theorem refresh_keeps_root_iff {p : Provider} {after : Calls}
    (h : (atRest p).run moves = some now) {thread : Nat} {model : Loaded}
    (hstage : now.stage thread = .loaded .refresh model)
    (hinstall : now.step ⟨thread, .install⟩ = some after) :
    ∃ before between start, moves = before ++ ⟨thread, .remember⟩ :: between
      ∧ ⟨thread, .remember⟩ ∉ between ∧ (atRest p).run before = some start
      ∧ after.root? = start.root?
      ∧ (after.root? = now.root? ↔
        ∀ root ∈ (start.installed (⟨thread, .remember⟩ :: between)).getLast?,
          start.root? = some root) := by
  have hafter : after.root? = some model.root := by
    have hpart := (step_cases hinstall).1
    rw [hstage] at hpart
    exact Part.root?_step hpart
  have hrefreshes : (now.stage thread).refreshes? = some model.root := by
    rw [hstage]
    rfl
  obtain ⟨before, between, start, hmoves, hnone, hrun, hrest, hstart⟩ :=
    exists_remember h hrefreshes
  refine ⟨before, between, start, hmoves, hnone, hrun, hafter.trans hstart.symm, ?_⟩
  rw [root?_run hrest, hafter, hstart]
  cases (start.installed (⟨thread, .remember⟩ :: between)).getLast? with
  | none => simp
  | some root => simp

/-- The model files of two projects, and the same files after the first one
was written again. -/
def twoProjects (time : Int) : Store :=
  (Store.empty.write ⟨"/p/obj/Rhetos/DslSyntax.json"⟩ (World.versionFile "1" time)).2.write
    ⟨"/q/obj/Rhetos/DslSyntax.json"⟩ (World.versionFile "1" 1) |>.2

/-- The first project is adopted, and a refresh finds that its file has been
written since. Before the refresh reads the file, another thread adopts the
second project. -/
def overtakenMoves : List Move :=
  movesOf 0 [.adopt (twoProjects 1) ⟨"/p"⟩, .install]
    ++ movesOf 1 [.remember, .look (twoProjects 2)]
    ++ movesOf 0 [.adopt (twoProjects 2) ⟨"/q"⟩, .install]
    ++ movesOf 1 [.reload (twoProjects 2)]

/-- The refresh is about to install the model of the first project, while
the second one is in use. -/
theorem exists_overtaken : ∃ now, (atRest (.new .standard)).run overtakenMoves = some now
    ∧ now.stage 1 = .loaded .refresh ⟨⟨"/p"⟩, ⟨"1", []⟩, some (.ofFile 2)⟩
    ∧ now.root? = some ⟨"/q"⟩ := by
  have h : ((atRest (.new .standard)).run overtakenMoves).map (fun s => (s.stage 1, s.root?))
      = some (.loaded .refresh ⟨⟨"/p"⟩, ⟨"1", []⟩, some (.ofFile 2)⟩, some ⟨"/q"⟩) := by
    decide +kernel
  obtain ⟨now, hrun, hboth⟩ := Option.map_eq_some_iff.mp h
  exact ⟨now, hrun, congrArg Prod.fst hboth, congrArg Prod.snd hboth⟩

/-- The refresh began with the first project, so it does not stay with the
second. -/
theorem refresh_keeps_root_of_overtaken :
    ∃ now after, (atRest (.new .standard)).run overtakenMoves = some now
      ∧ now.stage 1 = .loaded .refresh ⟨⟨"/p"⟩, ⟨"1", []⟩, some (.ofFile 2)⟩
      ∧ now.step ⟨1, .install⟩ = some after
      ∧ ∃ before between start, overtakenMoves = before ++ ⟨1, .remember⟩ :: between
        ∧ ⟨1, .remember⟩ ∉ between ∧ (atRest (.new .standard)).run before = some start
        ∧ after.root? = start.root?
        ∧ (after.root? = now.root? ↔
          ∀ root ∈ (start.installed (⟨1, .remember⟩ :: between)).getLast?,
            start.root? = some root) := by
  obtain ⟨now, hrun, hstage, _⟩ := exists_overtaken
  have hinstall : now.step ⟨1, .install⟩ = some _ := step_of_part (by rw [hstage]; rfl)
  exact ⟨now, _, hrun, hstage, hinstall, refresh_keeps_root_iff hrun hstage hinstall⟩

/-- The second project is lost: the refresh puts the first one in its place. -/
theorem not_keepsProject : ¬ KeepsProject (.new .standard) := by
  intro hkeeps
  obtain ⟨now, hrun, hstage, hroot⟩ := exists_overtaken
  have hinstalled := hkeeps _ now 1 _ _ hrun hstage (step_of_part (by rw [hstage]; rfl))
  have hsame : some (⟨"/p"⟩ : FilePath) = some ⟨"/q"⟩ := hinstalled.trans hroot
  exact absurd hsame (by decide)

end Calls

end ConceptScript.Project

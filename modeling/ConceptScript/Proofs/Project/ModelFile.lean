import Mathlib.Data.List.Induction
import ConceptScript.Proofs.Files.Places
import ConceptScript.Proofs.Project.Install

/-!
# `ConceptScript.Proofs.Project.ModelFile`: the model in use and its file

A `World` is a store of files with a provider. Its steps write and remove
files, and ask the provider for the model of a project or for the current
one; they come in any order, and each of them can fail.

A refresh looks only at the time of the model file. Times tell contents
apart if a run is `Dated`: of the files written to one place, those with the
same time have the same content. The times themselves may go up or down, a
file may be removed and restored, and different files may have the same
time.

* `adopt_cases` and `refresh_cases` say all that a call can do.
* `Traced` is the invariant of a run: the files that are there were written,
  and the model in use was read from a file that was written to the place of
  its model file, at the remembered time. Each step keeps it
  (`Traced.step`).
* `follows_modelFile`: each call counts the models it puts in place, changes
  nothing else, and a refresh that succeeds leaves the model that the file
  holds now.
-/

set_option autoImplicit false

namespace ConceptScript

open ConceptScript.Files

/-- The bytes of a file are a model. -/
def Files.File.Describes (f : File) (model : Model) : Prop :=
  ∃ text, f.text = .ok text ∧ Model.ofText text.toList = .ok model

namespace Project

/-! ### What a call can do -/

namespace Provider

variable {p : Provider} {store : Store}

/-- A model that was loaded is described by the file of the project: a file
stands at the place of its path, with this text, and with the time that is
noted. -/
theorem load_eq_ok {config : Config} {root : FilePath} {loaded : Loaded}
    (h : load config store root = .ok loaded) :
    loaded.root = root ∧ ∃ f, store.Holds (config.modelFile root).place f
      ∧ store.readText (config.modelFile root) = f.text
      ∧ loaded.modified = some (.ofFile f.modified) ∧ f.Describes loaded.model := by
  unfold load at h
  dsimp only at h
  split at h
  · cases h
  · next hfile =>
    rw [Bool.not_eq_true', Bool.not_eq_false] at hfile
    obtain ⟨f, hholds, hmodified, htext⟩ := Store.exists_file_of_isFile hfile
    split at h
    · cases h
    · next model hmodel =>
      cases h
      rw [loadModel, htext] at hmodel
      refine ⟨rfl, f, hholds, htext, hmodified, ?_⟩
      split at hmodel
      · cases hmodel
      · next text hread => exact ⟨text, hread, hmodel⟩

/-- To adopt a project fails and changes nothing, or installs the model that
was loaded for it. -/
theorem adopt_cases (p : Provider) (store : Store) (root : FilePath) :
    (∃ e, p.adopt store root = (.error e, p))
      ∨ ∃ loaded, load p.config store root = .ok loaded
        ∧ p.adopt store root = (.ok (), p.install loaded) := by
  unfold adopt
  cases hload : load p.config store root with
  | error e => exact .inl ⟨e, rfl⟩
  | ok loaded => exact .inr ⟨loaded, rfl, rfl⟩

/-- A refresh reads the model of the project in use, or it changes
nothing. Without a failure it changes nothing only if there is no model in
use or its file has not been written since. -/
theorem refresh_cases (p : Provider) (store : Store) :
    (∃ e, p.refresh store = (.error e, p))
      ∨ (p.refresh store = (.ok false, p) ∧ ∀ context, p.context = some context →
        isStale p.config store ⟨context.root, p.modified⟩ = false)
      ∨ ∃ context loaded, p.context = some context
        ∧ load p.config store context.root = .ok loaded
        ∧ p.refresh store = (.ok true, p.install loaded) := by
  unfold refresh remember
  cases hcontext : p.context with
  | none => exact .inr (.inl ⟨rfl, fun _ hsome => by cases hsome⟩)
  | some context =>
    dsimp only [Option.map_some]
    split
    · rcases p.adopt_cases store context.root with ⟨e, hadopt⟩ | ⟨loaded, hload, hadopt⟩
      · exact .inl ⟨e, by rw [hadopt]⟩
      · exact .inr (.inr ⟨context, loaded, rfl, hload, by rw [hadopt]⟩)
    · next hfresh =>
      refine .inr (.inl ⟨rfl, fun other hother => ?_⟩)
      cases hother
      exact Bool.eq_false_iff.mpr hfresh

/-- A new provider knows no time of a file. -/
theorem Initial.modified (h : p.Initial) : p.modified = none := by
  cases h <;> rfl

/-- A provider after a model of a project was put in place: it counts one
model more, and that model carries the count. -/
def Installed (p : Provider) (root : FilePath) (q : Provider) : Prop :=
  q.generation = p.generation + 1 ∧ ∃ model, q.context = some ⟨root, model, q.generation⟩

/-- Installing a model of a project puts it in place with the next count. -/
theorem installed_install {root : FilePath} {loaded : Loaded} (hroot : loaded.root = root) :
    p.Installed root (p.install loaded) :=
  ⟨rfl, loaded.model, hroot ▸ rfl⟩

end Provider

/-! ### Runs -/

/-- Files, and a provider that reads models from them. -/
structure World where
  store : Store
  provider : Provider

/-- A step of a run. -/
inductive Step where
  | write (path : FilePath) (file : File)
  | remove (path : FilePath)
  | adopt (root : FilePath)
  | refresh

namespace World

/-- The world after a step. -/
def step (w : World) : Step → World
  | .write path file => { w with store := (w.store.write path file).2 }
  | .remove path => { w with store := (w.store.remove path).2 }
  | .adopt root => { w with provider := (w.provider.adopt w.store root).2 }
  | .refresh => { w with provider := (w.provider.refresh w.store).2 }

/-- The world after some steps. -/
def run (w : World) (steps : List Step) : World := steps.foldl step w

/-- Whether a step is a call that says it put a model in place. -/
def installs (w : World) : Step → Bool
  | .write _ _ | .remove _ => false
  | .adopt root => (w.provider.adopt w.store root).1.toBool
  | .refresh =>
    match (w.provider.refresh w.store).1 with
    | .ok installed => installed
    | .error _ => false

/-- The number of steps in a run that put a model in place. -/
def installations : World → List Step → Nat
  | _, [] => 0
  | w, s :: rest => (w.installs s).toNat + (w.step s).installations rest

/-- The files of a run with their places: those that are there at the start,
and those that steps write. -/
inductive Written (w : World) (steps : List Step) : Location → File → Prop
  | atStart {l : Location} {f : File} (holds : w.store.Holds l f) : Written w steps l f
  | byStep {before after : List Step} {path : FilePath} {f : File}
      (here : steps = before ++ .write path f :: after)
      (succeeds : ((w.run before).store.write path f).1 = true) : Written w steps path.place f

/-- The time of a file tells its content among the files of one place. -/
def Dated (w : World) (steps : List Step) : Prop :=
  ∀ l f g, w.Written steps l f → w.Written steps l g → f.modified = g.modified →
    f.content = g.content

variable {w : World} {steps : List Step}

/-- A run goes on with more steps from where it had come. -/
theorem run_append (w : World) (steps more : List Step) :
    w.run (steps ++ more) = (w.run steps).run more := List.foldl_append

/-- What was written in a run is written in a longer one. -/
theorem Written.append {l : Location} {f : File} (h : w.Written steps l f) (more : List Step) :
    w.Written (steps ++ more) l f := by
  cases h with
  | atStart holds => exact .atStart holds
  | byStep here succeeds => exact .byStep (by rw [here, List.append_assoc]; rfl) succeeds

/-- Where there are no files at the start, the files that the steps write
decide. -/
theorem dated_of_writes (hstart : w.store = .empty)
    (h : ∀ path path' f g, .write path f ∈ steps → .write path' g ∈ steps →
      path.place = path'.place → f.modified = g.modified → f.content = g.content) :
    w.Dated steps := by
  have hwritten : ∀ {l f}, w.Written steps l f →
      ∃ path, path.place = l ∧ .write path f ∈ steps := by
    intro l f hf
    cases hf with
    | atStart holds => exact absurd (hstart ▸ holds) Store.not_holds_empty
    | byStep here => exact ⟨_, rfl, here ▸ List.mem_append_cons_self⟩
  intro l f g hf hg
  obtain ⟨path, rfl, hmem⟩ := hwritten hf
  obtain ⟨path', hplace, hmem'⟩ := hwritten hg
  exact h path path' f g hmem hmem' hplace.symm

/-- The files and the model in use after some steps come from what was
written. -/
structure Traced (w : World) (steps : List Step) (now : World) : Prop where
  files : ∀ l f, now.store.Holds l f → w.Written steps l f
  source : ∀ context time, now.provider.context = some context →
    now.provider.modified = some time →
      ∃ f, w.Written steps (now.provider.config.modelFile context.root).place f
        ∧ time = .ofFile f.modified ∧ f.Describes context.model

/-- At the start the model in use, if there is one, comes from no file. -/
theorem traced_start (hw : w.provider.Initial) : w.Traced [] w where
  files _ _ holds := .atStart holds
  source context time hcontext htime := by
    rw [hw.modified] at htime
    cases htime

/-- Installing what was just loaded keeps a run traced: the model comes from
a file of the store, and all of those were written. -/
theorem Traced.install {now : World} (h : w.Traced steps now) {root : FilePath} {loaded : Loaded}
    (hload : Provider.load now.provider.config now.store root = .ok loaded) :
    w.Traced steps { now with provider := now.provider.install loaded } where
  files := h.files
  source context time hcontext htime := by
    -- Time and model are those of one file, which is there now.
    obtain ⟨hroot, f, hholds, -, hmodified, hmodel⟩ := Provider.load_eq_ok hload
    cases hcontext
    have htime : loaded.modified = some time := htime
    rw [hmodified, Option.some.injEq] at htime
    exact ⟨f, h.files _ f (hroot ▸ hholds), htime.symm, hmodel⟩

/-- The same with more files written. -/
theorem Traced.append {now : World} (h : w.Traced steps now) (more : List Step) :
    w.Traced (steps ++ more) now where
  files l f hholds := (h.files l f hholds).append more
  source context time hcontext htime :=
    let ⟨f, hwritten, hrest⟩ := h.source context time hcontext htime
    ⟨f, hwritten.append more, hrest⟩

/-- A step keeps a run traced. A write adds the file that is written, the
calls install what they read, and the others change nothing. -/
theorem Traced.step (h : w.Traced steps (w.run steps)) (s : Step) :
    w.Traced (steps ++ [s]) ((w.run steps).step s) := by
  have hbefore := h.append [s]
  cases s with
  | write path file =>
    refine ⟨fun l f hholds => ?_, hbefore.source⟩
    -- A write that fails may have made directories, but no file.
    rcases Store.holds_of_write hholds with hold | ⟨hdone, rfl, rfl⟩
    · exact hbefore.files l f hold
    · exact .byStep rfl hdone
  | remove path =>
    exact ⟨fun l f hholds => hbefore.files l f (Store.holds_of_remove hholds), hbefore.source⟩
  | adopt root =>
    rcases (w.run steps).provider.adopt_cases (w.run steps).store root with
      ⟨e, hadopt⟩ | ⟨loaded, hload, hadopt⟩
    · rw [World.step, hadopt]
      exact hbefore
    · rw [World.step, hadopt]
      exact hbefore.install hload
  | refresh =>
    rcases (w.run steps).provider.refresh_cases (w.run steps).store with
      ⟨e, hrefresh⟩ | ⟨hrefresh, -⟩ | ⟨context, loaded, -, hload, hrefresh⟩
    · rw [World.step, hrefresh]
      exact hbefore
    · rw [World.step, hrefresh]
      exact hbefore
    · rw [World.step, hrefresh]
      exact hbefore.install hload

/-- Any run from a new provider is traced. Induction on the steps, from the
last one. -/
theorem traced_run (hw : w.provider.Initial) (steps : List Step) :
    w.Traced steps (w.run steps) := by
  induction steps using List.reverseRecOn with
  | nil => exact traced_start hw
  | append_singleton steps s ih =>
    rw [run_append]
    exact ih.step s

/-! ### Generations -/

/-- A step counts one model just if it says that it installed one. -/
theorem generation_step (w : World) (s : Step) :
    (w.step s).provider.generation = w.provider.generation + (w.installs s).toNat := by
  cases s with
  | write path file => rfl
  | remove path => rfl
  | adopt root =>
    rcases w.provider.adopt_cases w.store root with ⟨e, hadopt⟩ | ⟨loaded, -, hadopt⟩ <;>
      rw [step, installs, hadopt] <;> rfl
  | refresh =>
    rcases w.provider.refresh_cases w.store with
      ⟨e, hrefresh⟩ | ⟨hrefresh, -⟩ | ⟨context, loaded, -, -, hrefresh⟩ <;>
      rw [step, installs, hrefresh] <;> rfl

/-- A run counts the models that its steps say they installed. -/
theorem generation_run (w : World) (steps : List Step) :
    (w.run steps).provider.generation = w.provider.generation + w.installations steps := by
  induction steps generalizing w with
  | nil => rfl
  | cons s rest ih =>
    show ((w.step s).run rest).provider.generation = _
    rw [ih, generation_step, installations, Nat.add_assoc]

/-! ### The model in use -/

/-- A model file that has the remembered time holds the model in use. -/
theorem Traced.readText_of_fresh {now : World} (h : w.Traced steps now) (hdated : w.Dated steps)
    {context : Context} (hcontext : now.provider.context = some context)
    (hfresh : Provider.isStale now.provider.config now.store
      ⟨context.root, now.provider.modified⟩ = false)
    (hfile : now.store.isFile (now.provider.config.modelFile context.root) = true) :
    ∃ text, now.store.readText (now.provider.config.modelFile context.root) = .ok text
      ∧ Model.ofText text.toList = .ok context.model := by
  obtain ⟨f, hholds, hmodified, htext⟩ := Store.exists_file_of_isFile hfile
  have htime : now.provider.modified = some (.ofFile f.modified) := by
    unfold Provider.isStale at hfresh
    rw [hmodified] at hfresh
    exact (by simpa using hfresh : some _ = now.provider.modified).symm
  -- The file that was read and the file that is there have one time at one place.
  obtain ⟨g, hwritten, hsame, text, hread, hmodel⟩ := h.source context _ hcontext htime
  have hcontent : f.content = g.content :=
    hdated _ f g (h.files _ f hholds) hwritten (ModTime.ofFile.inj hsame)
  have hread' : f.text = .ok text := by rw [← hread, File.text, File.text, hcontent]
  exact ⟨text, htext.trans hread', hmodel⟩

/-- The calls of a run on one provider: each that succeeds counts the model
it puts in place, and all others change nothing. A refresh stays with its
project. If it succeeds, the model in use is the one that the model file
holds, should there be such a file. -/
theorem follows_modelFile (hw : w.provider.Initial) (hdated : w.Dated steps) :
    let now := w.run steps
    now.provider.generation = w.provider.generation + w.installations steps
      ∧ (∀ root, match now.provider.adopt now.store root with
        | (.ok (), after) => now.provider.Installed root after
        | (.error _, after) => after = now.provider)
      ∧ (match now.provider.refresh now.store with
        | (.ok true, after) =>
          ∃ context, now.provider.context = some context
            ∧ now.provider.Installed context.root after
        | (.ok false, after) | (.error _, after) => after = now.provider)
      ∧ (now.step .refresh).provider.context.map (·.root) = now.provider.context.map (·.root)
      ∧ ∀ answer context, (now.provider.refresh now.store).1 = .ok answer →
        (now.step .refresh).provider.context = some context →
        now.store.isFile (now.provider.config.modelFile context.root) = true →
          ∃ text, now.store.readText (now.provider.config.modelFile context.root) = .ok text
            ∧ Model.ofText text.toList = .ok context.model := by
  intro now
  have htraced : w.Traced steps now := traced_run hw steps
  refine ⟨generation_run w steps, fun root => ?_, ?_⟩
  · rcases now.provider.adopt_cases now.store root with ⟨e, hadopt⟩ | ⟨loaded, hload, hadopt⟩
    · rw [hadopt]
    · rw [hadopt]
      exact Provider.installed_install (Provider.load_eq_ok hload).1
  · rw [step]
    rcases now.provider.refresh_cases now.store with
      ⟨e, hrefresh⟩ | ⟨hrefresh, hfresh⟩ | ⟨context, loaded, hcontext, hload, hrefresh⟩
    · rw [hrefresh]
      exact ⟨rfl, rfl, fun _ _ hok => by cases hok⟩
    · rw [hrefresh]
      exact ⟨rfl, rfl, fun _ context _ hcontext hfile =>
        htraced.readText_of_fresh hdated hcontext (hfresh context hcontext) hfile⟩
    · obtain ⟨hroot, f, -, hread, -, text, htext, hmodel⟩ := Provider.load_eq_ok hload
      -- A model that was just read is that of the file, whatever was written before.
      rw [hrefresh]
      refine ⟨⟨context, hcontext, Provider.installed_install hroot⟩, ?_, ?_⟩
      · rw [hcontext]
        exact congrArg some hroot
      · intro _ context' _ hcontext' _
        cases hcontext'
        exact ⟨text, hroot ▸ hread.trans htext, hmodel⟩

/-- A model file without types, with a version and a time. -/
def versionFile (version : String) (time : Int) : File :=
  ⟨("\x7b\"version\":\"" ++ version ++ "\",\"concept_types\":[]\x7d").toUTF8, time⟩

/-- A model file is written and read, then broken, and then replaced by
another one with a time between the two. -/
def replacingSteps : List Step :=
  let file : FilePath := ⟨"/p/obj/Rhetos/DslSyntax.json"⟩
  [.write file (versionFile "1" 1), .adopt ⟨"/p"⟩, .write file ⟨"\x7b".toUTF8, 3⟩, .refresh,
    .write file (versionFile "2" 2)]

/-- The world after these steps. -/
def replacedFile : World := run ⟨.empty, .new .standard⟩ replacingSteps

/-- The refresh that fails on the broken file keeps the first model, and the
next one puts the second in place, although the broken file was newer. -/
theorem follows_replaced_file :
    replacedFile.provider.context = some ⟨⟨"/p"⟩, ⟨"1", []⟩, 1⟩
      ∧ (replacedFile.provider.refresh replacedFile.store).1 = .ok true
      ∧ (replacedFile.step .refresh).provider.context = some ⟨⟨"/p"⟩, ⟨"2", []⟩, 2⟩
      ∧ ∃ text,
        replacedFile.store.readText (replacedFile.provider.config.modelFile ⟨"/p"⟩) = .ok text
          ∧ Model.ofText text.toList = .ok ⟨"2", []⟩ := by
  have hdated : Dated ⟨.empty, .new .standard⟩ replacingSteps := by
    refine dated_of_writes rfl fun path path' f g hf hg _ htime => ?_
    simp only [replacingSteps, List.mem_cons, List.not_mem_nil, Step.write.injEq, reduceCtorEq,
      false_or, or_false] at hf hg
    rcases hf with ⟨-, rfl⟩ | ⟨-, rfl⟩ | ⟨-, rfl⟩ <;>
      rcases hg with ⟨-, rfl⟩ | ⟨-, rfl⟩ | ⟨-, rfl⟩ <;>
      first
      | rfl
      | exact absurd htime (by decide)
  have hfollows := follows_modelFile (.new .standard) hdated
  rw [← replacedFile] at hfollows
  have hanswer : (replacedFile.provider.refresh replacedFile.store).1 = .ok true := by
    decide +kernel
  have hcontext : (replacedFile.step .refresh).provider.context
      = some ⟨⟨"/p"⟩, ⟨"2", []⟩, 2⟩ := by
    decide +kernel
  obtain ⟨-, -, -, -, hmodel⟩ := hfollows
  exact ⟨by decide +kernel, hanswer, hcontext,
    hmodel true ⟨⟨"/p"⟩, ⟨"2", []⟩, 2⟩ hanswer hcontext (by decide +kernel)⟩

end World

end Project

end ConceptScript

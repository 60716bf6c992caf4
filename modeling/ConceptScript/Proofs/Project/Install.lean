import ConceptScript.Project.Provider

/-!
# `ConceptScript.Proofs.Project.Install`: generations of models

A provider starts without a model or with one that comes from no file, and
changes only when a model is installed. `becomes_adopt` and
`becomes_refresh` say so for the two operations that can change it,
whether they succeed or fail.

The generation counts the installations. In a provider that is `Counted`
the model in use carries the latest count, which every step keeps, so a
model installed later has a generation of its own
(`Becomes.eq_or_lt_generation`).
-/

set_option autoImplicit false

namespace ConceptScript.Project.Provider

open ConceptScript.Files

/-- The ways in which a provider comes into being. -/
inductive Initial : Provider → Prop
  | new (config : Config) : Initial (.new config)
  | ofModel (root : FilePath) (model : Model) : Initial (.ofModel root model)

/-- What a provider can be after a step: itself, or itself with a model
installed. -/
inductive Becomes (p : Provider) : Provider → Prop
  | same : Becomes p p
  | installed (loaded : Loaded) : Becomes p (p.install loaded)

/-- To adopt a project is to install its model, or to change nothing. -/
theorem becomes_adopt (p : Provider) (store : Store) (root : FilePath) :
    p.Becomes (p.adopt store root).2 := by
  unfold adopt
  cases load p.config store root with
  | error e => exact .same
  | ok loaded => exact .installed loaded

/-- To refresh is to install a model, or to change nothing. -/
theorem becomes_refresh (p : Provider) (store : Store) : p.Becomes (p.refresh store).2 := by
  unfold refresh
  cases p.remember with
  | none => exact .same
  | some remembered =>
    dsimp only
    split
    · have h := p.becomes_adopt store remembered.root
      split <;> next heq => rwa [heq] at h
    · exact .same

/-- The model in use is the one installed last. -/
def Counted (p : Provider) : Prop :=
  ∀ context, p.context = some context → context.generation = p.generation

/-- A new provider has no model in use, or the one it came with, which it
counts. -/
theorem Initial.counted {p : Provider} (h : p.Initial) : p.Counted := by
  intro context hcontext
  cases h with
  | new config => cases hcontext
  | ofModel root model =>
    cases hcontext
    rfl

/-- Each step keeps the model in use the one that was counted last. -/
theorem Becomes.counted {p q : Provider} (h : p.Becomes q) (hp : p.Counted) : q.Counted := by
  cases h with
  | same => exact hp
  | installed loaded =>
    intro context hcontext
    cases hcontext
    rfl

/-- The count of models never goes back. -/
theorem Becomes.generation_le {p q : Provider} (h : p.Becomes q) :
    p.generation ≤ q.generation := by
  cases h with
  | same => exact Nat.le_refl _
  | installed loaded => exact Nat.le_succ _

/-- A model that is in use after a step was in use before it, or it has a
generation that no model had before. -/
theorem Becomes.eq_or_lt_generation {p q : Provider} (h : p.Becomes q) {context : Context}
    (hcontext : q.context = some context) :
    p.context = some context ∨ p.generation < context.generation := by
  cases h with
  | same => exact .inl hcontext
  | installed loaded =>
    cases hcontext
    exact .inr (Nat.lt_succ_self _)

/-- A step after which the model in use has a generation known before it
changes nothing. -/
theorem Becomes.eq_of_known {p q : Provider} (h : p.Becomes q) {g : Option Nat}
    (hknown : ∀ n, g = some n → n ≤ p.generation)
    (hg : g = q.context.map (·.generation)) : q = p := by
  cases h with
  | same => rfl
  | installed loaded =>
    have hle := hknown _ hg
    exact absurd hle (Nat.not_succ_le_self _)

/-- A provider with the same count has not changed: every model that is
installed is counted. -/
theorem Becomes.eq_of_generation {p q : Provider} (h : p.Becomes q)
    (hsame : q.generation = p.generation) : q = p := by
  cases h with
  | same => rfl
  | installed loaded => exact absurd hsame (Nat.succ_ne_self _)

end ConceptScript.Project.Provider

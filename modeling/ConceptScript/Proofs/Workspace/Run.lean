import ConceptScript.Workspace.Registry
import ConceptScript.Proofs.Project.Install

/-!
# `ConceptScript.Proofs.Workspace.Run`: what can happen to a workspace

An `Action` is one thing that can be done with a registry or with the
provider it shares: opening, updating and closing documents, putting a
model in place or refreshing it, and asking for analyses. `Registry.run`
does them one after another. Files may change between actions, so those
that read files are given the store they find.

Two statements say what one action can do, and all else about runs follows
from them:

* `mem_perform_documents`: every document afterwards is a new one, an old
  one, an old one with a new text, or an old one that answered a request.
* `perform_provider`: the provider is the old one, or a model was
  installed in it.

`textGiven` says which text a document got last. It looks at the actions
only, and `find?_run_text` says that the registry holds that text.
-/

set_option autoImplicit false

namespace ConceptScript.Workspace

open ConceptScript.Text
open ConceptScript.Files (FilePath Store)
open ConceptScript.Script (ExternalTexts)
open ConceptScript.Project

/-- Something done with a workspace. -/
inductive Action where
  | openDocument (uri : String) (text : List Char)
  | update (uri : String) (text : List Char)
  | close (uri : String)
  /-- The model of a project is put in place. -/
  | adopt (store : Store) (root : FilePath)
  | refresh (store : Store)
  | ensureContext (store : Store)
  /-- The analysis of a document is asked for, at a cursor or of the whole
  text. -/
  | request (uri : String) (position : Option LineChr)
  /-- The findings of all documents changed since a moment are asked
  for. -/
  | collect (since : Option Nat)

namespace Registry

/-- The registry after an action. A request for a document that is not
open changes nothing. -/
def perform (texts : ExternalTexts) (r : Registry) : Action → Registry
  | .openDocument uri text => (r.openDocument uri text).2
  | .update uri text => (r.update uri text).2.2
  | .close uri => (r.close uri).2
  | .adopt store root => (r.withProvider (·.adopt store root)).2
  | .refresh store => (r.withProvider (·.refresh store)).2
  | .ensureContext store => (r.ensureContext store).2
  | .request uri position =>
    match r.analysisAt texts uri position with
    | some (_, r') => r'
    | none => r
  | .collect since => (r.collect texts since).2

/-- The registry after some actions, the first one first. -/
def run (texts : ExternalTexts) (r : Registry) (actions : List Action) : Registry :=
  actions.foldl (perform texts) r

end Registry

/-- The text that a document has after an action, given the one before,
if it is open. -/
def textAfter (uri : String) (given : Option (List Char)) : Action → Option (List Char)
  | .openDocument u text | .update u text => if u = uri then some text else given
  | .close u => if u = uri then none else given
  | .adopt .. | .refresh .. | .ensureContext .. | .request .. | .collect .. => given

/-- The text that a document was last given in a run that starts without
documents, if it is open at the end. -/
def textGiven (uri : String) (actions : List Action) : Option (List Char) :=
  actions.foldl (textAfter uri) none

/-! ### Documents in their places -/

/-- A document that was put in is found under its URI, and the others are
found as before. -/
theorem find?_putDocument (d : Document) (documents : List Document) (uri : String) :
    (putDocument d documents).find? (·.uri == uri)
      = if d.uri = uri then some d else documents.find? (·.uri == uri) := by
  induction documents with
  | nil =>
    rw [putDocument, List.find?_cons]
    by_cases h : d.uri = uri
    · rw [beq_iff_eq.mpr h, if_pos h]
    · rw [beq_false_of_ne h, if_neg h, List.find?_nil]
  | cons e rest ih =>
    rw [putDocument]
    by_cases hsame : e.uri = d.uri
    · rw [if_pos hsame, List.find?_cons, List.find?_cons, hsame]
      by_cases h : d.uri = uri
      · rw [beq_iff_eq.mpr h, if_pos h]
      · rw [beq_false_of_ne h, if_neg h]
    · rw [if_neg hsame, List.find?_cons, List.find?_cons, ih]
      by_cases h : d.uri = uri
      · have he : (e.uri == uri) = false := beq_false_of_ne (h ▸ hsame)
        rw [he, if_pos h]
      · rw [if_neg h, if_neg h]

/-- After a document was put in there is this one, and there are documents
that were there before. -/
theorem mem_putDocument {d e : Document} {documents : List Document}
    (h : e ∈ putDocument d documents) : e = d ∨ e ∈ documents := by
  induction documents with
  | nil => exact .inl (List.mem_singleton.mp h)
  | cons first rest ih =>
    rw [putDocument] at h
    split at h
    · rcases List.mem_cons.mp h with h | h
      · exact .inl h
      · exact .inr (List.mem_cons_of_mem _ h)
    · rcases List.mem_cons.mp h with h | h
      · exact .inr (h ▸ List.mem_cons_self)
      · exact (ih h).imp id (List.mem_cons_of_mem _)

/-! ### Answering keeps the text -/

namespace Document

/-- Turning to a context does not change the text. -/
theorem keepFor_text (d : Document) (context : Context) : (d.keepFor context).text = d.text := by
  rw [keepFor]
  split <;> rfl

/-- Turning to a context does not change the URI. -/
theorem keepFor_uri (d : Document) (context : Context) : (d.keepFor context).uri = d.uri := by
  rw [keepFor]
  split <;> rfl

/-- An analysis does not change the text of its document. -/
theorem analysisAt_text (d : Document) (p : Provider) (texts : ExternalTexts) (number : Nat)
    (position : Option LineChr) :
    (d.analysisAt p texts number position).document.text = d.text := by
  rw [analysisAt]
  split
  · rfl
  · dsimp only
    split <;> exact keepFor_text d _

/-- An analysis does not change the URI of its document. -/
theorem analysisAt_uri (d : Document) (p : Provider) (texts : ExternalTexts) (number : Nat)
    (position : Option LineChr) :
    (d.analysisAt p texts number position).document.uri = d.uri := by
  rw [analysisAt]
  split
  · rfl
  · dsimp only
    split <;> exact keepFor_uri d _

end Document

/-! ### Analyses of chosen documents -/

/-- Analyzing some documents changes the text of none. -/
theorem find?_analyzeChosen (p : Provider) (texts : ExternalTexts) (chosen : Document → Bool)
    (number : Nat) (documents : List Document) (uri : String) :
    ((analyzeChosen p texts chosen number documents).2.2.find? (·.uri == uri)).map (·.text)
      = (documents.find? (·.uri == uri)).map (·.text) := by
  induction documents generalizing number with
  | nil => rfl
  | cons d rest ih =>
    rw [analyzeChosen]
    split
    · -- An analysis leaves the URI and the text of the document.
      have huri := d.analysisAt_uri p texts number none
      have htext := d.analysisAt_text p texts number none
      have hrest := ih (number + 1)
      dsimp only
      rw [List.find?_cons, List.find?_cons, huri]
      split
      · exact congrArg some htext
      · exact hrest
    · have hrest := ih number
      dsimp only
      rw [List.find?_cons, List.find?_cons]
      split
      · rfl
      · exact hrest

/-- When some documents are analyzed, each document is left as it was or as
an analysis leaves it. -/
theorem mem_analyzeChosen {p : Provider} {texts : ExternalTexts} {chosen : Document → Bool}
    {number : Nat} {documents : List Document} {d : Document}
    (h : d ∈ (analyzeChosen p texts chosen number documents).2.2) :
    ∃ e ∈ documents, d = e ∨ ∃ n position, d = (e.analysisAt p texts n position).document := by
  induction documents generalizing number with
  | nil => exact absurd h List.not_mem_nil
  | cons first rest ih =>
    rw [analyzeChosen] at h
    split at h
    · rcases List.mem_cons.mp h with h | h
      · exact ⟨first, List.mem_cons_self, .inr ⟨number, none, h⟩⟩
      · obtain ⟨e, he, hd⟩ := ih h
        exact ⟨e, List.mem_cons_of_mem _ he, hd⟩
    · rcases List.mem_cons.mp h with h | h
      · exact ⟨first, List.mem_cons_self, .inl h⟩
      · obtain ⟨e, he, hd⟩ := ih h
        exact ⟨e, List.mem_cons_of_mem _ he, hd⟩

/-! ### One action -/

namespace Registry

/-- In a registry a document that was put in is found under its URI, and the
others are found as before. -/
theorem find?_put (r : Registry) (d : Document) (uri : String) :
    (r.put d).find? uri = if d.uri = uri then some d else r.find? uri :=
  find?_putDocument d r.documents uri

/-- The document found for a URI has this URI. -/
theorem uri_of_find? {r : Registry} {uri : String} {d : Document} (h : r.find? uri = some d) :
    d.uri = uri := by
  have := List.find?_some h
  exact eq_of_beq this

/-- A document that was opened has the text it was opened with, and the
others have theirs. -/
theorem find?_openDocument (r : Registry) (u : String) (text : List Char) (uri : String) :
    ((r.openDocument u text).2.find? uri).map (·.text)
      = if u = uri then some text else (r.find? uri).map (·.text) := by
  show (Registry.find? (r.now.2.put (.new u text r.now.1)) uri).map (·.text) = _
  rw [find?_put]
  show (if u = uri then some (Document.new u text r.now.1) else r.find? uri).map (·.text) = _
  split <;> rfl

/-- What an action does to the text of a document. -/
theorem find?_perform_text (texts : ExternalTexts) (r : Registry) (a : Action) (uri : String) :
    ((r.perform texts a).find? uri).map (·.text)
      = textAfter uri ((r.find? uri).map (·.text)) a := by
  cases a with
  | openDocument u text => exact r.find?_openDocument u text uri
  | update u text =>
    show ((r.update u text).2.2.find? uri).map (·.text)
      = if u = uri then some text else (r.find? uri).map (·.text)
    rw [update]
    -- A document that is not open is opened by its first text.
    split
    · next d hd =>
      have hu := uri_of_find? hd
      show (Registry.find? (r.now.2.put (d.update text r.now.1)) uri).map (·.text) = _
      rw [find?_put]
      show (if d.uri = uri then some (d.update text r.now.1) else r.find? uri).map (·.text) = _
      rw [hu]
      split <;> rfl
    · exact r.find?_openDocument u text uri
  | close u =>
    show (List.find? _ (r.documents.filter (·.uri != u))).map (·.text)
      = if u = uri then none else (r.documents.find? (·.uri == uri)).map (·.text)
    rw [List.find?_filter]
    by_cases h : u = uri
    · subst h
      rw [if_pos rfl, List.find?_eq_none.mpr (by intro d _; simp)]
      rfl
    · -- Another document is found where it was before.
      rw [if_neg h]
      congr 2
      funext d
      by_cases hd : d.uri = uri
      · simp [hd, Ne.symm h]
      · simp [hd]
  | adopt store root => rfl
  | refresh store => rfl
  | ensureContext store =>
    show ((r.ensureContext store).2.find? uri).map (·.text) = _
    rw [ensureContext]
    split
    · rfl
    · split <;> rfl
  | request u position =>
    show (Registry.find? (match r.analysisAt texts u position with
      | some (_, r') => r'
      | none => r) uri).map (·.text) = (r.find? uri).map (·.text)
    rw [analysisAt]
    cases hd : r.find? u with
    | none => rfl
    | some d =>
      have hu := uri_of_find? hd
      show (Registry.find? (r.put (d.analysisAt r.provider texts r.numbers position).document)
        uri).map (·.text) = _
      -- The document that answered takes its old place.
      rw [find?_put, Document.analysisAt_uri, hu]
      split
      · next h =>
        rw [← h, hd]
        exact congrArg some (d.analysisAt_text _ _ _ _)
      · rfl
  | collect since => exact find?_analyzeChosen _ _ _ _ _ _

/-- A run from an empty registry holds the text each document was given
last. -/
theorem find?_run_text (texts : ExternalTexts) (p : Provider) (actions : List Action)
    (uri : String) :
    (((Registry.new p).run texts actions).find? uri).map (·.text) = textGiven uri actions := by
  -- From any registry on, the text changes with the actions in the same way.
  suffices h : ∀ (r : Registry), ((r.run texts actions).find? uri).map (·.text)
      = actions.foldl (textAfter uri) ((r.find? uri).map (·.text)) from h (.new p)
  induction actions with
  | nil => intro r; rfl
  | cons a rest ih =>
    intro r
    show ((Registry.run texts (r.perform texts a) rest).find? uri).map (·.text) = _
    rw [ih, find?_perform_text]
    rfl

end Registry

/-- What a document can be after an action. -/
inductive Document.Follows (p : Provider) (texts : ExternalTexts) (documents : List Document) :
    Document → Prop
  | new (uri : String) (text : List Char) (now : Nat) :
    Follows p texts documents (.new uri text now)
  | old {d : Document} (h : d ∈ documents) : Follows p texts documents d
  | updated {d : Document} (h : d ∈ documents) (text : List Char) (now : Nat) :
    Follows p texts documents (d.update text now)
  | answered {d : Document} (h : d ∈ documents) (number : Nat) (position : Option LineChr) :
    Follows p texts documents (d.analysisAt p texts number position).document

namespace Registry

/-- Opening a document leaves the others as they were. -/
theorem mem_openDocument {r : Registry} {texts : ExternalTexts} {uri : String} {text : List Char}
    {d : Document} (h : d ∈ (r.openDocument uri text).2.documents) :
    d.Follows r.provider texts r.documents := by
  rcases mem_putDocument h with rfl | h
  · exact .new uri text _
  · exact .old h

/-- Where the documents after an action come from. -/
theorem mem_perform_documents {texts : ExternalTexts} {r : Registry} {a : Action} {d : Document}
    (h : d ∈ (r.perform texts a).documents) : d.Follows r.provider texts r.documents := by
  cases a with
  | openDocument u text => exact mem_openDocument h
  | update u text =>
    -- An update of a document that is not open opens it.
    change d ∈ (r.update u text).2.2.documents at h
    rw [update] at h
    split at h
    · next e he =>
      rcases mem_putDocument h with rfl | h
      · exact .updated (List.mem_of_find?_eq_some he) text _
      · exact .old h
    · exact mem_openDocument h
  | close u => exact .old (List.mem_filter.mp h).1
  | adopt store root => exact .old h
  | refresh store => exact .old h
  | ensureContext store =>
    change d ∈ (r.ensureContext store).2.documents at h
    rw [ensureContext] at h
    split at h
    · exact .old h
    · split at h <;> exact .old h
  | request u position =>
    -- The document that was asked about comes back with its answer kept.
    change d ∈ (match r.analysisAt texts u position with
      | some (_, r') => r'
      | none => r).documents at h
    rw [analysisAt] at h
    cases hfound : r.find? u with
    | none =>
      rw [hfound] at h
      exact .old h
    | some e =>
      rw [hfound] at h
      rcases mem_putDocument h with rfl | h
      · exact .answered (List.mem_of_find?_eq_some hfound) _ _
      · exact .old h
  | collect since =>
    obtain ⟨e, he, rfl | ⟨n, position, rfl⟩⟩ := mem_analyzeChosen h
    · exact .old he
    · exact .answered he n position

end Registry

/-! ### The provider -/

/-- What an action can do to the provider. -/
theorem Registry.perform_provider (texts : ExternalTexts) (r : Registry) (a : Action) :
    r.provider.Becomes (r.perform texts a).provider := by
  cases a with
  | openDocument u text => exact .same
  | update u text =>
    show Provider.Becomes _ (r.update u text).2.2.provider
    rw [update]
    split <;> exact .same
  | close u => exact .same
  | adopt store root => exact Provider.becomes_adopt _ store root
  | refresh store => exact Provider.becomes_refresh _ store
  | ensureContext store =>
    show Provider.Becomes _ (r.ensureContext store).2.provider
    rw [ensureContext]
    split
    · exact Provider.becomes_refresh _ store
    · split
      · exact .same
      · exact Provider.becomes_adopt _ store _
  | request u position =>
    show Provider.Becomes _ (match r.analysisAt texts u position with
      | some (_, r') => r'
      | none => r).provider
    rw [analysisAt]
    cases r.find? u <;> exact .same
  | collect since => exact .same

end ConceptScript.Workspace

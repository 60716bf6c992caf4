import ConceptScript.Proofs.Cursor.TextRead
import ConceptScript.Proofs.Workspace.Run

/-!
# `ConceptScript.Proofs.Workspace.Coherence`: kept analyses are fresh ones

A document keeps its analyses under the offsets of their cursors, and they
stay across requests, other documents and changes of the model in use.
`analysisAt_eq_analyze` says that no answer shows this: after any run, an
answer that is not blocked is the analysis of the text given last, at the
cursor asked for, with the context in use now. Only the cursor that the
answer records may be another one with the same offset.

The invariant is `Coherent`: what a document keeps under a key is what it
would be answered for some cursor with that key, if the generation noted
in the document is the one in use. Three things carry it through a run.

* Two cursors with one key have one analysis (`run_eq_of_keyFor_eq`), as
  an analysis depends on its cursor through the offset alone.
* A model that is installed has a generation that no document has noted
  (`Coherent.becomes`), so two contexts with one generation are the same.
* A new text drops everything (`coherent_update`).

External texts are the same throughout a run.
-/

set_option autoImplicit false

namespace ConceptScript.Workspace

open ConceptScript.Text
open ConceptScript.Script (ExternalTexts)
open ConceptScript.Cursor
open ConceptScript.Project

namespace Document

/-! ### The invariant -/

/-- What a document notes about its text and keeps from its analyses is
what it would find out now. -/
structure Coherent (texts : ExternalTexts) (p : Provider) (d : Document) : Prop where
  directive : d.directive = rootPath? d.text
  /-- The generation noted is not one that is still to come. -/
  generation_le : ∀ g, d.generation = some g → g ≤ p.generation
  fresh : ∀ context, p.context = some context → d.generation = some context.generation →
    ∀ key kept, (key, kept) ∈ d.cache →
      ∃ position, d.keyFor position = key ∧ kept.analysis = d.run context texts position

variable {texts : ExternalTexts} {p q : Provider} {d : Document} {context : Context}

/-- A new document is coherent: it notes nothing about its text and keeps no
analyses. -/
theorem coherent_new (texts : ExternalTexts) (p : Provider) (uri : String) (text : List Char)
    (now : Nat) : (Document.new uri text now).Coherent texts p where
  directive := rfl
  generation_le := by intro g hg; cases hg
  fresh := by intro context _ hg; cases hg

/-- A document with a new text has dropped what it knew of the old one. -/
theorem coherent_update (h : d.Coherent texts p) (text : List Char) (now : Nat) :
    (d.update text now).Coherent texts p where
  directive := rfl
  generation_le := h.generation_le
  fresh := by intro context _ _ key kept hmem; exact absurd hmem List.not_mem_nil

/-- What holds with one provider holds with the next. -/
theorem Coherent.becomes (h : d.Coherent texts p) (hpq : p.Becomes q) : d.Coherent texts q where
  directive := h.directive
  generation_le := by
    intro g hg
    exact Nat.le_trans (h.generation_le g hg) hpq.generation_le
  fresh := by
    intro context hcontext hg
    rcases hpq.eq_or_lt_generation hcontext with hsame | hlt
    · exact h.fresh context hsame hg
    · -- The generation is new, but the document has noted it already.
      have hle := h.generation_le _ hg
      omega

/-! ### Keys -/

/-- Cursors with one key have one analysis, up to the cursor recorded. -/
theorem run_eq_of_keyFor_eq (d : Document) (context : Context) (texts : ExternalTexts)
    {position other : Option LineChr} (h : d.keyFor position = d.keyFor other) :
    { d.run context texts position with position := other } = d.run context texts other := by
  cases position with
  | none =>
    cases other with
    | none =>
      have hself : ∀ (a : Analysis) (q : Option LineChr), a.position = q →
          { a with position := q } = a := by
        intro a q h
        subst h
        rfl
      exact hself _ none (analyze_position ..)
    | some q => cases h
  | some p =>
    cases other with
    | none => cases h
    | some q =>
      -- The key of a cursor is its offset, and nothing else of a position enters the analysis.
      have hoffset : offsetOf d.text p = offsetOf d.text q := by injection h
      exact analyze_eq_of_offsetOf_eq context.model texts d.path? hoffset

/-- A key of the whole text is not one of a cursor. -/
theorem isSome_eq_of_keyFor_eq (d : Document) {position other : Option LineChr}
    (h : d.keyFor position = d.keyFor other) : position.isSome = other.isSome := by
  cases position with
  | none =>
    cases other with
    | none => rfl
    | some q => cases h
  | some p =>
    cases other with
    | none => cases h
    | some q => rfl

/-! ### One request -/

/-- A context that can be used is the current one. -/
theorem context_of_usableContext (h : d.usableContext p = .ok context) :
    p.context = some context := by
  unfold usableContext at h
  split at h
  · cases h
  · split at h
    · cases h
    · next c hc =>
      split at h
      · cases h
        exact hc
      · cases h

/-- A document that keeps analyses for a context is marked with the
generation of the context. -/
theorem keepFor_generation (d : Document) (context : Context) :
    (d.keepFor context).generation = some context.generation := by
  unfold keepFor
  split
  · next h => exact h
  · rfl

/-- Turning to the current context keeps a document coherent: it drops the
analyses of another generation, and those of the same one are still right. -/
theorem Coherent.keepFor (h : d.Coherent texts p) (hp : p.Counted)
    (hcontext : p.context = some context) : (d.keepFor context).Coherent texts p := by
  unfold Document.keepFor
  split
  · exact h
  · refine ⟨h.directive, ?_, ?_⟩
    · intro g hg
      cases hg
      exact Nat.le_of_eq (hp context hcontext)
    · intro _ _ _ key kept hmem
      exact absurd hmem List.not_mem_nil

/-- An answer that used a context: it is fresh, and the document stays
coherent. -/
theorem analysisAt_of_usable (h : d.Coherent texts p) (hp : p.Counted)
    (huse : d.usableContext p = .ok context) (number : Nat) (position : Option LineChr) :
    (∃ other, d.keyFor other = d.keyFor position
      ∧ (d.analysisAt p texts number position).result.analysis = d.run context texts other)
    ∧ (d.analysisAt p texts number position).document.Coherent texts p := by
  have hcontext := context_of_usableContext huse
  have hkeep := h.keepFor hp hcontext
  have hgeneration := d.keepFor_generation context
  -- The document that looks the key up has the text of `d`.
  have hrun : ∀ other,
      (d.keepFor context).run context texts other = d.run context texts other := by
    intro other
    unfold run path?
    rw [keepFor_text, keepFor_uri]
  have hkey : ∀ other, (d.keepFor context).keyFor other = d.keyFor other := by
    intro other
    cases other with
    | none => rfl
    | some q =>
      exact congrArg (fun text => CacheKey.offset (offsetOf text q)) (keepFor_text d context)
  unfold analysisAt
  rw [huse]
  dsimp only
  cases hlookup : (d.keepFor context).cache.lookup ((d.keepFor context).keyFor position) with
  | some kept =>
    obtain ⟨before, after, hcache, _⟩ := List.lookup_eq_some_iff.mp hlookup
    have hmem : ((d.keepFor context).keyFor position, kept) ∈ (d.keepFor context).cache := by
      rw [hcache]
      exact List.mem_append_right before List.mem_cons_self
    -- What was kept is what some cursor with this key would be answered.
    obtain ⟨other, hother, hkept⟩ := hkeep.fresh context hcontext hgeneration _ _ hmem
    rw [hkey, hkey] at hother
    exact ⟨⟨other, hother, hkept.trans (hrun other)⟩, hkeep⟩
  | none =>
    refine ⟨⟨position, rfl, hrun position⟩, hkeep.directive, hkeep.generation_le, ?_⟩
    intro c hc hg key kept hmem
    rcases List.mem_cons.mp hmem with hnew | hold
    · -- The entry just made was made with the context in use.
      cases hnew
      rw [hcontext] at hc
      cases hc
      exact ⟨position, rfl, rfl⟩
    · exact hkeep.fresh c hc hg key kept hold

/-- An analysis that is asked for and kept is what it would be now, so the
document stays coherent. -/
theorem coherent_analysisAt (h : d.Coherent texts p) (hp : p.Counted) (number : Nat)
    (position : Option LineChr) :
    (d.analysisAt p texts number position).document.Coherent texts p := by
  cases huse : d.usableContext p with
  | ok context => exact (analysisAt_of_usable h hp huse number position).2
  | error obstacle =>
    unfold analysisAt
    rw [huse]
    exact h

/-- Whatever an action makes of coherent documents is coherent. -/
theorem Follows.coherent {documents : List Document} (h : d.Follows p texts documents)
    (hp : p.Counted) (hall : ∀ e ∈ documents, e.Coherent texts p) : d.Coherent texts p := by
  cases h with
  | new uri text now => exact coherent_new texts p uri text now
  | old he => exact hall _ he
  | updated he text now => exact coherent_update (hall _ he) text now
  | answered he number position => exact coherent_analysisAt (hall _ he) hp number position

end Document

/-! ### A run -/

/-- A registry in which every document is coherent. -/
structure Registry.Coherent (texts : ExternalTexts) (r : Registry) : Prop where
  counted : r.provider.Counted
  documents : ∀ d ∈ r.documents, d.Coherent texts r.provider

/-- Each action keeps a registry coherent. An adopted or refreshed model
changes the generation, which is what kept analyses are marked with. -/
theorem Registry.Coherent.perform {texts : ExternalTexts} {r : Registry} (h : r.Coherent texts)
    (a : Action) : (r.perform texts a).Coherent texts where
  counted := (r.perform_provider texts a).counted h.counted
  documents := by
    intro d hd
    have hbefore := (mem_perform_documents hd).coherent h.counted h.documents
    exact hbefore.becomes (r.perform_provider texts a)

/-- A run keeps a registry coherent. Induction on the actions. -/
theorem Registry.Coherent.run {texts : ExternalTexts} {r : Registry} (h : r.Coherent texts)
    (actions : List Action) : (r.run texts actions).Coherent texts := by
  induction actions generalizing r with
  | nil => exact h
  | cons a rest ih => exact ih (h.perform a)

/-- A registry without documents is coherent. -/
theorem Registry.coherent_new (texts : ExternalTexts) {p : Provider} (hp : p.Initial) :
    (Registry.new p).Coherent texts :=
  ⟨hp.counted, fun _ hd => absurd hd List.not_mem_nil⟩

/-- An analysis that was made is not blocked. -/
theorem isBlocked_analyze (m : Model) (texts : ExternalTexts)
    (path : Option ConceptScript.Files.FilePath) (text : List Char) (position : Option LineChr) :
    (analyze m texts path text position).isBlocked = false := by
  unfold Analysis.isBlocked
  rw [analyze_completed]
  rfl

/-- What a document can be analyzed with depends on its text alone. -/
theorem usableContext_eq_new {texts : ExternalTexts} {p : Provider} {d : Document}
    (h : d.Coherent texts p) (uri : String) :
    d.usableContext p = (Document.new uri d.text 0).usableContext p := by
  unfold Document.usableContext Document.root?
  rw [h.directive]
  rfl

/-- After any run an answer is blocked exactly when the text of the
document cannot be analyzed with the provider as it is now. Otherwise the
answer is what a new analysis of the text that was given last says at that
cursor, with the context in use, and it is one of the whole text exactly
when that was asked for. -/
theorem analysisAt_eq_analyze (texts : ExternalTexts) {p : Provider} (hp : p.Initial)
    (actions : List Action) {uri : String} {position : Option LineChr} {answer : Answer}
    {r r' : Registry} (hr : r = (Registry.new p).run texts actions)
    (h : r.analysisAt texts uri position = some (answer, r')) :
    ∃ text, textGiven uri actions = some text
      ∧ (answer.result.analysis.isBlocked = true ↔
          ∃ obstacle, (Document.new uri text 0).usableContext r.provider = .error obstacle)
      ∧ (answer.result.analysis.isBlocked = false →
          ∃ context, r.provider.context = some context
            ∧ { answer.result.analysis with position := position }
                = analyze context.model texts (Document.new uri text 0).path? text position
            ∧ answer.result.analysis.position.isSome = position.isSome) := by
  -- The document asked is coherent and has the text given last.
  have hcoherent : r.Coherent texts := hr ▸ (Registry.coherent_new texts hp).run actions
  have htext := Registry.find?_run_text texts p actions uri
  rw [← hr] at htext
  obtain ⟨d, hd, hanswer⟩ := Option.map_eq_some_iff.mp h
  have huri : d.uri = uri := Registry.uri_of_find? hd
  have hdoc := hcoherent.documents d (List.mem_of_find?_eq_some hd)
  rw [hd, Option.map_some] at htext
  have hresult : (d.analysisAt r.provider texts r.numbers position).result = answer.result := by
    cases hanswer
    rfl
  refine ⟨d.text, htext.symm, ?_⟩
  rw [← usableContext_eq_new hdoc uri, ← hresult]
  cases huse : d.usableContext r.provider with
  | error obstacle =>
    have hblocked : (d.analysisAt r.provider texts r.numbers position).result.analysis
        = .blocked .warning obstacle.message := by
      unfold Document.analysisAt
      rw [huse]
    rw [hblocked]
    exact ⟨⟨fun _ => ⟨obstacle, rfl⟩, fun _ => rfl⟩, fun hfalse => by cases hfalse⟩
  | ok context =>
    obtain ⟨other, hkey, hrun⟩ :=
      (Document.analysisAt_of_usable hdoc hcoherent.counted huse r.numbers position).1
    have hfresh := d.run_eq_of_keyFor_eq context texts hkey
    rw [hrun]
    refine ⟨⟨fun hblocked => ?_, fun ⟨_, hobstacle⟩ => by cases hobstacle⟩, fun _ => ?_⟩
    · rw [Document.run, isBlocked_analyze] at hblocked
      cases hblocked
    · -- The answer is for a cursor with the same key.
      refine ⟨context, Document.context_of_usableContext huse, ?_, ?_⟩
      · rw [hfresh, Document.run, show d.path? = (Document.new uri d.text 0).path? by
          unfold Document.path?
          rw [huri]
          rfl]
      · rw [Document.run, analyze_position]
        exact d.isSome_eq_of_keyFor_eq hkey

/-- A cursor past the end of a line is answered what was kept for the end
of the line, after another document was opened and the model refreshed. -/
theorem analysisAt_past_line_end :
    ∃ answer r', ((Registry.new (.ofModel ⟨"/p"⟩ ⟨"1", []⟩)).run (fun _ _ => .unavailable "none")
        [.openDocument "a" ['x'], .request "a" (some ⟨0, 1⟩), .openDocument "b" [],
          .refresh .empty]).analysisAt (fun _ _ => .unavailable "none") "a" (some ⟨0, 9⟩)
        = some (answer, r')
      ∧ { answer.result.analysis with position := some ⟨0, 9⟩ }
        = analyze ⟨"1", []⟩ (fun _ _ => .unavailable "none") none ['x'] (some ⟨0, 9⟩) := by
  have hopen : (((Registry.new (.ofModel ⟨"/p"⟩ ⟨"1", []⟩)).run (fun _ _ => .unavailable "none")
      [.openDocument "a" ['x'], .request "a" (some ⟨0, 1⟩), .openDocument "b" [],
        .refresh .empty]).analysisAt (fun _ _ => .unavailable "none") "a"
          (some ⟨0, 9⟩)).isSome = true := by rfl
  obtain ⟨⟨answer, r'⟩, h⟩ := Option.isSome_iff_exists.mp hopen
  obtain ⟨text, htext, hblocked, hfresh⟩ := analysisAt_eq_analyze _ (.ofModel _ _) _ rfl h
  cases htext
  have huse : (Document.new "a" ['x'] 0).usableContext (.ofModel ⟨"/p"⟩ ⟨"1", []⟩)
      = .ok ⟨⟨"/p"⟩, ⟨"1", []⟩, 1⟩ := by rfl
  have hnot : answer.result.analysis.isBlocked = false := by
    rw [← Bool.not_eq_true, hblocked]
    rintro ⟨obstacle, hobstacle⟩
    cases huse.symm.trans hobstacle
  obtain ⟨context, hcontext, heq, _⟩ := hfresh hnot
  cases hcontext
  exact ⟨answer, r', h, heq⟩

end ConceptScript.Workspace

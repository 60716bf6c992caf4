import ConceptScript.Proofs.Workspace.Run

/-!
# `ConceptScript.Proofs.Workspace.Changes`: which action gives which text

An action gives one document a text or none (`perform_cases`), and all
else follows from that. No two open documents have one URI
(`nodup_perform`). So an action that gives a document a text leaves no
other version of it behind, and each document after an action is of one of
two kinds (`mem_perform_given`): it got its text by this action, at the
moment that the clock shows now, or it has the text and the moment that it
had before.
-/

set_option autoImplicit false

namespace ConceptScript.Workspace

open ConceptScript.Text
open ConceptScript.Script (ExternalTexts)
open ConceptScript.Project

/-- Whether an action gives a text to the document with a URI. -/
def Action.touches (uri : String) : Action → Bool
  | .openDocument u _ | .update u _ => u == uri
  | .close _ | .adopt .. | .refresh _ | .ensureContext _ | .request .. | .collect _ => false

/-- What a document was given: its URI, its text, and the moment. -/
def Document.given (d : Document) : String × List Char × Nat := (d.uri, d.text, d.changed)

/-- Two documents were given the same if they have one URI, one text and one
moment of change. -/
theorem Document.given_eq_iff {d e : Document} :
    e.given = d.given ↔ e.uri = d.uri ∧ e.text = d.text ∧ e.changed = d.changed := by
  rw [given, given, Prod.mk.injEq, Prod.mk.injEq]

/-- An analysis keeps what it finds in the document, and touches nothing that
the document was given. -/
theorem Document.analysisAt_given (d : Document) (p : Provider) (texts : ExternalTexts)
    (number : Nat) (position : Option LineChr) :
    (d.analysisAt p texts number position).document.given = d.given := by
  have hchanged : (d.analysisAt p texts number position).document.changed = d.changed := by
    rw [analysisAt]
    split
    · rfl
    · dsimp only
      split <;> (unfold keepFor; split <;> rfl)
  rw [given, given, analysisAt_uri, analysisAt_text, hchanged]

/-! ### Documents in their places -/

/-- Putting a document in adds its URI at the end, unless a document with
this URI is there to be replaced. -/
theorem map_uri_putDocument (d : Document) (documents : List Document) :
    (putDocument d documents).map (·.uri) = if d.uri ∈ documents.map (·.uri)
      then documents.map (·.uri) else documents.map (·.uri) ++ [d.uri] := by
  induction documents with
  | nil => rfl
  | cons e rest ih =>
    rw [putDocument]
    by_cases h : e.uri = d.uri
    · have hmem : d.uri ∈ (e :: rest).map (·.uri) := h ▸ List.mem_cons_self
      rw [if_pos h, if_pos hmem, List.map_cons, List.map_cons, h]
    · have hmem : d.uri ∈ (e :: rest).map (·.uri) ↔ d.uri ∈ rest.map (·.uri) := by
        rw [List.map_cons, List.mem_cons, or_iff_right (Ne.symm h)]
      rw [if_neg h, List.map_cons, ih]
      by_cases hrest : d.uri ∈ rest.map (·.uri)
      · rw [if_pos hrest, if_pos (hmem.mpr hrest), List.map_cons]
      · rw [if_neg hrest, if_neg (mt hmem.mp hrest), List.map_cons, List.cons_append]

/-- Putting a document in keeps the URIs distinct. -/
theorem nodup_putDocument (d : Document) {documents : List Document}
    (h : (documents.map (·.uri)).Nodup) : ((putDocument d documents).map (·.uri)).Nodup := by
  rw [map_uri_putDocument]
  split
  · exact h
  · next hnew =>
    refine List.nodup_append.mpr ⟨h, List.pairwise_singleton _ _, ?_⟩
    rintro uri huri _ hmem rfl
    rw [List.mem_singleton.mp hmem] at huri
    exact hnew huri

/-- A document that is put in place is the only one with its URI. -/
theorem mem_putDocument_of_nodup {d e : Document} {documents : List Document}
    (hnodup : (documents.map (·.uri)).Nodup) (h : e ∈ putDocument d documents) :
    e = d ∨ e ∈ documents ∧ e.uri ≠ d.uri := by
  induction documents with
  | nil => exact .inl (List.mem_singleton.mp h)
  | cons first rest ih =>
    obtain ⟨hfirst, hrest⟩ := List.nodup_cons.mp hnodup
    rw [putDocument] at h
    split at h
    · next hsame =>
      rcases List.mem_cons.mp h with rfl | hmem
      · exact .inl rfl
      · refine .inr ⟨List.mem_cons_of_mem _ hmem, fun huri => hfirst ?_⟩
        exact List.mem_map.mpr ⟨e, hmem, huri.trans hsame.symm⟩
    · next hother =>
      rcases List.mem_cons.mp h with rfl | hmem
      · exact .inr ⟨List.mem_cons_self, hother⟩
      · exact (ih hrest hmem).imp id (And.imp_left (List.mem_cons_of_mem _))

/-- A document in the place of one that was given the same. -/
theorem map_given_putDocument {d d' : Document} {documents : List Document} {uri : String}
    (hfound : documents.find? (·.uri == uri) = some d) (hgiven : d'.given = d.given) :
    (putDocument d' documents).map Document.given = documents.map Document.given := by
  have hd := List.find?_some hfound
  have huri : d'.uri = uri := (Document.given_eq_iff.mp hgiven).1.trans (eq_of_beq hd)
  induction documents with
  | nil => cases hfound
  | cons e rest ih =>
    rw [putDocument]
    by_cases hsame : e.uri = d'.uri
    · rw [List.find?_cons, hsame, huri, beq_self_eq_true] at hfound
      obtain rfl : e = d := Option.some.inj hfound
      rw [if_pos hsame, List.map_cons, hgiven]
      rfl
    · rw [List.find?_cons, beq_false_of_ne (huri ▸ hsame)] at hfound
      rw [if_neg hsame, List.map_cons, ih hfound]
      rfl

/-- Analyses change nothing of a document that answering does not change. -/
theorem map_analyzeChosen {β : Type} {f : Document → β} {p : Provider} {texts : ExternalTexts}
    (hf : ∀ d number position, f (Document.analysisAt d p texts number position).document = f d)
    (chosen : Document → Bool) (number : Nat) (documents : List Document) :
    (analyzeChosen p texts chosen number documents).2.2.map f = documents.map f := by
  induction documents generalizing number with
  | nil => rfl
  | cons d rest ih =>
    rw [analyzeChosen]
    split
    · show f _ :: List.map f _ = f d :: rest.map f
      rw [hf d number none, ih (number + 1)]
    · exact congrArg (f d :: ·) (ih number)

/-! ### One action -/

/-- What a document was given, between two states of a registry: a text in
between, or what it was given before. The index tells which. -/
inductive GivenSince (r r' : Registry) (d : Document) : Bool → Prop
  | touched (later : r.clock < d.changed) (le : d.changed ≤ r'.clock) : GivenSince r r' d true
  | kept {e : Document} (mem : e ∈ r.documents) (given : e.given = d.given) :
    GivenSince r r' d false

/-- A document was changed at a moment that has come: at one of before, or at
one since. -/
theorem GivenSince.changed_le {r r' : Registry} {d : Document} {touched : Bool}
    (h : GivenSince r r' d touched) (hr : ∀ e ∈ r.documents, e.changed ≤ r.clock)
    (hclock : r.clock ≤ r'.clock) : d.changed ≤ r'.clock := by
  cases h with
  | touched _ hle => exact hle
  | kept hmem hsame =>
    rw [← (Document.given_eq_iff.mp hsame).2.2]
    exact Nat.le_trans (hr _ hmem) hclock

namespace Registry

variable {texts : ExternalTexts} {r : Registry}

/-- What an action can do: it gives one document a text, at the moment that
the clock shows then, or it leaves all documents with what they were given,
but those that it closes. -/
theorem perform_cases (texts : ExternalTexts) (r : Registry) (a : Action) :
    (∃ d : Document, (∀ uri, a.touches uri = (d.uri == uri)) ∧ d.changed = r.clock + 1
        ∧ (r.perform texts a).clock = r.clock + 1
        ∧ (r.perform texts a).documents = putDocument d r.documents)
      ∨ (∀ uri, a.touches uri = false) ∧ (r.perform texts a).clock = r.clock
        ∧ ((r.perform texts a).documents.map Document.given).Sublist
          (r.documents.map Document.given) := by
  cases a with
  | openDocument u text =>
    exact .inl ⟨.new u text (r.clock + 1), fun _ => rfl, rfl, rfl, rfl⟩
  | update u text =>
    refine .inl ?_
    show ∃ d : Document, _ ∧ _ ∧ (r.update u text).2.2.clock = _
      ∧ (r.update u text).2.2.documents = _
    rw [update]
    split
    · next d hd =>
      have hu : d.uri = u := uri_of_find? hd
      exact ⟨d.update text (r.clock + 1), fun uri => hu ▸ rfl, rfl, rfl, rfl⟩
    · exact ⟨.new u text (r.clock + 1), fun _ => rfl, rfl, rfl, rfl⟩
  | close u => exact .inr ⟨fun _ => rfl, rfl, List.filter_sublist.map _⟩
  | adopt store root => exact .inr ⟨fun _ => rfl, rfl, .refl _⟩
  | refresh store => exact .inr ⟨fun _ => rfl, rfl, .refl _⟩
  | ensureContext store =>
    refine .inr ⟨fun _ => rfl, ?_⟩
    show (r.ensureContext store).2.clock = _
      ∧ ((r.ensureContext store).2.documents.map Document.given).Sublist _
    rw [ensureContext]
    split
    · exact ⟨rfl, .refl _⟩
    · split <;> exact ⟨rfl, .refl _⟩
  | request u position =>
    refine .inr ⟨fun _ => rfl, ?_⟩
    rw [perform, analysisAt]
    cases hfound : r.find? u with
    | none => exact ⟨rfl, .refl _⟩
    | some d =>
      -- The document that answers was not given anything.
      have hgiven := map_given_putDocument hfound
        (d.analysisAt_given r.provider texts r.numbers position)
      exact ⟨rfl, hgiven ▸ .refl _⟩
  | collect since =>
    have hgiven := map_analyzeChosen (fun d number position => d.analysisAt_given r.provider texts
      number position) (changedAfter since) r.numbers r.documents
    exact .inr ⟨fun _ => rfl, rfl, hgiven ▸ .refl _⟩

/-- Each action keeps the URIs of documents distinct. -/
theorem nodup_perform (h : r.uris.Nodup) (a : Action) : (r.perform texts a).uris.Nodup := by
  obtain ⟨d, _, _, _, hput⟩ | ⟨_, _, hsub⟩ := perform_cases texts r a
  · rw [uris, hput]
    exact nodup_putDocument d h
  · have huris := hsub.map Prod.fst
    rw [List.map_map, List.map_map] at huris
    exact h.sublist huris

/-- The clock does not go back in an action. -/
theorem clock_le_perform (texts : ExternalTexts) (r : Registry) (a : Action) :
    r.clock ≤ (r.perform texts a).clock := by
  obtain ⟨_, _, _, hclock, _⟩ | ⟨_, hclock, _⟩ := perform_cases texts r a
  · exact hclock ▸ Nat.le_succ _
  · exact Nat.le_of_eq hclock.symm

/-- Documents after an action were given what they have by it, or have
what they had before. -/
theorem mem_perform_given (h : r.uris.Nodup) {a : Action} {d : Document}
    (hd : d ∈ (r.perform texts a).documents) :
    GivenSince r (r.perform texts a) d (a.touches d.uri) := by
  obtain ⟨e, htouches, hchanged, hclock, hput⟩ | ⟨huntouched, _, hsub⟩ := perform_cases texts r a
  · rw [hput] at hd
    rcases mem_putDocument_of_nodup h hd with rfl | ⟨hmem, huri⟩
    · rw [htouches, beq_self_eq_true]
      exact .touched (hchanged ▸ Nat.lt_succ_self _) (Nat.le_of_eq (hchanged.trans hclock.symm))
    · rw [htouches, beq_false_of_ne (Ne.symm huri)]
      exact .kept hmem rfl
  · obtain ⟨e, hmem, hgiven⟩ := List.mem_map.mp (hsub.subset (List.mem_map_of_mem hd))
    rw [huntouched]
    exact .kept hmem hgiven

end Registry

end ConceptScript.Workspace

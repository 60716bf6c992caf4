import Mathlib.Data.List.Nodup
import ConceptScript.Proofs.Workspace.Session

/-!
# `ConceptScript.Proofs.Workspace.Publishing`: nothing is lost or repeated

After every complete tick each open document has as its last publication
what a fresh analysis finds in its text. And a tick that follows another
one publishes no more than the documents that were opened or updated in
between, as long as the same model is in use: `published_of_tick`.

The publisher remembers the moment and the generation of its last complete
tick only. So the invariant (`Session.Sound`) speaks of these: if the
generation is still the same, the documents that are not younger than this
moment are up to date. It is kept for these reasons.

* A text that is given is younger than any tick before (`Sound.act`).
* A model that is installed has a generation of its own, so for a while
  nothing has to be up to date (`provider_eq_of_generation`).
* A tick publishes what is due, and what is not due was up to date before
  (`Sound.tick`).
* A tick that is broken off publishes only what is right, and nothing else
  changes (`Sound.brokenTick`).
-/

set_option autoImplicit false

namespace ConceptScript.Workspace

open ConceptScript.Script (ExternalTexts)
open ConceptScript.Cursor
open ConceptScript.Project

/-! ### What was published last -/

/-- If later pairs give a key one value only, and it is given there or was
the last before, then it is the last value for the key. -/
theorem lastIn_append {α : Type} {pairs more : List (String × α)} {key : String} {value : α}
    (hunique : ∀ other, (key, other) ∈ more → other = value)
    (h : (key, value) ∈ more ∨ lastIn pairs key = some value) :
    lastIn (pairs ++ more) key = some value := by
  rw [lastIn, List.reverse_append, List.lookup_append]
  cases hmore : more.reverse.lookup key with
  | some other =>
    obtain ⟨before, after, heq, _⟩ := List.lookup_eq_some_iff.mp hmore
    have hmem : (key, other) ∈ more := by
      rw [← List.mem_reverse, heq]
      exact List.mem_append_right _ List.mem_cons_self
    rw [hunique other hmem]
    rfl
  | none =>
    rcases h with hmem | hlast
    · have hnone := List.lookup_eq_none_iff.mp hmore (key, value) (List.mem_reverse.mpr hmem)
      simp at hnone
    · exact hlast

namespace Session

variable {texts : ExternalTexts} {s : Session}

/-- The documents with what is found in them, whatever was published
last. -/
def UpToDate (texts : ExternalTexts) (s : Session) (d : Document) : Prop :=
  s.lastPublished d.uri = some (freshFindings s.registry.provider texts d.uri d.text)

/-- What holds of a session at any time. The publisher remembers nothing
that is still to come. As long as the generation is the one it remembers,
what was given before its last complete tick is up to date. -/
structure Sound (texts : ExternalTexts) (s : Session) : Prop where
  registry : s.registry.Sound texts
  started_le : ∀ t, s.publisher.started = some t → t ≤ s.registry.clock
  generation_le : ∀ g, s.publisher.generation = some g → g ≤ s.registry.provider.generation
  upToDate : ∀ t, s.publisher.started = some t → s.publisher.generation = s.generation →
    ∀ d ∈ s.registry.documents, d.changed ≤ t → s.UpToDate texts d

/-- A session without documents is sound. -/
theorem sound_new (texts : ExternalTexts) {p : Provider} (hp : p.Initial) :
    (Session.new p).Sound texts where
  registry := Registry.sound_new texts hp
  started_le t ht := by cases ht
  generation_le g hg := by cases hg
  upToDate t ht := by cases ht

/-- The generation in use is one that the provider has counted. -/
theorem generation_le_provider (h : s.registry.Sound texts) {g : Nat} (hg : s.generation = some g) :
    g ≤ s.registry.provider.generation := by
  obtain ⟨context, hcontext, rfl⟩ := Option.map_eq_some_iff.mp hg
  exact Nat.le_of_eq (h.coherent.counted context hcontext)

/-- A document that was given the same is as up to date as it was, if the
model and what was published are the same. -/
theorem UpToDate.of_given {s' : Session} {d e : Document} (h : s.UpToDate texts e)
    (hgiven : e.given = d.given) (hprovider : s'.registry.provider = s.registry.provider)
    (hpublished : s'.published = s.published) : s'.UpToDate texts d := by
  obtain ⟨huri, htext, _⟩ := Document.given_eq_iff.mp hgiven
  rw [UpToDate, lastPublished, hpublished, hprovider, ← huri, ← htext]
  exact h

/-- A model that is installed has a generation that no publisher has
remembered. -/
theorem provider_eq_of_generation (h : s.Sound texts) {p : Provider}
    (hbecomes : s.registry.provider.Becomes p)
    (hgeneration : s.publisher.generation = p.context.map (·.generation)) :
    p = s.registry.provider :=
  hbecomes.eq_of_known h.generation_le hgeneration

/-- An action keeps a session sound. A document that it touches was given a
text since the last tick, and the others are as they were. -/
theorem Sound.act (h : s.Sound texts) (a : Action) : (s.step texts (.act a)).Sound texts where
  registry := h.registry.perform a
  started_le t ht := Nat.le_trans (h.started_le t ht) (Registry.clock_le_perform texts _ a)
  generation_le g hg :=
    Nat.le_trans (h.generation_le g hg) (Registry.perform_provider texts _ a).generation_le
  upToDate := by
    intro t ht hgeneration d hd hchanged
    have hprovider := provider_eq_of_generation h (Registry.perform_provider texts _ a) hgeneration
    have hsince := Registry.mem_perform_given h.registry.nodup hd
    generalize a.touches d.uri = touched at hsince
    cases hsince with
    | touched hlater _ =>
      -- The text is younger than the last complete tick.
      have hle := h.started_le t ht
      omega
    | kept hmem hsame =>
      rw [← (Document.given_eq_iff.mp hsame).2.2] at hchanged
      have hbefore := h.upToDate t ht (hgeneration.trans ?_) _ hmem hchanged
      · exact hbefore.of_given hsame hprovider rfl
      · exact congrArg (fun p => p.context.map (·.generation)) hprovider

/-- Waiting keeps a session sound: only the clock moves on. -/
theorem Sound.wait (h : s.Sound texts) (moments : Nat) :
    (s.step texts (.wait moments)).Sound texts where
  registry := h.registry.wait moments
  started_le t ht := Nat.le_trans (h.started_le t ht) (Nat.le_add_right _ _)
  generation_le := h.generation_le
  upToDate := h.upToDate

/-- Publications of a tick: where they name a document, they are right. -/
theorem eq_of_mem_due (h : s.registry.Sound texts) {d : Document} (hd : d ∈ s.registry.documents)
    {found : List Finding} (hmem : (d.uri, found) ∈ s.due.map (report s.registry.provider texts)) :
    found = freshFindings s.registry.provider texts d.uri d.text := by
  obtain ⟨e, he, hreport⟩ := List.mem_map.mp hmem
  have huri : e.uri = d.uri := congrArg (·.1) hreport
  obtain rfl := List.inj_on_of_nodup_map h.nodup (List.mem_of_mem_filter he) hd huri
  exact (congrArg (·.2) hreport).symm

/-- After some or all publications of a tick, a document is up to date if
it was before or is among them. -/
theorem upToDate_of_publications (h : s.registry.Sound texts) {s' : Session} {d e : Document}
    (he : e ∈ s.registry.documents) (hgiven : e.given = d.given)
    {publications : List (String × List Finding)}
    (hsub : publications ⊆ s.due.map (report s.registry.provider texts))
    (hpublished : s'.published = s.published ++ publications)
    (hprovider : s'.registry.provider = s.registry.provider)
    (hor : report s.registry.provider texts e ∈ publications ∨ s.UpToDate texts e) :
    s'.UpToDate texts d := by
  obtain ⟨huri, htext, _⟩ := Document.given_eq_iff.mp hgiven
  rw [UpToDate, lastPublished, hpublished, hprovider, ← huri, ← htext]
  exact lastIn_append (fun other hother => eq_of_mem_due h he (hsub hother)) hor

/-- A tick makes all documents up to date: it publishes those that were
touched, or all of them with a new generation. -/
theorem Sound.tick (h : s.Sound texts) : (s.step texts .tick).Sound texts := by
  have hstep := step_tick h.registry
  refine ⟨sound_registry_step h.registry .tick, ?_, ?_, ?_⟩
  · rw [hstep]
    intro t ht
    cases ht
    exact Nat.le_refl _
  · rw [hstep]
    exact fun g hg => generation_le_provider h.registry hg
  · intro t _ _ d hd _
    obtain ⟨e, he, hsame⟩ := givenSince_collect h.registry hd
    refine upToDate_of_publications h.registry he hsame (List.Subset.refl _)
      (congrArg published hstep) rfl ?_
    -- What is not due was up to date before the tick.
    cases hdue : Registry.changedAfter s.since e with
    | true => exact .inl (List.mem_map_of_mem (List.mem_filter.mpr ⟨he, hdue⟩))
    | false =>
      rw [since] at hdue
      split at hdue
      · next hgeneration =>
        cases hstarted : s.publisher.started with
        | none =>
          rw [hstarted] at hdue
          cases hdue
        | some t' =>
          rw [hstarted] at hdue
          have hle : e.changed ≤ t' := Nat.le_of_not_lt (of_decide_eq_false hdue)
          exact .inr (h.upToDate t' hstarted hgeneration.symm e he hle)
      · cases hdue

/-- A tick that is broken off keeps a session sound. What it published is up
to date, and the publisher does not remember the tick. -/
theorem Sound.brokenTick (h : s.Sound texts) (publications : Nat) :
    (s.step texts (.brokenTick publications)).Sound texts := by
  have hstep := step_brokenTick h.registry publications
  refine ⟨sound_registry_step h.registry (.brokenTick publications), ?_, ?_, ?_⟩
  · rw [hstep]
    exact fun t ht => Nat.le_trans (h.started_le t ht) (Nat.le_succ _)
  · rw [hstep]
    exact h.generation_le
  · intro t ht hgeneration d hd hchanged
    rw [hstep] at ht hgeneration
    obtain ⟨e, he, hsame⟩ := givenSince_collect h.registry hd
    rw [← (Document.given_eq_iff.mp hsame).2.2] at hchanged
    have hbefore := h.upToDate t ht hgeneration e he hchanged
    exact upToDate_of_publications h.registry he hsame (List.take_subset _ _)
      (congrArg published hstep) rfl (.inr hbefore)

/-- Each event keeps a session sound. -/
theorem Sound.step (h : s.Sound texts) (e : Event) : (s.step texts e).Sound texts := by
  cases e with
  | act a => exact h.act a
  | wait moments => exact h.wait moments
  | tick => exact h.tick
  | brokenTick publications => exact h.brokenTick publications

/-- A run keeps a session sound. Induction on the events. -/
theorem Sound.run (h : s.Sound texts) (events : List Event) : (s.run texts events).Sound texts := by
  induction events generalizing s with
  | nil => exact h
  | cons e rest ih => exact ih (h.step e)

/-- After a complete tick all documents are up to date. -/
theorem upToDate_of_tick (h : s.Sound texts) :
    ∀ d ∈ (s.step texts .tick).registry.documents, (s.step texts .tick).UpToDate texts d := by
  have hsound := h.tick
  have hstep := step_tick h.registry
  intro d hd
  refine hsound.upToDate (s.registry.clock + 1) (by rw [hstep]) (by rw [hstep]; rfl) d hd ?_
  exact hsound.registry.changed_le d hd

/-- The documents due after a complete tick, with the same generation, are
those that were opened or updated since. -/
theorem due_run (h : s.Sound texts) {between : List Event} (hbetween : .tick ∉ between)
    (hgeneration : ((s.step texts .tick).run texts between).generation
      = (s.step texts .tick).generation) :
    ((s.step texts .tick).run texts between).due
      = ((s.step texts .tick).run texts between).registry.documents.filter
          fun d => touchedBy between d.uri := by
  have hstep := step_tick h.registry
  have hsound := h.tick
  -- The next tick collects from this one on, as the generation is the same.
  have hsince : ((s.step texts .tick).run texts between).since = some (s.registry.clock + 1) := by
    have hsame : (s.step texts .tick).generation = s.generation := rfl
    rw [since, publisher_run texts _ hbetween, hgeneration, hsame, hstep]
    exact if_pos rfl
  rw [due, hsince]
  refine List.filter_congr fun d hd => ?_
  have hgiven := givenSince_run hsound.registry between hd
  generalize touchedBy between d.uri = touched at hgiven
  cases hgiven with
  -- A touched document was changed after the tick, and any other one before.
  | touched hlater _ => exact decide_eq_true hlater
  | kept hmem hsame =>
    have hle := hsound.registry.changed_le _ hmem
    rw [(Document.given_eq_iff.mp hsame).2.2] at hle
    exact decide_eq_false (Nat.not_lt_of_le hle)

end Session

/-- In any session, a complete tick leaves every open document with the
findings of a fresh analysis of its text as published last. A complete
tick that follows, with the same model in use, publishes the documents
that were opened or updated in between, each once and in order. -/
theorem published_of_tick (texts : ExternalTexts) {p : Provider} (hp : p.Initial)
    (events : List Event) :
    let s := (Session.new p).run texts (events ++ [.tick])
    (∀ uri text, textGiven uri (actionsOf events) = some text →
        s.lastPublished uri = some (freshFindings s.registry.provider texts uri text))
      ∧ ∀ between, .tick ∉ between →
        let s' := s.run texts between
        s'.generation = s.generation →
          (s'.step texts .tick).published = s'.published
              ++ (s'.registry.documents.filter fun d => touchedBy between d.uri).map
                (report s'.registry.provider texts)
            ∧ s'.registry.uris.Nodup := by
  have hsound := (Session.sound_new texts hp).run events
  have hrun : (Session.new p).run texts (events ++ [.tick])
      = ((Session.new p).run texts events).step texts .tick := List.foldl_append ..
  intro s
  constructor
  · intro uri text htext
    have hfind := Session.find?_run_text texts p (events ++ [.tick]) uri
    -- The tick itself is no action, so it gives no text.
    have hactions : actionsOf (events ++ [.tick]) = actionsOf events := by
      unfold actionsOf
      rw [List.flatMap_append]
      exact List.append_nil _
    rw [hactions, htext] at hfind
    obtain ⟨d, hd, rfl⟩ := Option.map_eq_some_iff.mp hfind
    obtain rfl := Registry.uri_of_find? hd
    rw [hrun] at hd
    have hupToDate := Session.upToDate_of_tick hsound d (List.mem_of_find?_eq_some hd)
    rw [← hrun] at hupToDate
    exact hupToDate
  · intro between hbetween s' hgeneration
    have hsound' : s'.Sound texts := ((Session.sound_new texts hp).run _).run between
    -- What is due is what was touched: the publisher remembers the tick before, and the
    -- generation.
    have hdue := Session.due_run hsound hbetween (by rw [← hrun]; exact hgeneration)
    rw [← hrun] at hdue
    refine ⟨?_, hsound'.registry.nodup⟩
    rw [Session.step_tick hsound'.registry, ← hdue]

/-- After one document was published, another one is opened. It alone is
published, also when the first try is broken off. -/
theorem published_of_tick_after_open :
    let texts : ExternalTexts := fun _ _ => .unavailable "none"
    let s := (Session.new (.ofModel ⟨"/p"⟩ ⟨"1", []⟩)).run texts
      ([.act (.openDocument "a" ['x'])] ++ [.tick])
    let s' := s.run texts [.act (.openDocument "b" []), .brokenTick 1, .wait 5]
    s.lastPublished "a" = some (freshFindings s.registry.provider texts "a" ['x'])
      ∧ (s'.step texts .tick).published
        = s'.published ++ [("b", freshFindings s'.registry.provider texts "b" [])] := by
  intro texts s s'
  obtain ⟨hlast, hnext⟩ := published_of_tick texts (.ofModel ⟨"/p"⟩ ⟨"1", []⟩)
    [.act (.openDocument "a" ['x'])]
  have hpublished := (hnext [.act (.openDocument "b" []), .brokenTick 1, .wait 5] (by simp) rfl).1
  exact ⟨hlast "a" ['x'] rfl, hpublished⟩

end ConceptScript.Workspace

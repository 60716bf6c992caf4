import ConceptScript.Proofs.Workspace.Interleaving

/-!
# `ConceptScript.Proofs.Workspace.Overtaking`: opens that a tick overtakes

A document takes its moment when it is made and is put into the registry
later. A tick publishes what is younger than the start of the tick before.
So a tick can overtake an open: it starts when the document is made already
and collects when the document is not in the registry yet. It does not see
the document, and the next tick finds it too old.

`publishedByNextTick_iff` says that this is the only way to miss a
document: the next tick that starts and completes is sure to publish it
just if no tick has overtaken the open when it ends. It is `Overtaken` by
the moment and the generation that the publisher remembers, or will
remember of a tick that has collected. `not_publishedByNextTick` is a run
in which it is missed, and `Missed.not_reported` says that it stays so,
until the document is given a text or another model is installed.

* In one direction, a `Prospect` tells how the document stands after a run:
  it was published, or the tick under way will collect it, or has collected
  it, or has passed it over but leaves it to the next. Each move keeps that
  (`Prospect.step`), and the last case is over with the next start.
* In the other direction, the tick under way may come to its end
  (`exists_settled`), and the document is `Missed` from then on.
-/

set_option autoImplicit false

namespace ConceptScript.Workspace

open ConceptScript.Script (ExternalTexts)
open ConceptScript.Cursor
open ConceptScript.Project

/-! ### What is passed over -/

/-- With what a publisher remembers, a tick passes over a document that was
changed at a moment: it remembers the generation in use, and a moment that
is not earlier. -/
def Publisher.PassesOver (p : Publisher) (generation : Option Nat) (changed : Nat) : Prop :=
  p.generation = generation ∧ ∃ t, p.started = some t ∧ changed ≤ t

/-- A tick that starts now collects just the documents that the publisher
does not pass over. -/
theorem Publisher.changedAfter_start (p : Publisher) (now : Nat) (generation : Option Nat)
    (d : Document) : Registry.changedAfter (p.start now generation).since d = true
      ↔ ¬p.PassesOver generation d.changed := by
  rw [PassesOver, start, Registry.changedAfter]
  by_cases h : generation = p.generation
  · rw [if_pos h]
    simp [h, Option.all_eq_true]
  · rw [if_neg h]
    simp [Ne.symm h]

/-- The tick under way, if there is one, will collect a document. -/
def Stage.Collects (d : Document) : Stage → Prop
  | .idle => True
  | .started t => Registry.changedAfter t.since d = true
  | .collected .. => False

/-- A tick that will collect a document will collect it when it was changed
later. -/
theorem Stage.Collects.mono {stage : Stage} {d e : Document} (h : stage.Collects d)
    (hle : d.changed ≤ e.changed) : stage.Collects e := by
  cases stage with
  | idle => trivial
  | started t =>
    rw [Collects, Registry.changedAfter, Option.all_eq_true] at h ⊢
    intro since hsince
    have hlater := of_decide_eq_true (h since hsince)
    exact decide_eq_true (Nat.lt_of_lt_of_le hlater hle)
  | collected t left => exact h

namespace Overlap

variable {texts : ExternalTexts} {s₀ s s' : Overlap} {moves : List Move} {m : Move}
  {uri : String} {d : Document}

/-- What would pass over a document after a move would have done so
before. -/
theorem passesOver_of_step {p : Publisher} (hp : p.Past s.registry)
    (hstep : s.step texts m = some s') {before after : Nat} (hle : before ≤ after)
    (h : p.PassesOver s'.generation after) : p.PassesOver s.generation before := by
  obtain ⟨hgeneration, t, ht, hafter⟩ := h
  have hsame := (registry_step hstep).2.eq_of_known hp.generation_le hgeneration
  rw [Session.generation, hsame] at hgeneration
  exact ⟨hgeneration, t, ht, Nat.le_trans hle hafter⟩

/-! ### Reports -/

/-- In a run a tick collected the document with a URI, and what is found in
it as it was then is among what was published since or is left. -/
def Reported (texts : ExternalTexts) (s₀ : Overlap) (moves : List Move) (s : Overlap)
    (uri : String) (left : List (String × List Finding)) : Prop :=
  ∃ before after between d more, moves = before ++ .collect :: after
    ∧ s₀.run texts before = some between ∧ between.registry.find? uri = some d
    ∧ s.published = between.published ++ more
    ∧ report between.registry.provider texts d ∈ more ++ left

/-- A move may publish some of what is left. -/
theorem Reported.snoc {left new left' : List (String × List Finding)}
    (h : Reported texts s₀ moves s uri left) (hpublished : s'.published = s.published ++ new)
    (hsub : left ⊆ new ++ left') : Reported texts s₀ (moves ++ [m]) s' uri left' := by
  obtain ⟨before, after, between, d, more, rfl, hrun, hd, hmore, hmem⟩ := h
  refine ⟨before, after ++ [m], between, d, more ++ new, ?_, hrun, hd, ?_, ?_⟩
  · rw [List.append_assoc, List.cons_append]
  · rw [hpublished, hmore, List.append_assoc]
  · rw [List.append_assoc]
    rcases List.mem_append.mp hmem with hmem | hmem
    · exact List.mem_append_left _ hmem
    · exact List.mem_append_right _ (hsub hmem)

/-- A document that is put into the registry is published by the end of
the next tick that starts and completes, if it is neither closed nor
replaced until then, whatever else happens. No tick starts in `early`, so
the one that completes after `late` is the next: ticks that start in
between are broken off. -/
def PublishedByNextTick (texts : ExternalTexts) (s : Overlap) (o : Opening) : Prop :=
  ∀ early late s₁ s', .start ∉ early → .finish ∉ late →
    (∀ m ∈ early ++ .start :: late, m.removes o.uri = false) →
    s.step texts (.insert o) = some s₁ →
    s₁.run texts (early ++ .start :: late ++ [.finish]) = some s' →
    Reported texts s₁ (early ++ .start :: late ++ [.finish]) s' o.uri []

/-! ### Prospects -/

/-- The document with a URI, which the publisher would not pass over. -/
structure Standing (s : Overlap) (uri : String) (d : Document) : Prop where
  found : s.registry.find? uri = some d
  remembered : ¬s.publisher.PassesOver s.generation d.changed

/-- A document that the publisher would not pass over stays so in a move that
neither removes it nor completes a tick. -/
theorem Standing.step (h : s.Standing uri d) (hs : s.Sound texts)
    (hstep : s.step texts m = some s') (hremoves : m.removes uri = false) (hm : m ≠ .finish) :
    ∃ e, s'.Standing uri e ∧ d.changed ≤ e.changed := by
  obtain ⟨e, he, hle⟩ := exists_find?_step hs hstep hremoves h.found
  refine ⟨e, ⟨he, fun hpasses => h.remembered ?_⟩, hle⟩
  rw [publisher_step hstep hm] at hpasses
  exact passesOver_of_step hs.remembered hstep hle hpasses

/-- How the document with a URI stands after a run, as long as it is
neither closed nor replaced. The index tells whether the tick under way may
have started before the run. -/
inductive Prospect (texts : ExternalTexts) (s₀ : Overlap) (moves : List Move) (s : Overlap)
    (uri : String) : Bool → Prop
  | reported {earlier : Bool} (h : Reported texts s₀ moves s uri []) :
    Prospect texts s₀ moves s uri earlier
  /-- The tick under way will collect it, if there is one. -/
  | due {earlier : Bool} {d : Document} (standing : s.Standing uri d)
    (collects : s.stage.Collects d) : Prospect texts s₀ moves s uri earlier
  | collected {earlier : Bool} {d : Document} {t : Tick} {left : List (String × List Finding)}
    (standing : s.Standing uri d) (stage : s.stage = .collected t left)
    (h : Reported texts s₀ moves s uri left) : Prospect texts s₀ moves s uri earlier
  /-- The tick under way does not collect it, but the next one will. -/
  | passed {d : Document} {t : Tick} (standing : s.Standing uri d)
    (stage : s.stage.tick? = some t)
    (next : ¬(Publisher.finish t).PassesOver s.generation d.changed) :
    Prospect texts s₀ moves s uri true

/-- Once it was published, that stays so. -/
theorem Reported.prospect {earlier : Bool} {new : List (String × List Finding)}
    (h : Reported texts s₀ moves s uri []) (hpublished : s'.published = s.published ++ new) :
    Prospect texts s₀ (moves ++ [m]) s' uri earlier :=
  .reported (h.snoc hpublished (List.nil_subset _))

/-- A tick that does not collect the document goes on. -/
theorem Standing.passed {t : Tick} (h : s.Standing uri d) (hs : s.Sound texts)
    (hstep : s.step texts m = some s') (hremoves : m.removes uri = false) (hm : m ≠ .finish)
    (htick : s.stage.tick? = some t) (htick' : s'.stage.tick? = some t)
    (hnext : ¬(Publisher.finish t).PassesOver s.generation d.changed) :
    Prospect texts s₀ (moves ++ [m]) s' uri true := by
  obtain ⟨e, he, hle⟩ := h.step hs hstep hremoves hm
  refine .passed he htick' fun hpasses => hnext ?_
  exact passesOver_of_step (hs.underway t htick).past hstep hle hpasses

/-- Moves that leave the tick under way as it is. -/
theorem Prospect.frame {earlier : Bool} (h : Prospect texts s₀ moves s uri earlier)
    (hs : s.Sound texts) (hstep : s.step texts m = some s') (hremoves : m.removes uri = false)
    (hm : m ≠ .finish) (hstage : s'.stage = s.stage)
    (hpublished : s'.published = s.published ++ []) :
    Prospect texts s₀ (moves ++ [m]) s' uri earlier := by
  cases h with
  | reported h => exact h.prospect hpublished
  | due standing collects =>
    obtain ⟨e, he, hle⟩ := standing.step hs hstep hremoves hm
    exact .due he (hstage ▸ collects.mono hle)
  | collected standing stage h =>
    obtain ⟨e, he, _⟩ := standing.step hs hstep hremoves hm
    exact .collected he (hstage.trans stage) (h.snoc hpublished (List.Subset.refl _))
  | passed standing stage next =>
    exact standing.passed hs hstep hremoves hm stage (hstage ▸ stage) next

/-- After a tick is broken off, the publisher remembers what it remembered
before. -/
theorem Prospect.breakOff {earlier : Bool} (h : Prospect texts s₀ moves s uri earlier)
    (hs : s.Sound texts) (hstep : s.step texts .breakOff = some s') :
    Prospect texts s₀ (moves ++ [.breakOff]) s' uri earlier := by
  cases h with
  | reported h =>
    cases hstep
    exact h.prospect (List.append_nil _).symm
  | due standing _ | collected standing _ _ | passed standing _ _ =>
    obtain ⟨e, he, _⟩ := standing.step hs hstep rfl nofun
    cases hstep
    exact .due he trivial

/-- A tick that starts now will collect the document. -/
theorem Prospect.start {earlier later : Bool} (h : Prospect texts s₀ moves s uri earlier)
    (hstep : s.step texts .start = some s') :
    Prospect texts s₀ (moves ++ [.start]) s' uri later := by
  obtain ⟨hidle, rfl⟩ := step_start.mp hstep
  cases h with
  | reported h => exact h.prospect (List.append_nil _).symm
  | due standing _ =>
    refine .due ⟨standing.found, standing.remembered⟩ ?_
    exact (Publisher.changedAfter_start ..).mpr standing.remembered
  | collected _ stage _ | passed _ stage _ => rw [hidle] at stage; cases stage

/-- Collecting keeps the prospects of a document: one that was due is now
among what is left to be published. -/
theorem Prospect.collect {earlier : Bool} (h : Prospect texts s₀ moves s uri earlier)
    (hs : s.Sound texts) (hrun : s₀.run texts moves = some s)
    (hstep : s.step texts .collect = some s') :
    Prospect texts s₀ (moves ++ [.collect]) s' uri earlier := by
  obtain ⟨t, hstage, rfl⟩ := step_collect.mp hstep
  cases h with
  | reported h => exact h.prospect (List.append_nil _).symm
  | due standing collects =>
    obtain ⟨e, he, _⟩ := standing.step hs hstep rfl nofun
    rw [hstage] at collects
    -- It is among the documents of this collection, and all of these are left to be published.
    have hmem := List.mem_filter.mpr ⟨List.mem_of_find?_eq_some standing.found, collects⟩
    refine .collected he rfl ⟨moves, [], s, _, [], rfl, hrun, standing.found,
      (List.append_nil _).symm, ?_⟩
    rw [List.nil_append, hs.registry.fst_collect]
    exact List.mem_map_of_mem hmem
  | collected _ stage _ => rw [hstage] at stage; cases stage
  | passed standing stage next =>
    exact standing.passed hs hstep rfl nofun stage ((congrArg Stage.tick? hstage).symm.trans stage)
      next

/-- Publishing keeps the prospects of a document: what is taken from what is
left is among what was published. -/
theorem Prospect.publish {earlier : Bool} (h : Prospect texts s₀ moves s uri earlier)
    (hs : s.Sound texts) (hstep : s.step texts .publish = some s') :
    Prospect texts s₀ (moves ++ [.publish]) s' uri earlier := by
  obtain ⟨t, next, left, hstage, rfl⟩ := step_publish.mp hstep
  cases h with
  | reported h => exact h.prospect rfl
  | due standing collects =>
    rw [hstage] at collects
    exact collects.elim
  | collected standing stage h =>
    obtain ⟨e, he, _⟩ := standing.step hs hstep rfl nofun
    rw [hstage] at stage
    cases stage
    exact .collected he rfl (h.snoc rfl (List.Subset.refl _))
  | passed standing stage next =>
    exact standing.passed hs hstep rfl nofun stage ((congrArg Stage.tick? hstage).symm.trans stage)
      next

/-- A tick that finishes has published the document, unless it started
before. -/
theorem Prospect.finish {earlier : Bool} (h : Prospect texts s₀ moves s uri earlier)
    (hstep : s.step texts .finish = some s') :
    Reported texts s₀ (moves ++ [.finish]) s' uri []
      ∨ earlier = true ∧ Prospect texts s₀ (moves ++ [.finish]) s' uri earlier := by
  obtain ⟨t, hstage, rfl⟩ := step_finish.mp hstep
  cases h with
  | reported h => exact .inl (h.snoc (List.append_nil _).symm (List.nil_subset _))
  | due standing collects =>
    rw [hstage] at collects
    exact collects.elim
  | collected standing stage h =>
    rw [hstage] at stage
    cases stage
    exact .inl (h.snoc (List.append_nil _).symm (List.nil_subset _))
  | passed standing stage next =>
    -- The publisher now remembers this tick, which leaves the document to the next one.
    rw [hstage] at stage
    cases stage
    exact .inr ⟨rfl, .due ⟨standing.found, next⟩ trivial⟩

/-- A move that does not remove a document keeps its prospects. Completing a
tick is the case that needs `Prospect.passed`: it leaves the document to the
next tick. -/
theorem Prospect.step {earlier : Bool} (h : Prospect texts s₀ moves s uri earlier)
    (hs : s.Sound texts) (hrun : s₀.run texts moves = some s)
    (hstep : s.step texts m = some s') (hremoves : m.removes uri = false) :
    Prospect texts s₀ (moves ++ [m]) s' uri earlier := by
  cases m with
  | insert o =>
    obtain ⟨_, rfl⟩ := step_insert.mp hstep
    exact h.frame hs hstep hremoves nofun rfl (List.append_nil _).symm
  | start => exact h.start hstep
  | collect => exact h.collect hs hrun hstep
  | publish => exact h.publish hs hstep
  | finish => exact (h.finish hstep).elim .reported And.right
  | breakOff => exact h.breakOff hs hstep
  | act | wait | make =>
    refine h.frame hs hstep hremoves nofun ?_ ?_ <;> cases hstep
    · rfl
    · exact (List.append_nil _).symm

/-- The prospects of a document are kept in a run. Induction on the moves. -/
theorem Prospect.run {earlier : Bool} {more : List Move}
    (h : Prospect texts s₀ moves s uri earlier) (hs : s.Sound texts)
    (hbefore : s₀.run texts moves = some s) (hrun : s.run texts more = some s')
    (hremoves : ∀ m ∈ more, m.removes uri = false) :
    Prospect texts s₀ (moves ++ more) s' uri earlier := by
  refine run_induction (P := fun done s' => Prospect texts s₀ (moves ++ done) s' uri earlier)
    (by rwa [List.append_nil]) ?_ hrun
  intro done m between after hm hprospect hdone hstep
  rw [← List.append_assoc]
  exact hprospect.step (hs.run hdone) (run_append.mpr ⟨s, hbefore, hdone⟩) hstep (hremoves m hm)

/-! ### Opens that are overtaken -/

/-- What the publisher will remember when the tick under way completes, if
it has collected. If it has not, that is still open, and what counts is
what the publisher remembers now. -/
def outlook (s : Overlap) : Publisher :=
  match s.stage with
  | .idle | .started _ => s.publisher
  | .collected t _ => .finish t

/-- A tick has overtaken an open. When it started, the document was made
already or was made at the same moment, but when it collected, the document
was not in the registry. -/
def Overtaken (s : Overlap) (o : Opening) : Prop := s.outlook.PassesOver s.generation o.moment

/-- A document that is put in and was not overtaken has prospects: the
publisher remembers only what was before it was made. -/
theorem prospect_insert {o : Opening} (hs : s.Sound texts) (h : ¬s.Overtaken o)
    (hstep : s.step texts (.insert o) = some s') : Prospect texts s' [] s' o.uri true := by
  obtain ⟨_, rfl⟩ := step_insert.mp hstep
  have hfound : (s.registry.put o.document).find? o.uri = some o.document := by
    rw [Registry.find?_put]
    exact if_pos rfl
  rw [Overtaken, outlook] at h
  cases hstage : s.stage with
  | idle =>
    rw [hstage] at h
    exact .due ⟨hfound, h⟩ trivial
  | started t =>
    rw [hstage] at h
    have htick := hs.underway t (congrArg Stage.tick? hstage)
    by_cases hcollects : (Stage.started t).Collects o.document
    · exact .due ⟨hfound, h⟩ hcollects
    · -- What the tick found remembered is of an older generation.
      refine .passed ⟨hfound, h⟩ (t := t) rfl fun hpasses => h ?_
      have hgeneration : t.generation = s.generation := hpasses.1
      rwa [Stage.Collects, htick.start_eq, Publisher.changedAfter_start, not_not,
        hgeneration] at hcollects
  | collected t left =>
    -- The tick has passed the document by, and what it will remember is earlier than the
    -- document.
    rw [hstage] at h
    have htick := hs.underway t (congrArg Stage.tick? hstage)
    refine .passed ⟨hfound, fun hpasses => h ?_⟩ (t := t) rfl h
    obtain ⟨hgeneration, m, hm, hle⟩ := hpasses
    exact ⟨htick.current hgeneration, t.started, rfl, Nat.le_trans hle (htick.later m hm)⟩

/-- A document whose open was not overtaken is published, not only by the
next tick but before any tick that starts later completes. -/
theorem publishedByNextTick_of_not_overtaken {o : Opening} (hs : s.Sound texts)
    (h : ¬s.Overtaken o) : PublishedByNextTick texts s o := by
  intro early late s₁ s' _ _ hremoves hinsert hrun
  obtain ⟨s₄, hlate, hlast⟩ := run_append.mp hrun
  obtain ⟨s₂, hbefore, htick⟩ := run_append.mp hlate
  obtain ⟨s₃, hstart, hrest⟩ := run_cons.mp htick
  obtain ⟨s₅, hfinish, hnone⟩ := run_cons.mp hlast
  cases hnone
  have hs₁ := hs.step hinsert
  have hs₂ := hs₁.run hbefore
  -- Up to the start of the next tick, one that started before may be under way.
  have hprospect := (prospect_insert hs h hinsert).run hs₁ rfl hbefore
    fun m hm => hremoves m (List.mem_append_left _ hm)
  have hstarted : Prospect texts s₁ (early ++ [.start]) s₃ o.uri false := hprospect.start hstart
  have hdone := hstarted.run (hs₂.step hstart)
    (run_append.mpr ⟨s₂, hbefore, run_cons.mpr ⟨s₃, hstart, rfl⟩⟩) hrest
    fun m hm => hremoves m (List.mem_append_right _ (List.mem_cons_of_mem _ hm))
  rw [List.append_assoc, List.singleton_append] at hdone
  rcases hdone.finish hfinish with hreported | ⟨hfalse, _⟩
  · exact hreported
  · cases hfalse

/-! ### Missed documents -/

/-- The publisher passes over the document with a URI, and the tick under
way does not publish it and leaves it to be passed over. -/
structure Missed (s : Overlap) (uri : String) : Prop where
  remembered : ∀ d ∈ s.registry.documents, d.uri = uri →
    s.publisher.PassesOver s.generation d.changed
  next : ∀ t, s.stage.tick? = some t → ∀ d ∈ s.registry.documents, d.uri = uri →
    (Publisher.finish t).PassesOver s.generation d.changed
  since : ∀ t, s.stage = .started t → ∀ d ∈ s.registry.documents, d.uri = uri →
    Registry.changedAfter t.since d = false
  left : ∀ t left, s.stage = .collected t left → ∀ x ∈ left, x.1 ≠ uri

/-- What holds of the moments of a document still holds after a move that
gives it no text. -/
theorem forall_changed_step {Q : Nat → Prop} (hs : s.Sound texts)
    (hstep : s.step texts m = some s') (htouches : m.touches uri = false)
    (h : ∀ d ∈ s.registry.documents, d.uri = uri → Q d.changed) :
    ∀ d ∈ s'.registry.documents, d.uri = uri → Q d.changed := by
  rintro d hd rfl
  obtain ⟨e, he, huri, hchanged⟩ := exists_given_step hs hstep htouches hd
  exact hchanged ▸ h e he huri

/-- Moves that leave the tick under way as it is. -/
theorem Missed.frame (h : s.Missed uri) (hs : s.Sound texts) (hstep : s.step texts m = some s')
    (htouches : m.touches uri = false) (hgeneration : s'.generation = s.generation)
    (hpublisher : s'.publisher = s.publisher) (hstage : s'.stage = s.stage) : s'.Missed uri where
  remembered := by
    rw [hpublisher, hgeneration]
    exact forall_changed_step hs hstep htouches h.remembered
  next t ht := by
    rw [hgeneration]
    exact forall_changed_step hs hstep htouches (h.next t (hstage ▸ ht))
  since t ht := forall_changed_step (Q := fun changed => t.since.all (· < changed) = false) hs hstep
    htouches (h.since t (hstage ▸ ht))
  left := hstage ▸ h.left

/-- Between ticks a document is missed if the publisher would pass it over. -/
theorem missed_of_idle (hidle : s.stage = .idle)
    (h : ∀ d ∈ s.registry.documents, d.uri = uri → s.publisher.PassesOver s.generation d.changed) :
    s.Missed uri := by
  refine ⟨h, fun t ht => ?_, fun t ht => ?_, fun t left ht => ?_⟩ <;> rw [hidle] at ht <;> cases ht

/-- As long as no text is given and no model is installed, a document that
is missed stays so and is not published. -/
theorem Missed.step (h : s.Missed uri) (hs : s.Sound texts) (hstep : s.step texts m = some s')
    (htouches : m.touches uri = false)
    (hprovider : s'.registry.provider = s.registry.provider) :
    s'.Missed uri ∧ ∃ new, s'.published = s.published ++ new ∧ ∀ x ∈ new, x.1 ≠ uri := by
  have hgeneration : s'.generation = s.generation := by
    rw [Session.generation, hprovider]
    rfl
  have hnothing : ∃ new, s.published = s.published ++ new ∧ ∀ x ∈ new, x.1 ≠ uri :=
    ⟨[], (List.append_nil _).symm, List.forall_mem_nil _⟩
  cases m with
  | insert o =>
    obtain ⟨_, rfl⟩ := step_insert.mp hstep
    exact ⟨h.frame hs hstep htouches hgeneration rfl rfl, hnothing⟩
  | start =>
    obtain ⟨hidle, rfl⟩ := step_start.mp hstep
    refine ⟨⟨h.remembered, ?_, ?_, (by rintro t left ⟨⟩)⟩, hnothing⟩
    · -- The tick starts in the same generation, and not before any document got its text.
      rintro t ⟨⟩ d hd _
      exact ⟨rfl, s.registry.clock, rfl, hs.registry.changed_le d hd⟩
    · rintro t ⟨⟩ d hd huri
      rw [← Bool.not_eq_true, Publisher.changedAfter_start, not_not]
      exact h.remembered d hd huri
  | collect =>
    -- What is collected changed since the tick says, and the document did not.
    obtain ⟨t, hstage, rfl⟩ := step_collect.mp hstep
    have hnext := h.next t (congrArg Stage.tick? hstage)
    refine ⟨⟨forall_changed_step hs hstep htouches h.remembered, ?_, (by rintro t ⟨⟩), ?_⟩,
      hnothing⟩
    · rintro t' ⟨⟩
      exact forall_changed_step hs hstep htouches hnext
    · rintro t' left ⟨⟩ x hx huri
      rw [hs.registry.fst_collect] at hx
      obtain ⟨d, hd, rfl⟩ := List.mem_map.mp hx
      obtain ⟨hmem, hdue⟩ := List.mem_filter.mp hd
      rw [h.since t hstage d hmem huri] at hdue
      cases hdue
  | publish =>
    obtain ⟨t, next, left, hstage, rfl⟩ := step_publish.mp hstep
    obtain ⟨hfirst, hrest⟩ := List.forall_mem_cons.mp (h.left t _ hstage)
    refine ⟨⟨h.remembered, ?_, (by rintro t ⟨⟩), ?_⟩, [next], rfl,
      List.forall_mem_singleton.mpr hfirst⟩
    · rintro t' ⟨⟩
      exact h.next t (congrArg Stage.tick? hstage)
    · rintro t' left' ⟨⟩
      exact hrest
  | finish =>
    -- The tick that completes is one after which the document is passed over.
    obtain ⟨t, hstage, rfl⟩ := step_finish.mp hstep
    exact ⟨missed_of_idle rfl (h.next t (congrArg Stage.tick? hstage)), hnothing⟩
  | breakOff =>
    cases hstep
    exact ⟨missed_of_idle rfl h.remembered, hnothing⟩
  | act | wait | make =>
    refine ⟨h.frame hs hstep htouches hgeneration ?_ ?_, ?_⟩ <;> cases hstep
    · rfl
    · rfl
    · exact hnothing

/-- A document that was missed stays missed while it is given no text and the
generation is the same, and nothing about it is published. -/
theorem Missed.run (h : s.Missed uri) (hs : s.Sound texts) (hrun : s.run texts moves = some s')
    (htouches : ∀ m ∈ moves, m.touches uri = false)
    (hgeneration : s'.registry.provider.generation = s.registry.provider.generation) :
    s'.Missed uri ∧ ∃ new, s'.published = s.published ++ new ∧ ∀ x ∈ new, x.1 ≠ uri := by
  refine run_induction (P := fun _ s' => s'.registry.provider.generation
      = s.registry.provider.generation → s'.Missed uri
      ∧ ∃ new, s'.published = s.published ++ new ∧ ∀ x ∈ new, x.1 ≠ uri)
    (fun _ => ⟨h, [], (List.append_nil _).symm, List.forall_mem_nil _⟩) ?_ hrun hgeneration
  intro before m between after hm hbetween hbefore hstep hsame
  -- Generations do not fall, so it was the same all the time.
  have hprovider := (registry_step hstep).2
  have hbetweenSame : between.registry.provider.generation = s.registry.provider.generation :=
    Nat.le_antisymm (hsame ▸ hprovider.generation_le) (generation_le_run hbefore)
  obtain ⟨hmissed, new, hnew, hnone⟩ := hbetween hbetweenSame
  obtain ⟨hafter, more, hmore, hnoneMore⟩ := hmissed.step (hs.run hbefore) hstep (htouches m hm)
    (hprovider.eq_of_generation (hsame.trans hbetweenSame.symm))
  refine ⟨hafter, new ++ more, by rw [hmore, hnew, List.append_assoc], ?_⟩
  exact List.forall_mem_append.mpr ⟨hnone, hnoneMore⟩

/-- A document that is missed is not published, however many ticks come,
as long as it is given no text and no model is installed. -/
theorem Missed.not_reported (h : s.Missed uri) (hs : s.Sound texts)
    (hrun : s.run texts moves = some s') (htouches : ∀ m ∈ moves, m.touches uri = false)
    (hgeneration : s'.registry.provider.generation = s.registry.provider.generation) :
    ¬Reported texts s moves s' uri [] := by
  rintro ⟨before, after, between, d, more, rfl, hbefore, hd, hmore, hmem⟩
  obtain ⟨between', hbefore', hafter⟩ := run_append.mp hrun
  obtain rfl := Option.some.inj (hbefore'.symm.trans hbefore)
  have hsame : between'.registry.provider.generation = s.registry.provider.generation :=
    Nat.le_antisymm (hgeneration ▸ generation_le_run hafter) (generation_le_run hbefore)
  have hmissed := (h.run hs hbefore (fun m hm => htouches m (List.mem_append_left _ hm)) hsame).1
  obtain ⟨_, new, hnew, hnone⟩ := hmissed.run (hs.run hbefore) hafter
    (fun m hm => htouches m (List.mem_append_right _ hm)) (hgeneration.trans hsame.symm)
  obtain rfl := List.append_cancel_left (hmore.symm.trans hnew)
  rw [List.append_nil] at hmem
  exact hnone _ hmem (Registry.uri_of_find? hd)

/-- What is reported after moves that do not collect is reported from there
on. -/
theorem Reported.after {early late : List Move} {left : List (String × List Finding)}
    (h : Reported texts s₀ (early ++ late) s' uri left) (hearly : .collect ∉ early)
    (hrun : s₀.run texts early = some s) : Reported texts s late s' uri left := by
  obtain ⟨before, after, between, d, more, hmoves, hbefore, hd, hmore, hmem⟩ := h
  obtain ⟨rest, rfl, rfl⟩ | ⟨rest, rfl, hrest⟩ := List.append_eq_append_iff.mp hmoves
  · obtain ⟨s₁, hs₁, hrest⟩ := run_append.mp hbefore
    obtain rfl := Option.some.inj (hs₁.symm.trans hrun)
    exact ⟨rest, after, between, d, more, rfl, hrest, hd, hmore, hmem⟩
  · cases rest with
    | nil =>
      rw [List.append_nil] at hrun
      obtain rfl := Option.some.inj (hbefore.symm.trans hrun)
      exact ⟨[], after, between, d, more, hrest.symm, rfl, hd, hmore, hmem⟩
    | cons m rest =>
      obtain ⟨rfl, _⟩ := List.cons.inj hrest
      exact absurd (List.mem_append_right _ List.mem_cons_self) hearly

/-- The tick under way comes to its end: it publishes what it has
collected, or it is broken off before it collects. -/
theorem exists_settled (texts : ExternalTexts) (s : Overlap) : ∃ early s',
    (∀ m ∈ early, m.isTick = true ∧ m ≠ .start ∧ m ≠ .collect)
      ∧ s.run texts early = some s' ∧ s'.stage = .idle ∧ s'.publisher = s.outlook
      ∧ s'.registry = s.registry := by
  rw [outlook]
  cases hstage : s.stage with
  | idle => exact ⟨[], s, nofun, rfl, hstage, rfl, rfl⟩
  | started t =>
    exact ⟨[.breakOff], _, List.forall_mem_singleton.mpr ⟨rfl, nofun, nofun⟩, rfl, rfl, rfl, rfl⟩
  | collected t left =>
    refine ⟨List.replicate left.length .publish ++ [.finish],
      { s with published := s.published ++ left, publisher := .finish t, stage := .idle },
      List.forall_mem_append.mpr ⟨fun m hm => ?_, List.forall_mem_singleton.mpr
        ⟨rfl, nofun, nofun⟩⟩,
      run_append.mpr ⟨_, run_publish t left s hstage, rfl⟩, rfl, rfl, rfl⟩
    rw [List.eq_of_mem_replicate hm]
    exact ⟨rfl, nofun, nofun⟩

/-- A document whose open was overtaken is missed, if the tick under way
comes to its end and the next one follows. -/
theorem not_publishedByNextTick_of_overtaken {o : Opening} (hs : s.Sound texts)
    (ho : o ∈ s.opening) (h : s.Overtaken o) : ¬PublishedByNextTick texts s o := by
  intro hpublished
  let s₁ : Overlap :=
    { s with registry := s.registry.put o.document, opening := s.opening.erase o }
  have hinsert : s.step texts (.insert o) = some s₁ := step_insert.mpr ⟨ho, rfl⟩
  have hs₁ := hs.step hinsert
  obtain ⟨early, s₂, hearly, hsettled, hidle, hpublisher, hregistry⟩ := exists_settled texts s₁
  have hs₂ := hs₁.run hsettled
  have hmissed : s₂.Missed o.uri := by
    refine missed_of_idle hidle fun d hd huri => ?_
    rw [hregistry] at hd
    rcases mem_putDocument_of_nodup hs.registry.nodup hd with rfl | ⟨_, hother⟩
    · rw [hpublisher, Session.generation, hregistry]
      exact h
    · exact absurd huri hother
  -- Now the next tick runs, with nothing in between.
  have htick := run_tick hs₂.registry hidle
  have hpublish : ∀ m ∈ List.replicate s₂.due.length Move.publish, m.isTick = true := by
    intro m hm
    rw [List.eq_of_mem_replicate hm]
    rfl
  have hparts : ∀ m ∈ Move.start :: .collect :: List.replicate s₂.due.length .publish,
      m.isTick = true := List.forall_mem_cons.mpr ⟨rfl, List.forall_mem_cons.mpr ⟨rfl, hpublish⟩⟩
  have hreported := hpublished early (.collect :: List.replicate s₂.due.length .publish) s₁ _
    (fun hm => (hearly _ hm).2.1 rfl) (by simp) ?_ hinsert
    (List.append_assoc .. ▸ run_append.mpr ⟨s₂, hsettled, htick⟩)
  · rw [List.append_assoc] at hreported
    refine hmissed.not_reported hs₂ htick ?_ rfl
      (hreported.after (fun hm => (hearly _ hm).2.2 rfl) hsettled)
    exact List.forall_mem_append.mpr ⟨fun m hm => Move.touches_of_isTick (hparts m hm) o.uri,
      List.forall_mem_singleton.mpr rfl⟩
  · exact List.forall_mem_append.mpr
      ⟨fun m hm => Move.removes_of_isTick (hearly m hm).1 o.uri,
        fun m hm => Move.removes_of_isTick (hparts m hm) o.uri⟩

/-- The next tick is sure to publish a document that is opened, unless a
tick has overtaken the open when the document is put into the registry. -/
theorem publishedByNextTick_iff (texts : ExternalTexts) {p : Provider} (hp : p.Initial)
    {moves : List Move} {s : Overlap} (hrun : (Overlap.new p).run texts moves = some s)
    {o : Opening} (ho : o ∈ s.opening) : PublishedByNextTick texts s o ↔ ¬s.Overtaken o := by
  have hs := (sound_new texts hp).run hrun
  constructor
  · exact fun hpublished hovertaken => not_publishedByNextTick_of_overtaken hs ho hovertaken
      hpublished
  · exact publishedByNextTick_of_not_overtaken hs

/-- A document that is made when a tick has started and has not collected
is published, though it is made at the moment at which the tick started. -/
theorem publishedByNextTick_of_started :
    PublishedByNextTick (fun _ _ => .unavailable "none")
      ⟨⟨.new (.ofModel ⟨"/p"⟩ ⟨"1", []⟩), .new, []⟩, [⟨"a", ['x'], 0⟩], .started ⟨0, some 1, none⟩⟩
      ⟨"a", ['x'], 0⟩ := by
  have hrun : (Overlap.new (.ofModel ⟨"/p"⟩ ⟨"1", []⟩)).run (fun _ _ => .unavailable "none")
      [.start, .make "a" ['x']] = some ⟨⟨.new (.ofModel ⟨"/p"⟩ ⟨"1", []⟩), .new, []⟩,
        [⟨"a", ['x'], 0⟩], .started ⟨0, some 1, none⟩⟩ := rfl
  refine (publishedByNextTick_iff _ (.ofModel _ _) hrun List.mem_cons_self).mpr ?_
  rintro ⟨hgeneration, _⟩
  cases hgeneration

/-- A document that is made before a tick starts and put into the registry
after it has collected is not published by this tick and not by the
next. -/
theorem not_publishedByNextTick :
    ¬∀ (texts : ExternalTexts) (p : Provider), p.Initial → ∀ (moves : List Move) (s : Overlap),
      (Overlap.new p).run texts moves = some s → ∀ o ∈ s.opening,
        PublishedByNextTick texts s o := by
  intro h
  let texts : ExternalTexts := fun _ _ => .unavailable "none"
  -- The document is made at 1, the tick that collects before it is there starts at 2.
  have hpublished := h texts (.ofModel ⟨"/p"⟩ ⟨"1", []⟩) (.ofModel ⟨"/p"⟩ ⟨"1", []⟩)
    [.wait 1, .make "a" ['x'], .wait 1, .start, .collect, .finish] _ rfl
    ⟨"a", ['x'], 1⟩ List.mem_cons_self
  -- The next tick starts at 3 and completes, and still nothing is published.
  obtain ⟨before, after, between, d, more, _, _, _, hmore, hmem⟩ := hpublished [.wait 1] [.collect]
    _ _ (by simp) (by simp) (by simp [Move.removes]) rfl rfl
  obtain ⟨_, rfl⟩ := List.nil_eq_append_iff.mp hmore
  exact absurd hmem List.not_mem_nil

end Overlap

end ConceptScript.Workspace

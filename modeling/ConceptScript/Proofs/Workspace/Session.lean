import ConceptScript.Workspace.Publisher
import ConceptScript.Proofs.Workspace.Changes
import ConceptScript.Proofs.Workspace.Coherence

/-!
# `ConceptScript.Proofs.Workspace.Session`: a workspace and its publisher

A `Session` is a registry with the publisher that watches it and all that
was published. An `Event` is an action, a tick of the publisher, a tick
that is broken off after some publications, or time that passes. Events do
not overlap, as each holds the locks it needs.

`tick_eq` says what a tick publishes: for the documents that are due, in
order, what a fresh analysis finds in them. `givenSince_run` says which
documents got their texts during a run, by the clock and by the events.
-/

set_option autoImplicit false

namespace ConceptScript.Workspace

open ConceptScript.Text
open ConceptScript.Script (ExternalTexts)
open ConceptScript.Cursor
open ConceptScript.Project

/-! ### What is found -/

/-- What is found in a text by a new analysis of the whole of it, or that
it cannot be analyzed. -/
def freshFindings (p : Provider) (texts : ExternalTexts) (uri : String) (text : List Char) :
    List Finding :=
  let d := Document.new uri text 0
  match d.usableContext p with
  | .error obstacle => (Analysis.blocked .warning obstacle.message).findings
  | .ok context => (analyze context.model texts d.path? text none).findings

/-- A document with what is found in it. -/
def report (p : Provider) (texts : ExternalTexts) (d : Document) : String × List Finding :=
  (d.uri, freshFindings p texts d.uri d.text)

namespace Document

variable {texts : ExternalTexts} {p : Provider} {d : Document}

/-- What is found in a whole text does not depend on what was kept. -/
theorem Coherent.findings_eq (h : d.Coherent texts p) (hp : p.Counted) (number : Nat) :
    (d.analysisAt p texts number none).result.analysis.findings
      = freshFindings p texts d.uri d.text := by
  unfold freshFindings
  dsimp only
  rw [← usableContext_eq_new h d.uri]
  cases huse : d.usableContext p with
  | error obstacle =>
    unfold analysisAt
    rw [huse]
  | ok context =>
    obtain ⟨other, hkey, hrun⟩ := (analysisAt_of_usable h hp huse number none).1
    cases other with
    | none =>
      rw [hrun]
      rfl
    | some q => cases hkey

end Document

/-- Collecting gives the reports of the chosen documents, in order. -/
theorem fst_analyzeChosen {p : Provider} {texts : ExternalTexts} (hp : p.Counted)
    (chosen : Document → Bool) (number : Nat) {documents : List Document}
    (h : ∀ d ∈ documents, d.Coherent texts p) :
    (analyzeChosen p texts chosen number documents).1
      = (documents.filter chosen).map (report p texts) := by
  induction documents generalizing number with
  | nil => rfl
  | cons d rest ih =>
    obtain ⟨hd, hrest⟩ := List.forall_mem_cons.mp h
    rw [analyzeChosen]
    cases hchosen : chosen d with
    | true =>
      rw [List.filter_cons_of_pos hchosen, List.map_cons, ← ih (number + 1) hrest, report,
        ← hd.findings_eq hp number]
      rfl
    | false =>
      rw [List.filter_cons_of_neg (by rw [hchosen]; exact Bool.false_ne_true), ← ih number hrest]
      rfl

/-! ### Sessions -/

/-- The last value that a list of pairs gives for a key. -/
def lastIn {α : Type} (pairs : List (String × α)) (key : String) : Option α :=
  pairs.reverse.lookup key

/-- What happens in a session. Time may pass between the other events, so
the clock is only known to move on with every reading. -/
inductive Event where
  | act (a : Action)
  | wait (moments : Nat)
  | tick
  /-- A tick that is broken off after some publications. -/
  | brokenTick (publications : Nat)

/-- A registry, the publisher that watches it, and all that was published
so far. -/
structure Session where
  registry : Registry
  publisher : Publisher
  published : List (String × List Finding)

namespace Session

/-- A session without documents. -/
def new (p : Provider) : Session := ⟨.new p, .new, []⟩

/-- A session after an event. -/
def step (texts : ExternalTexts) (s : Session) : Event → Session
  | .act a => { s with registry := s.registry.perform texts a }
  | .wait moments => { s with registry.clock := s.registry.clock + moments }
  | .tick =>
    let (found, publisher, registry) := s.publisher.tick s.registry texts false
    ⟨registry, publisher, s.published ++ found⟩
  | .brokenTick publications =>
    let (found, publisher, registry) := s.publisher.tick s.registry texts true
    ⟨registry, publisher, s.published ++ found.take publications⟩

/-- A session after some events, the first one first. -/
def run (texts : ExternalTexts) (s : Session) (events : List Event) : Session :=
  events.foldl (step texts) s

/-- The generation of the context in use. -/
def generation (s : Session) : Option Nat := s.registry.provider.context.map (·.generation)

/-- What was published last for a document. -/
def lastPublished (s : Session) (uri : String) : Option (List Finding) :=
  lastIn s.published uri

end Session

/-- The actions among some events. -/
def actionsOf (events : List Event) : List Action :=
  events.flatMap fun
    | .act a => [a]
    | .wait _ | .tick | .brokenTick _ => []

/-- Whether a document is opened or updated by some events. -/
def touchedBy (events : List Event) (uri : String) : Bool :=
  (actionsOf events).any (·.touches uri)

/-! ### The registry of a session -/

namespace Registry

variable {texts : ExternalTexts} {r : Registry}

/-- What holds of the registry at any time. -/
structure Sound (texts : ExternalTexts) (r : Registry) : Prop where
  coherent : r.Coherent texts
  nodup : r.uris.Nodup
  changed_le : ∀ d ∈ r.documents, d.changed ≤ r.clock

/-- A registry without documents is sound. -/
theorem sound_new (texts : ExternalTexts) {p : Provider} (hp : p.Initial) :
    (Registry.new p).Sound texts :=
  ⟨coherent_new texts hp, .nil, fun _ hd => absurd hd List.not_mem_nil⟩

/-- Each action keeps a registry sound. -/
theorem Sound.perform (h : r.Sound texts) (a : Action) : (r.perform texts a).Sound texts where
  coherent := h.coherent.perform a
  nodup := nodup_perform h.nodup a
  changed_le _ hd := (mem_perform_given h.nodup hd).changed_le h.changed_le
    (clock_le_perform texts r a)

/-- Collecting gives the reports of the documents that got their texts after
the moment, in order. -/
theorem Sound.fst_collect (h : r.Sound texts) (since : Option Nat) :
    (r.collect texts since).1
      = (r.documents.filter (changedAfter since)).map (report r.provider texts) :=
  fst_analyzeChosen h.coherent.counted _ _ h.coherent.documents

/-- Waiting keeps a registry sound. -/
theorem Sound.wait (h : r.Sound texts) (moments : Nat) :
    ({ r with clock := r.clock + moments } : Registry).Sound texts where
  coherent := ⟨h.coherent.counted, h.coherent.documents⟩
  nodup := h.nodup
  changed_le d hd := Nat.le_trans (h.changed_le d hd) (Nat.le_add_right _ _)

end Registry

namespace Session

variable {texts : ExternalTexts} {s : Session}

/-- The moment since which a tick collects. -/
def since (s : Session) : Option Nat :=
  if s.generation = s.publisher.generation then s.publisher.started else none

/-- The documents that a tick publishes. -/
def due (s : Session) : List Document := s.registry.documents.filter (Registry.changedAfter s.since)

/-- A tick publishes what is found in the documents that are due, with one
reading of the clock, and collects them. Only if it is not broken off does
the publisher remember it. -/
theorem tick_eq (h : s.registry.Sound texts) (brokenOff : Bool) :
    s.publisher.tick s.registry texts brokenOff
      = (s.due.map (report s.registry.provider texts),
        if brokenOff then s.publisher else ⟨some (s.registry.clock + 1), s.generation⟩,
        s.registry.now.2.perform texts (.collect s.since)) := by
  have hfound : (s.registry.collect texts s.since).1 = s.due.map (report s.registry.provider texts) :=
    h.fst_collect s.since
  rw [← hfound]
  rfl

/-- A session after a complete tick. -/
theorem step_tick (h : s.registry.Sound texts) :
    s.step texts .tick = ⟨s.registry.now.2.perform texts (.collect s.since),
      ⟨some (s.registry.clock + 1), s.generation⟩,
      s.published ++ s.due.map (report s.registry.provider texts)⟩ := by
  rw [step, tick_eq h]
  rfl

/-- A session after a tick that was broken off: only so many of the findings
were published, and the publisher is as before. -/
theorem step_brokenTick (h : s.registry.Sound texts) (publications : Nat) :
    s.step texts (.brokenTick publications)
      = ⟨s.registry.now.2.perform texts (.collect s.since), s.publisher,
        s.published ++ (s.due.map (report s.registry.provider texts)).take publications⟩ := by
  rw [step, tick_eq h]
  rfl

/-- Each event keeps the registry sound. -/
theorem sound_registry_step (h : s.registry.Sound texts) (e : Event) :
    (s.step texts e).registry.Sound texts := by
  cases e with
  | act a => exact h.perform a
  | wait moments => exact h.wait moments
  | tick => exact (h.wait 1).perform (.collect s.since)
  | brokenTick publications => exact (h.wait 1).perform (.collect s.since)

/-- The clock does not go back in an event. -/
theorem clock_le_step (texts : ExternalTexts) (s : Session) (e : Event) :
    s.registry.clock ≤ (s.step texts e).registry.clock := by
  cases e with
  | act a => exact Registry.clock_le_perform texts s.registry a
  | wait moments => exact Nat.le_add_right _ _
  | tick => exact Nat.le_succ _
  | brokenTick publications => exact Nat.le_succ _

/-- A tick gives no document a text. -/
theorem givenSince_collect (h : s.registry.Sound texts) {d : Document}
    (hd : d ∈ (s.registry.now.2.perform texts (.collect s.since)).documents) :
    ∃ e ∈ s.registry.documents, e.given = d.given := by
  cases Registry.mem_perform_given (h.wait 1).nodup hd with
  | kept hmem hsame => exact ⟨_, hmem, hsame⟩

/-- What a document was given after an event is a text in the event if the
event touched it, and else what it was given before. -/
theorem givenSince_step (h : s.registry.Sound texts) (e : Event) {d : Document}
    (hd : d ∈ (s.step texts e).registry.documents) :
    GivenSince s.registry (s.step texts e).registry d (touchedBy [e] d.uri) := by
  cases e with
  | act a =>
    have hone : touchedBy [.act a] d.uri = a.touches d.uri := Bool.or_false _
    rw [hone]
    exact Registry.mem_perform_given h.nodup hd
  | wait moments => exact .kept hd rfl
  | tick =>
    obtain ⟨e, he, hsame⟩ := givenSince_collect h hd
    exact .kept he hsame
  | brokenTick publications =>
    obtain ⟨e, he, hsame⟩ := givenSince_collect h hd
    exact .kept he hsame

end Session

/-! ### Runs -/

/-- A document is touched by some events if the first one or the others touch
it. -/
theorem touchedBy_cons (e : Event) (rest : List Event) (uri : String) :
    touchedBy (e :: rest) uri = (touchedBy [e] uri || touchedBy rest uri) := by
  unfold touchedBy actionsOf
  rw [List.flatMap_cons, List.any_append, List.flatMap_cons, List.flatMap_nil, List.append_nil]

namespace Session

variable {texts : ExternalTexts} {s : Session}

/-- The clock does not go back in a run. -/
theorem clock_le_run (texts : ExternalTexts) (s : Session) (events : List Event) :
    s.registry.clock ≤ (s.run texts events).registry.clock := by
  induction events generalizing s with
  | nil => exact Nat.le_refl _
  | cons e rest ih => exact Nat.le_trans (clock_le_step texts s e) (ih _)

/-- Documents after some events were given what they have by these, or have
what they had before. -/
theorem givenSince_run (h : s.registry.Sound texts) (events : List Event) {d : Document}
    (hd : d ∈ (s.run texts events).registry.documents) :
    GivenSince s.registry (s.run texts events).registry d (touchedBy events d.uri) := by
  induction events generalizing s with
  | nil => exact .kept hd rfl
  | cons e rest ih =>
    have hrest := ih (sound_registry_step h e) hd
    rw [touchedBy_cons]
    generalize touchedBy rest d.uri = touched at hrest
    cases hrest with
    | touched hlater hle =>
      rw [Bool.or_true]
      exact .touched (Nat.lt_of_le_of_lt (clock_le_step texts s e) hlater) hle
    | kept hmem hsame =>
      -- What the first event gave was kept by the others.
      obtain ⟨huri, _, hchanged⟩ := Document.given_eq_iff.mp hsame
      have hfirst := givenSince_step h e hmem
      rw [Bool.or_false, ← huri]
      generalize touchedBy [e] _ = touched at hfirst
      cases hfirst with
      | touched hlater hle =>
        rw [hchanged] at hlater hle
        exact .touched hlater (Nat.le_trans hle (clock_le_run texts _ rest))
      | kept hmem' hsame' => exact .kept hmem' (hsame'.trans hsame)

/-- Only a tick that is complete changes what the publisher remembers. -/
theorem publisher_run (texts : ExternalTexts) (s : Session) {events : List Event}
    (h : .tick ∉ events) : (s.run texts events).publisher = s.publisher := by
  induction events generalizing s with
  | nil => rfl
  | cons e rest ih =>
    obtain ⟨hfirst, hrest⟩ := List.ne_and_not_mem_of_not_mem_cons h
    have hstep : (s.step texts e).publisher = s.publisher := by
      cases e with
      | act a => rfl
      | wait moments => rfl
      | tick => exact absurd rfl hfirst
      | brokenTick publications => rfl
    exact (ih _ hrest).trans hstep

/-- The text of a document after an event is the one that the actions of the
event leave. Ticks and waits leave it as it was. -/
theorem find?_step_text (texts : ExternalTexts) (s : Session) (e : Event) (uri : String) :
    ((s.step texts e).registry.find? uri).map (·.text)
      = (actionsOf [e]).foldl (textAfter uri) ((s.registry.find? uri).map (·.text)) := by
  cases e with
  | act a => exact Registry.find?_perform_text texts s.registry a uri
  | wait moments => rfl
  | tick => exact Registry.find?_perform_text texts s.registry.now.2 (.collect s.since) uri
  | brokenTick publications =>
    exact Registry.find?_perform_text texts s.registry.now.2 (.collect s.since) uri

/-- A session holds the text each document was given last. -/
theorem find?_run_text (texts : ExternalTexts) (p : Provider) (events : List Event)
    (uri : String) :
    (((Session.new p).run texts events).registry.find? uri).map (·.text)
      = textGiven uri (actionsOf events) := by
  suffices h : ∀ s : Session, ((s.run texts events).registry.find? uri).map (·.text)
      = (actionsOf events).foldl (textAfter uri) ((s.registry.find? uri).map (·.text)) from
    h (.new p)
  induction events with
  | nil => intro s; rfl
  | cons e rest ih =>
    intro s
    have hcons : actionsOf (e :: rest) = actionsOf [e] ++ actionsOf rest := by
      unfold actionsOf
      rw [List.flatMap_cons, List.flatMap_cons, List.flatMap_nil, List.append_nil]
    rw [hcons, List.foldl_append, ← find?_step_text texts s e uri]
    exact ih (s.step texts e)

end Session

end ConceptScript.Workspace

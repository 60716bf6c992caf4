import Mathlib.Data.List.Induction
import Mathlib.Data.List.Nodup
import ConceptScript.Proofs.Workspace.Session

/-!
# `ConceptScript.Proofs.Workspace.Interleaving`: opens and ticks in parts

The events of a `Session` do not overlap. But opening a document takes two
moves, and a tick takes several: other threads can come in between, and
several opens can be under way beside one tick. An `Overlap` is a session
with all that is under way, a `Move` is one part, and a run is any order
of moves in which each can be made.

* An open reads the clock and makes the document (`make`), then puts it
  into the registry (`insert`). Where opens are done in one piece, they
  are an action.
* A tick reads the clock and the generation (`start`), collects what is
  found in the documents that are due (`collect`), publishes it piece by
  piece (`publish`), and remembers when it started (`finish`). It can be
  broken off at any stage (`breakOff`).

Reading the clock in parts does not move it; `wait` and actions do. So the
readings never fall, and two of them may be equal. `run_open` and
`run_wait_tick` say that the parts without anything in between are the
events of a session.

What a move can do to the registry is said once (`registry_cases`), and all
that a move leaves as it is follows from that. `Sound` is the invariant of
a run: neither the publisher nor the tick under way knows of a moment or a
generation that is still to come, and the tick is not older than what the
publisher remembers.
-/

set_option autoImplicit false

namespace ConceptScript.Workspace

open ConceptScript.Script (ExternalTexts)
open ConceptScript.Cursor
open ConceptScript.Project

/-- A document that was made at a moment and is not in the registry yet. -/
structure Opening where
  uri : String
  text : List Char
  moment : Nat
  deriving DecidableEq, Repr

/-- The document of an open. -/
def Opening.document (o : Opening) : Document := .new o.uri o.text o.moment

/-- How far a tick has come. -/
inductive Stage where
  | idle
  | started (t : Tick)
  /-- The findings are collected, and some are left to be published. -/
  | collected (t : Tick) (left : List (String × List Finding))

/-- The tick that is under way. -/
def Stage.tick? : Stage → Option Tick
  | .idle => none
  | .started t | .collected t _ => some t

/-- A session with the opens and the tick that are under way. -/
structure Overlap extends Session where
  opening : List Opening
  stage : Stage

/-- A part of what happens. -/
inductive Move where
  | act (a : Action)
  | wait (moments : Nat)
  | make (uri : String) (text : List Char)
  | insert (o : Opening)
  | start
  | collect
  | publish
  | finish
  | breakOff

namespace Overlap

/-- A session in which nothing is under way. -/
def new (p : Provider) : Overlap := ⟨.new p, [], .idle⟩

/-- An overlap after a move, if the move can be made. -/
def step (texts : ExternalTexts) (s : Overlap) : Move → Option Overlap
  | .act a => some ⟨s.toSession.step texts (.act a), s.opening, s.stage⟩
  | .wait moments => some ⟨s.toSession.step texts (.wait moments), s.opening, s.stage⟩
  | .make uri text => some { s with opening := ⟨uri, text, s.registry.clock⟩ :: s.opening }
  | .insert o =>
    if o ∈ s.opening then
      some { s with registry := s.registry.put o.document, opening := s.opening.erase o }
    else none
  | .start =>
    match s.stage with
    | .idle => some { s with stage := .started (s.publisher.start s.registry.clock s.generation) }
    | .started _ | .collected .. => none
  | .collect =>
    match s.stage with
    | .started t =>
      let (found, registry) := s.registry.collect texts t.since
      some { s with registry := registry, stage := .collected t found }
    | .idle | .collected .. => none
  | .publish =>
    match s.stage with
    | .collected t (next :: left) =>
      some { s with published := s.published ++ [next], stage := .collected t left }
    | .idle | .started _ | .collected _ [] => none
  | .finish =>
    match s.stage with
    | .collected t [] => some { s with publisher := .finish t, stage := .idle }
    | .idle | .started _ | .collected _ (_ :: _) => none
  | .breakOff => some { s with stage := .idle }

/-- An overlap after some moves, the first one first, if they can be made. -/
def run (texts : ExternalTexts) (s : Overlap) (moves : List Move) : Option Overlap :=
  moves.foldlM (step texts) s

variable {texts : ExternalTexts} {s s' : Overlap}

/-! ### What a move needs -/

/-- A document can be put into the registry just if an open for it is under
way, which it ends. -/
theorem step_insert {o : Opening} : s.step texts (.insert o) = some s' ↔ o ∈ s.opening
    ∧ s' = { s with registry := s.registry.put o.document, opening := s.opening.erase o } := by
  rw [step]
  split
  · next h => simp [h, eq_comm]
  · next h => simp [h]

/-- A tick can start just if none is under way. It takes the time and the
generation there are. -/
theorem step_start : s.step texts .start = some s' ↔ s.stage = .idle
    ∧ s' = { s with stage := .started (s.publisher.start s.registry.clock s.generation) } := by
  rw [step]
  cases s.stage with
  | idle => simp [eq_comm]
  | started t => simp
  | collected t left => simp

/-- A tick that has started can collect what changed since it says. -/
theorem step_collect : s.step texts .collect = some s' ↔ ∃ t, s.stage = .started t
    ∧ s' = { s with registry := s.registry.perform texts (.collect t.since),
                    stage := .collected t (s.registry.collect texts t.since).1 } := by
  rw [step]
  cases s.stage with
  | idle => simp
  | started t => simp [Registry.perform, eq_comm]
  | collected t left => simp

/-- A tick that has collected can publish the next finding that is left. -/
theorem step_publish : s.step texts .publish = some s' ↔ ∃ t next left,
    s.stage = .collected t (next :: left)
      ∧ s' = { s with published := s.published ++ [next], stage := .collected t left } := by
  rw [step]
  cases s.stage with
  | idle => simp
  | started t => simp
  | collected t left =>
    cases left with
    | nil => simp
    | cons next rest =>
      constructor
      · intro h
        exact ⟨t, next, rest, rfl, (Option.some.inj h).symm⟩
      · rintro ⟨_, _, _, ⟨⟩, rfl⟩
        rfl

/-- A tick can complete just if nothing is left to publish. The publisher
then remembers it. -/
theorem step_finish : s.step texts .finish = some s' ↔ ∃ t, s.stage = .collected t []
    ∧ s' = { s with publisher := .finish t, stage := .idle } := by
  rw [step]
  cases s.stage with
  | idle => simp
  | started t => simp
  | collected t left => cases left <;> simp [eq_comm]

/-! ### Runs -/

/-- Moves are made one after the other: the first one, and from there the
others. -/
theorem run_cons {m : Move} {moves : List Move} : s.run texts (m :: moves) = some s'
    ↔ ∃ between, s.step texts m = some between ∧ between.run texts moves = some s' := by
  rw [run, List.foldlM_cons]
  exact Option.bind_eq_some_iff

/-- Two stretches of moves can be made just if the second one can be made
from where the first one leads. -/
theorem run_append {moves more : List Move} : s.run texts (moves ++ more) = some s'
    ↔ ∃ between, s.run texts moves = some between ∧ between.run texts more = some s' := by
  rw [run, List.foldlM_append]
  exact Option.bind_eq_some_iff

/-- An induction on a run from its end: what holds at its start and is kept
by every move holds at its end. -/
theorem run_induction {P : List Move → Overlap → Prop} (hnil : P [] s)
    {moves : List Move}
    (hsnoc : ∀ before m between after, m ∈ moves → P before between →
      s.run texts before = some between → between.step texts m = some after →
      P (before ++ [m]) after)
    (h : s.run texts moves = some s') : P moves s' := by
  induction moves using List.reverseRecOn generalizing s' with
  | nil =>
    cases h
    exact hnil
  | append_singleton before m ih =>
    obtain ⟨between, hbefore, hlast⟩ := run_append.mp h
    obtain ⟨after, hstep, hnone⟩ := run_cons.mp hlast
    cases hnone
    have hP := ih (fun b m' x y hm' => hsnoc b m' x y (List.mem_append_left _ hm')) hbefore
    exact hsnoc before m between s' (by simp) hP hbefore hstep

/-! ### The parts of an event make the event -/

/-- All that is left is published. -/
theorem run_publish (t : Tick) (left : List (String × List Finding)) (s : Overlap)
    (h : s.stage = .collected t left) :
    s.run texts (List.replicate left.length .publish)
      = some { s with published := s.published ++ left, stage := .collected t [] } := by
  induction left generalizing s with
  | nil =>
    rw [List.append_nil, ← h]
    rfl
  | cons next rest ih =>
    refine run_cons.mpr ⟨_, step_publish.mpr ⟨t, next, rest, h, rfl⟩, ?_⟩
    rw [ih _ rfl]
    simp

/-- An open in which the two moves follow each other is the action. -/
theorem run_open (texts : ExternalTexts) (s : Overlap) (uri : String) (text : List Char) :
    s.run texts [.wait 1, .make uri text, .insert ⟨uri, text, s.registry.clock + 1⟩]
      = some ⟨s.toSession.step texts (.act (.openDocument uri text)), s.opening, s.stage⟩ := by
  have hinsert (o : Opening) : (Overlap.mk (s.toSession.step texts (.wait 1)) (o :: s.opening)
      s.stage).step texts (.insert o) = some ⟨⟨s.registry.now.2.put o.document, s.publisher,
        s.published⟩, s.opening, s.stage⟩ := by
    rw [step, if_pos List.mem_cons_self, List.erase_cons_head]
    rfl
  exact run_cons.mpr ⟨_, rfl, run_cons.mpr ⟨_, rfl, run_cons.mpr ⟨_, hinsert _, rfl⟩⟩⟩

/-- A tick in which the moves follow each other publishes what is due and
remembers when it started. -/
theorem run_tick (hs : s.registry.Sound texts) (hstage : s.stage = .idle) :
    s.run texts (.start :: .collect :: List.replicate s.due.length .publish ++ [.finish])
      = some ⟨⟨s.registry.perform texts (.collect s.since),
          ⟨some s.registry.clock, s.generation⟩,
          s.published ++ s.due.map (report s.registry.provider texts)⟩, s.opening, .idle⟩ := by
  have hfound : (s.registry.collect texts s.since).1
      = s.due.map (report s.registry.provider texts) := hs.fst_collect s.since
  have hlength : s.due.length = (s.registry.collect texts s.since).1.length := by
    rw [hfound, List.length_map]
  rw [hlength, ← hfound]
  refine run_append.mpr ⟨_, run_cons.mpr ⟨_, step_start.mpr ⟨hstage, rfl⟩, run_cons.mpr
    ⟨_, step_collect.mpr ⟨_, rfl, rfl⟩, run_publish _ _ _ rfl⟩⟩, ?_⟩
  exact run_cons.mpr ⟨_, step_finish.mpr ⟨_, rfl, rfl⟩, rfl⟩

/-- If a moment passes before, such a tick is the tick of a session. -/
theorem run_wait_tick (hs : s.registry.Sound texts) (hstage : s.stage = .idle) :
    s.run texts (.wait 1 :: .start :: .collect :: List.replicate s.due.length .publish ++ [.finish])
      = some ⟨s.toSession.step texts .tick, s.opening, .idle⟩ := by
  rw [Session.step_tick hs]
  exact run_cons.mpr ⟨⟨s.toSession.step texts (.wait 1), s.opening, s.stage⟩, rfl,
    run_tick (hs.wait 1) hstage⟩

end Overlap

/-! ### What a move does to the registry -/

/-- Whether an action closes or replaces the document with a URI. -/
def Action.removes (uri : String) : Action → Bool
  | .openDocument u _ | .close u => u == uri
  | .update .. | .adopt .. | .refresh _ | .ensureContext _ | .request .. | .collect _ => false

/-- Whether a move closes or replaces the document with a URI. -/
def Move.removes (uri : String) : Move → Bool
  | .act a => a.removes uri
  | .insert o => o.uri == uri
  | .wait _ | .make .. | .start | .collect | .publish | .finish | .breakOff => false

/-- Whether a move gives a text to the document with a URI. -/
def Move.touches (uri : String) : Move → Bool
  | .act a => a.touches uri
  | .insert o => o.uri == uri
  | .wait _ | .make .. | .start | .collect | .publish | .finish | .breakOff => false

/-- Whether a move is a part of a tick. -/
def Move.isTick : Move → Bool
  | .start | .collect | .publish | .finish | .breakOff => true
  | .act _ | .wait _ | .make .. | .insert _ => false

/-- A part of a tick removes no document. -/
theorem Move.removes_of_isTick {m : Move} (h : m.isTick = true) (uri : String) :
    m.removes uri = false := by
  cases m <;> first | rfl | cases h

/-- A part of a tick gives no text to a document. -/
theorem Move.touches_of_isTick {m : Move} (h : m.isTick = true) (uri : String) :
    m.touches uri = false := by
  cases m <;> first | rfl | cases h

namespace Overlap

variable {texts : ExternalTexts} {s s' : Overlap} {m : Move}

/-- What a move can do to the registry: an action that gives and removes
the same texts, the end of an open, or nothing but to let time pass. -/
theorem registry_cases (h : s.step texts m = some s') :
    (∃ a : Action, s'.registry = s.registry.perform texts a
        ∧ (∀ uri, a.removes uri = m.removes uri) ∧ ∀ uri, a.touches uri = m.touches uri)
      ∨ (∃ o ∈ s.opening, m = .insert o ∧ s'.registry = s.registry.put o.document)
      ∨ ∃ moments, s'.registry = { s.registry with clock := s.registry.clock + moments } := by
  cases m with
  | act a =>
    cases h
    exact .inl ⟨a, rfl, fun _ => rfl, fun _ => rfl⟩
  | wait moments =>
    cases h
    exact .inr (.inr ⟨moments, rfl⟩)
  | insert o =>
    obtain ⟨ho, rfl⟩ := step_insert.mp h
    exact .inr (.inl ⟨o, ho, rfl, rfl⟩)
  | start =>
    -- The parts of a tick leave the registry alone, but for collecting, which is an action.
    obtain ⟨_, rfl⟩ := step_start.mp h
    exact .inr (.inr ⟨0, rfl⟩)
  | collect =>
    obtain ⟨t, _, rfl⟩ := step_collect.mp h
    exact .inl ⟨.collect t.since, rfl, fun _ => rfl, fun _ => rfl⟩
  | publish =>
    obtain ⟨_, _, _, _, rfl⟩ := step_publish.mp h
    exact .inr (.inr ⟨0, rfl⟩)
  | finish =>
    obtain ⟨_, _, rfl⟩ := step_finish.mp h
    exact .inr (.inr ⟨0, rfl⟩)
  | make | breakOff =>
    cases h
    exact .inr (.inr ⟨0, rfl⟩)

/-- The clock does not go back, and the provider changes only when a model
is installed. -/
theorem registry_step (h : s.step texts m = some s') :
    s.registry.clock ≤ s'.registry.clock
      ∧ s.registry.provider.Becomes s'.registry.provider := by
  obtain ⟨a, hr, _⟩ | ⟨o, _, _, hr⟩ | ⟨moments, hr⟩ := registry_cases h <;> rw [hr]
  · exact ⟨Registry.clock_le_perform texts _ a, Registry.perform_provider texts _ a⟩
  · exact ⟨Nat.le_refl _, .same⟩
  · exact ⟨Nat.le_add_right _ _, .same⟩

end Overlap

/-! ### What holds at any time -/

/-- What a publisher remembers is not still to come. -/
structure Publisher.Past (p : Publisher) (r : Registry) : Prop where
  started_le : ∀ t, p.started = some t → t ≤ r.clock
  generation_le : ∀ g, p.generation = some g → g ≤ r.provider.generation

/-- What a publisher remembers stays past while the clock and the generation
go on. -/
theorem Publisher.Past.mono {p : Publisher} {r r' : Registry} (h : p.Past r)
    (hclock : r.clock ≤ r'.clock) (hprovider : r.provider.Becomes r'.provider) : p.Past r' where
  started_le t ht := Nat.le_trans (h.started_le t ht) hclock
  generation_le g hg := Nat.le_trans (h.generation_le g hg) hprovider.generation_le

/-- A tick that the publisher of a session has started. -/
structure Tick.Underway (t : Tick) (s : Session) : Prop where
  start_eq : t = s.publisher.start t.started t.generation
  past : (Publisher.finish t).Past s.registry
  /-- It is not older than what the publisher remembers. -/
  later : ∀ m, s.publisher.started = some m → m ≤ t.started
  current : s.publisher.generation = s.generation → t.generation = s.generation

/-- A tick stays under way while the clock and the generation go on. -/
theorem Tick.Underway.mono {t : Tick} {s s' : Session} (h : t.Underway s)
    (hremembered : s.publisher.Past s.registry) (hpublisher : s'.publisher = s.publisher)
    (hclock : s.registry.clock ≤ s'.registry.clock)
    (hprovider : s.registry.provider.Becomes s'.registry.provider) : t.Underway s' where
  start_eq := hpublisher ▸ h.start_eq
  past := h.past.mono hclock hprovider
  later := hpublisher ▸ h.later
  current := by
    intro hgeneration
    rw [hpublisher] at hgeneration
    -- No model was installed since, as it would have a generation of its own.
    have hsame := hprovider.eq_of_known hremembered.generation_le hgeneration
    rw [Session.generation, hsame] at hgeneration ⊢
    exact h.current hgeneration

/-- A document is put into the registry. -/
theorem Registry.Sound.put {texts : ExternalTexts} {r : Registry} (h : r.Sound texts)
    {d : Document} (hd : d.Coherent texts r.provider) (hle : d.changed ≤ r.clock) :
    (r.put d).Sound texts where
  coherent := by
    refine ⟨h.coherent.counted, fun e he => ?_⟩
    rcases mem_putDocument he with rfl | he
    · exact hd
    · exact h.coherent.documents e he
  nodup := nodup_putDocument d h.nodup
  changed_le e he := by
    rcases mem_putDocument he with rfl | he
    · exact hle
    · exact h.changed_le e he

namespace Overlap

variable {texts : ExternalTexts} {s s' : Overlap}

/-- What holds of an overlap at any time. -/
structure Sound (texts : ExternalTexts) (s : Overlap) : Prop where
  registry : s.registry.Sound texts
  moment_le : ∀ o ∈ s.opening, o.moment ≤ s.registry.clock
  remembered : s.publisher.Past s.registry
  underway : ∀ t, s.stage.tick? = some t → t.Underway s.toSession

/-- An overlap in which nothing is under way is sound. -/
theorem sound_new (texts : ExternalTexts) {p : Provider} (hp : p.Initial) :
    (Overlap.new p).Sound texts where
  registry := Registry.sound_new texts hp
  moment_le o ho := absurd ho List.not_mem_nil
  remembered := ⟨nofun, nofun⟩
  underway t ht := by cases ht

/-- A move keeps the registry sound: each one is an action, a wait, the
putting in of a document, or leaves the registry alone. -/
theorem Sound.registry_of_step (h : s.Sound texts) {m : Move} (hstep : s.step texts m = some s') :
    s'.registry.Sound texts := by
  obtain ⟨a, hr, _⟩ | ⟨o, ho, _, hr⟩ | ⟨moments, hr⟩ := registry_cases hstep <;> rw [hr]
  · exact h.registry.perform a
  · exact h.registry.put (Document.coherent_new texts _ o.uri o.text o.moment) (h.moment_le o ho)
  · exact h.registry.wait moments

/-- Moves that neither start nor end a tick. -/
theorem Sound.frame (h : s.Sound texts) {m : Move} (hstep : s.step texts m = some s')
    (hmoment : ∀ o ∈ s'.opening, o.moment ≤ s'.registry.clock)
    (hpublisher : s'.publisher = s.publisher)
    (htick : s'.stage.tick? = s.stage.tick?) : s'.Sound texts := by
  obtain ⟨hclock, hprovider⟩ := registry_step hstep
  refine ⟨h.registry_of_step hstep, hmoment, hpublisher ▸ h.remembered.mono hclock hprovider, ?_⟩
  intro t ht
  exact (h.underway t (htick ▸ ht)).mono h.remembered hpublisher hclock hprovider

/-- A move keeps an overlap sound. -/
theorem Sound.step (h : s.Sound texts) {m : Move} (hstep : s.step texts m = some s') :
    s'.Sound texts := by
  have hkept (o : Opening) (ho : o ∈ s.opening) : o.moment ≤ s'.registry.clock :=
    Nat.le_trans (h.moment_le o ho) (registry_step hstep).1
  cases m with
  | act | wait =>
    refine h.frame hstep ?_ ?_ ?_ <;> cases hstep
    · exact hkept
    · rfl
    · rfl
  | make uri text =>
    refine h.frame hstep ?_ ?_ ?_ <;> cases hstep
    · exact List.forall_mem_cons.mpr ⟨Nat.le_refl _, hkept⟩
    · rfl
    · rfl
  | insert o =>
    obtain ⟨_, rfl⟩ := step_insert.mp hstep
    exact h.frame hstep (fun e he => hkept e (List.mem_of_mem_erase he)) rfl rfl
  | start =>
    -- The generation that the tick reads is the one in use.
    obtain ⟨_, rfl⟩ := step_start.mp hstep
    refine ⟨h.registry, h.moment_le, h.remembered, ?_⟩
    rintro t ⟨⟩
    refine ⟨rfl, ⟨?_, fun g hg => ?_⟩, h.remembered.started_le, fun _ => rfl⟩
    · rintro _ ⟨⟩
      exact Nat.le_refl _
    · obtain ⟨context, hcontext, rfl⟩ := Option.map_eq_some_iff.mp hg
      exact Nat.le_of_eq (h.registry.coherent.counted context hcontext)
  | collect =>
    obtain ⟨t, hstage, rfl⟩ := step_collect.mp hstep
    exact h.frame hstep hkept rfl (congrArg Stage.tick? hstage).symm
  | publish =>
    obtain ⟨t, next, left, hstage, rfl⟩ := step_publish.mp hstep
    exact h.frame hstep hkept rfl (congrArg Stage.tick? hstage).symm
  | finish =>
    -- What the publisher remembers now is what the tick read when it started.
    obtain ⟨t, hstage, rfl⟩ := step_finish.mp hstep
    exact ⟨h.registry, h.moment_le, (h.underway t (congrArg Stage.tick? hstage)).past, nofun⟩
  | breakOff =>
    cases hstep
    exact ⟨h.registry, h.moment_le, h.remembered, nofun⟩

/-- A run keeps an overlap sound. Induction on the moves. -/
theorem Sound.run (h : s.Sound texts) {moves : List Move}
    (hrun : s.run texts moves = some s') : s'.Sound texts := by
  refine run_induction (P := fun _ s => s.Sound texts) h ?_ hrun
  intro before m between after _ hbetween _ hstep
  exact hbetween.step hstep

/-- The generation does not go back in a run. -/
theorem generation_le_run {moves : List Move} (hrun : s.run texts moves = some s') :
    s.registry.provider.generation ≤ s'.registry.provider.generation := by
  refine run_induction (P := fun _ s' => s.registry.provider.generation
    ≤ s'.registry.provider.generation) (Nat.le_refl _) ?_ hrun
  intro _ m between after _ hle _ hstep
  exact Nat.le_trans hle (registry_step hstep).2.generation_le

end Overlap

/-! ### What a move leaves as it is -/

/-- A document that is neither closed nor replaced stays, and gets no
older. -/
theorem Registry.exists_find?_perform {texts : ExternalTexts} {r : Registry} {uri : String}
    {d : Document} (h : r.Sound texts) {a : Action} (ha : a.removes uri = false)
    (hd : r.find? uri = some d) :
    ∃ e, (r.perform texts a).find? uri = some e ∧ d.changed ≤ e.changed := by
  have hmem := List.mem_of_find?_eq_some hd
  have htext := find?_perform_text texts r a uri
  rw [hd, Option.map_some] at htext
  have hsome : ((r.perform texts a).find? uri).isSome = true := by
    rw [← Option.isSome_map, htext]
    cases a with
    | openDocument u text | update u text => rw [textAfter]; split <;> rfl
    | close u => rw [textAfter, if_neg (ne_of_beq_false ha)]; rfl
    | adopt | refresh | ensureContext | request | collect => rfl
  obtain ⟨e, he⟩ := Option.isSome_iff_exists.mp hsome
  refine ⟨e, he, ?_⟩
  have hgiven := mem_perform_given h.nodup (List.mem_of_find?_eq_some he)
  generalize a.touches e.uri = touched at hgiven
  cases hgiven with
  | touched hlater _ => exact Nat.le_of_lt (Nat.lt_of_le_of_lt (h.changed_le d hmem) hlater)
  | kept hbefore hsame =>
    -- There is one document with this URI, so it is the one from before.
    obtain ⟨huri, _, hchanged⟩ := Document.given_eq_iff.mp hsame
    rw [uri_of_find? he, ← uri_of_find? hd] at huri
    obtain rfl := List.inj_on_of_nodup_map h.nodup hbefore hmem huri
    exact Nat.le_of_eq hchanged

namespace Overlap

variable {texts : ExternalTexts} {s s' : Overlap} {m : Move} {uri : String} {d : Document}

/-- A document that is neither closed nor replaced stays in the registry, and
the moment of its change does not go back. -/
theorem exists_find?_step (hs : s.Sound texts) (hstep : s.step texts m = some s')
    (hm : m.removes uri = false) (hd : s.registry.find? uri = some d) :
    ∃ e, s'.registry.find? uri = some e ∧ d.changed ≤ e.changed := by
  obtain ⟨a, hr, ha, _⟩ | ⟨o, _, rfl, hr⟩ | ⟨moments, hr⟩ := registry_cases hstep <;> rw [hr]
  · exact Registry.exists_find?_perform hs.registry ((ha uri).trans hm) hd
  · have hother : o.document.uri ≠ uri := ne_of_beq_false hm
    refine ⟨d, ?_, Nat.le_refl _⟩
    rw [Registry.find?_put, if_neg hother, hd]
  · exact ⟨d, hd, Nat.le_refl _⟩

/-- A document that a move gives no text was there before. -/
theorem exists_given_step (hs : s.Sound texts) (hstep : s.step texts m = some s')
    (hm : m.touches d.uri = false) (hd : d ∈ s'.registry.documents) :
    ∃ e ∈ s.registry.documents, e.uri = d.uri ∧ e.changed = d.changed := by
  obtain ⟨a, hr, _, ha⟩ | ⟨o, _, rfl, hr⟩ | ⟨moments, hr⟩ := registry_cases hstep <;> rw [hr] at hd
  · have hgiven := Registry.mem_perform_given hs.registry.nodup hd
    rw [ha, hm] at hgiven
    cases hgiven with
    | kept he hsame =>
      obtain ⟨huri, _, hchanged⟩ := Document.given_eq_iff.mp hsame
      exact ⟨_, he, huri, hchanged⟩
  · rcases mem_putDocument hd with rfl | hd
    · exact absurd rfl (ne_of_beq_false hm)
    · exact ⟨d, hd, rfl, rfl⟩
  · exact ⟨d, hd, rfl, rfl⟩

/-- Only a tick that finishes changes what the publisher remembers. -/
theorem publisher_step (hstep : s.step texts m = some s') (hm : m ≠ .finish) :
    s'.publisher = s.publisher := by
  cases m with
  | insert o => exact (step_insert.mp hstep).2 ▸ rfl
  | start => exact (step_start.mp hstep).2 ▸ rfl
  | collect =>
    obtain ⟨_, _, rfl⟩ := step_collect.mp hstep
    rfl
  | publish =>
    obtain ⟨_, _, _, _, rfl⟩ := step_publish.mp hstep
    rfl
  | finish => exact absurd rfl hm
  | act | wait | make | breakOff =>
    cases hstep
    rfl

end Overlap

end ConceptScript.Workspace

import ConceptScript.Script.Statement
import ConceptScript.Proofs.Script.Recognize

/-!
# `ConceptScript.Proofs.Script.Parting`: reading a stream that is cut short

Two streams have their first tokens in common. Then the first one ends and
the second one goes on. Two readers at the same place of them are
`Parallel`: the same tokens were read, and some tokens `w` are common to
both and still to come.

A reading does the same in both, or the two part (`Outcome`): the first
reading fails at its end, after all common tokens, and the second one is
at least as far. Then every common token was read as a value or as a dot,
which says that no statement ends among them. Readings are such by their
parts (`Local`), as `local_readMember` shows for members.
-/

set_option autoImplicit false

namespace ConceptScript.Script

open ConceptScript.Text
open ConceptScript.Model (TypeId Member)

/-- A token that readings can read: a value or a dot. -/
def Token.Readable (t : Token) : Prop := t.kind.isValue = true ∨ t.is "." = true

/-- A token that readings can read does not end the script. -/
theorem Token.Readable.isEnd {t : Token} (h : t.Readable) : t.isEnd = false := by
  rcases h with h | h
  · exact isEnd_of_isValue h
  · exact isEnd_of_is h

/-- Readers at the same place of a stream that ends after some tokens `w`
and of one that goes on after them. -/
structure Parallel (last : Token) (post w : List Token) (r r' : Reader) : Prop where
  before : r'.before = r.before
  rest : r.rest = w ++ [last]
  rest' : r'.rest = w ++ post

variable {last : Token} {post : List Token}

namespace Parallel

variable {w ahead read : List Token} {t : Token} {r r' s s' : Reader}

/-- With a common token ahead both readers are at this token. -/
theorem current (h : Parallel last post (t :: w) r r') : r.current = t ∧ r'.current = t := by
  rw [Reader.current, Reader.current, h.rest, h.rest']
  exact ⟨rfl, rfl⟩

/-- At the end of the first stream. -/
theorem current_nil (h : Parallel last post [] r r') : r.current = last := by
  rw [Reader.current, h.rest]
  rfl

/-- Where the second reader is follows from where the first one is. -/
theorem split (h : Parallel last post w r r') (hreads : r.Reads read s)
    (h' : Parallel last post ahead s s') : w = read ++ ahead := by
  have hrest := hreads.rest
  rw [h.rest, h'.rest, ← List.append_assoc] at hrest
  exact List.append_cancel_right hrest

/-- What the first of two parallel readers reads, the second one reads too. -/
theorem reads (h : Parallel last post w r r') (hreads : r.Reads read s)
    (h' : Parallel last post ahead s s') : r'.Reads read s' := by
  constructor
  · rw [h.rest', h'.rest', h.split hreads h', List.append_assoc]
  · rw [h'.before, hreads.before, h.before]

/-- Both readers move past a common token. -/
theorem advance (h : Parallel last post (t :: w) r r') (ht : t.isEnd = false) :
    r.Reads [t] r.advance ∧ Parallel last post w r.advance r'.advance := by
  obtain ⟨hcurrent, hcurrent'⟩ := h.current
  have hreads : r.Reads [t] r.advance := (Reader.reads_singleton ht).mpr ⟨hcurrent, rfl⟩
  have hreads' : r'.Reads [t] r'.advance := (Reader.reads_singleton ht).mpr ⟨hcurrent', rfl⟩
  refine ⟨hreads, ?_, ?_, ?_⟩
  · rw [hreads'.before, hreads.before, h.before]
  · exact List.append_cancel_left (hreads.rest.symm.trans h.rest)
  · exact List.append_cancel_left (hreads'.rest.symm.trans h.rest')

end Parallel

/-- A reader past some tokens stays past them. -/
theorem Reader.Reads.further {w past : List Token} {r s s' : Reader}
    (hreads : r.Reads (w ++ past) s) (hpast : past ≠ []) (hleads : s.LeadsTo s') :
    ∃ past', r.Reads (w ++ past') s' ∧ past' ≠ [] := by
  obtain ⟨more, hmore⟩ := hleads.exists_reads
  refine ⟨past ++ more, ?_, List.append_ne_nil_of_left_ne_nil hpast more⟩
  rw [← List.append_assoc]
  exact Reader.reads_append.mpr ⟨s, hreads, hmore⟩

/-! ### Readings -/

variable {α β : Type}

/-- What comes of a reading at parallel readers. -/
inductive Outcome (last : Token) (post w : List Token) (r r' : Reader) :
    Except Mismatch α × Reader → Except Mismatch α × Reader → Prop
  /-- Both do the same, and what they read is readable. -/
  | same {read ahead : List Token} {value : Except Mismatch α} {s s' : Reader}
      (reads : r.Reads read s) (readable : ∀ t ∈ read, t.Readable)
      (parallel : Parallel last post ahead s s') : Outcome last post w r r' (value, s) (value, s')
  /-- The first reading comes to its end and fails. The second one is as
  far, and further if it succeeds. -/
  | parted {why : Mismatch} {value : Except Mismatch α} {s s' : Reader} {past : List Token}
      (readable : ∀ t ∈ w, t.Readable) (reads : r.Reads w s) (reads' : r'.Reads (w ++ past) s')
      (further : ∀ a, value = .ok a → past ≠ []) :
      Outcome last post w r r' (.error why, s) (value, s')

/-- More of the same reading before. -/
theorem Outcome.after {w ahead read : List Token} {r r' s s' : Reader}
    {x x' : Except Mismatch α × Reader} (hreads : r.Reads read s)
    (hreadable : ∀ t ∈ read, t.Readable) (h : Parallel last post w r r')
    (h' : Parallel last post ahead s s') (hx : Outcome last post ahead s s' x x') :
    Outcome last post w r r' x x' := by
  have hreads' := h.reads hreads h'
  have hw := h.split hreads h'
  cases hx with
  | same hreads₂ hreadable₂ hparallel =>
    exact .same (Reader.reads_append.mpr ⟨s, hreads, hreads₂⟩)
      (List.forall_mem_append.mpr ⟨hreadable, hreadable₂⟩) hparallel
  | parted hreadable₂ hreads₂ hreads₂' hfurther =>
    subst hw
    refine .parted (List.forall_mem_append.mpr ⟨hreadable, hreadable₂⟩)
      (Reader.reads_append.mpr ⟨s, hreads, hreads₂⟩) ?_ hfurther
    rw [List.append_assoc]
    exact Reader.reads_append.mpr ⟨s', hreads', hreads₂'⟩

namespace Reading

/-- A reading that parallel readers do alike up to the end of the shorter
stream. -/
def Local (last : Token) (post : List Token) (p : Reading α) : Prop :=
  ∀ w r r', Parallel last post w r r' → Outcome last post w r r' (p r) (p r')

/-- A reading that looks at nothing is local. -/
theorem local_value (x : Except Mismatch α) : Local last post (fun r => (x, r)) :=
  fun _ r _ h => .same (.nil r) (fun _ ht => absurd ht List.not_mem_nil) h

/-- Reading nothing is local. -/
theorem local_pure (a : α) : Local last post (pure a : Reading α) := local_value (.ok a)

/-- Failing is local. -/
theorem local_fail (why : Mismatch) : Local last post (fail why : Reading α) :=
  local_value (.error why)

/-- Reading a text is local: it looks at one token, and at the end of the
common ones the first reader fails. -/
theorem local_textToken (hlast : last.isEnd = true) : Local last post textToken := by
  intro w r r' h
  cases w with
  | nil =>
    -- The first reader is at the end of its stream, which is no value.
    have hfirst : r.readText = (.error (.expectedText r.current), r) := by
      refine if_neg fun hvalue => ?_
      rw [h.current_nil] at hvalue
      rw [Token.isEnd_of_isValue hvalue] at hlast
      cases hlast
    show Outcome last post [] r r' r.readText r'.readText
    rw [hfirst, Reader.readText]
    split
    · next hvalue =>
      exact .parted (fun _ ht => absurd ht List.not_mem_nil) (.nil r)
        (Reader.reads_advance (Token.isEnd_of_isValue hvalue)) fun _ _ => List.cons_ne_nil _ _
    · exact .parted (fun _ ht => absurd ht List.not_mem_nil) (.nil r) (.nil r')
        fun _ ha => (by cases ha)
  | cons t w =>
    obtain ⟨hcurrent, hcurrent'⟩ := h.current
    show Outcome last post (t :: w) r r' r.readText r'.readText
    rw [Reader.readText, Reader.readText, hcurrent, hcurrent']
    split
    · next hvalue =>
      obtain ⟨hreads, hparallel⟩ := h.advance (Token.isEnd_of_isValue hvalue)
      exact .same hreads (List.forall_mem_singleton.mpr (.inl hvalue)) hparallel
    · exact local_value _ _ r r' h

/-- Reading a dot is local. -/
theorem local_dot (hlast : last.isEnd = true) (why : Mismatch) : Local last post (dot why) := by
  intro w r r' h
  cases w with
  | nil =>
    -- No common token is left: the first reader is at its end, and only the second one can read.
    have hfirst : r.tryRead "." = none := by
      rw [Reader.tryRead_eq_none_iff, h.current_nil]
      exact Token.is_eq_false_of_isEnd hlast "."
    unfold dot
    rw [hfirst]
    cases hsecond : r'.tryRead "." with
    | none =>
      exact .parted (fun _ ht => absurd ht List.not_mem_nil) (.nil r) (.nil r')
        fun _ ha => (by cases ha)
    | some s' =>
      obtain ⟨t, _, hreads⟩ := Reader.tryRead_eq_some_iff.mp hsecond
      exact .parted (fun _ ht => absurd ht List.not_mem_nil) (.nil r) hreads
        fun _ _ => List.cons_ne_nil _ _
  | cons t w =>
    -- Both readers are at the same token, which decides for both.
    obtain ⟨hcurrent, hcurrent'⟩ := h.current
    unfold dot Reader.tryRead
    rw [hcurrent, hcurrent']
    cases hdot : t.is "." with
    | true =>
      obtain ⟨hreads, hparallel⟩ := h.advance (Token.isEnd_of_is hdot)
      exact .same hreads (List.forall_mem_singleton.mpr (.inr hdot)) hparallel
    | false => exact local_value _ _ r r' h

/-- Readings after one another. Where the first one parts the readers, the
second one only moves the second reader on. -/
theorem Local.bind {p : Reading α} {q : α → Reading β} (hp : Local last post p)
    (hq : ∀ a, Local last post (q a)) (hadvancing : ∀ a, Advancing (q a)) :
    Local last post (p >>= q) := by
  intro w r r' h
  have hfirst := hp w r r' h
  show Outcome last post w r r' (andThen p q r) (andThen p q r')
  unfold andThen
  generalize p r = x at hfirst ⊢
  generalize p r' = x' at hfirst ⊢
  cases hfirst with
  | same hreads hreadable hparallel =>
    rename_i read ahead value s s'
    -- Both fail, or the second reading starts at parallel readers again.
    cases value with
    | error why => exact .same hreads hreadable hparallel
    | ok a => exact (hq a ahead s s' hparallel).after hreads hreadable h hparallel
  | parted hreadable hreads hreads' hfurther =>
    rename_i why value s s' past
    cases value with
    | error why' => exact .parted hreadable hreads hreads' fun _ ha => (by cases ha)
    | ok a =>
      -- The first reader is done, and the second one can only move on.
      obtain ⟨past', hreads₂, hpast'⟩ := hreads'.further (hfurther a rfl) (hadvancing a s')
      exact .parted hreadable hreads hreads₂ fun _ _ => hpast'

/-- Readings that only move forward are local by their parts. -/
theorem kept_local (hlast : last.isEnd = true) :
    Kept fun _ p => Local last post p ∧ Advancing p where
  pure a := ⟨local_pure a, advancing_pure a⟩
  fail _ := ⟨local_fail _, advancing_fail _⟩
  textToken := ⟨local_textToken hlast, advancing_textToken⟩
  dot _ := ⟨local_dot hlast _, advancing_dot _⟩
  bind hp hq := ⟨hp.1.bind (fun a => (hq a).1) fun a => (hq a).2, hp.2.bind fun a => (hq a).2⟩

end Reading

open Reading

/-! ### Members -/

variable {m : Model}

/-- Reading a member is local. -/
theorem local_readMember (hlast : last.isEnd = true) (c : ConceptType) (member : Member)
    (parent : Option Node) (afterReference : Bool) :
    Local last post (readMember m c member parent afterReference) :=
  ((kept_local hlast).readMember m c member parent afterReference).1

/-! ### Watched readings -/

/-- Two attempts at the same member, after the same tokens and with the
same outcome. -/
structure MemberEvent.Alike (e e' : MemberEvent) : Prop where
  type : e'.type = e.type
  index : e'.index = e.index
  value : e'.value = e.value
  before : e'.reader.before = e.reader.before

/-- A failed attempt that has read all of some tokens. -/
structure MemberEvent.FailedAt (e : MemberEvent) (type : TypeId) (r : Reader) (w : List Token) :
    Prop where
  type : e.type = type
  value : ∃ why, e.value = .error why
  reads : r.Reads w e.reader

/-- An attempt that has read all of some tokens, and more if it went well. -/
structure MemberEvent.Past (e : MemberEvent) (type : TypeId) (r : Reader) (w : List Token) :
    Prop where
  type : e.type = type
  reads : ∃ past, r.Reads (w ++ past) e.reader ∧ ∀ slot, e.value = .ok slot → past ≠ []

/-- What comes of reading members at parallel readers, with the events that
are left behind. Where the readers part, the first one leaves the failure
at its end, and the second one leaves attempts past that place. -/
inductive Watched (last : Token) (post : List Token) (type : TypeId) (w : List Token)
    (r r' : Reader) : List MemberEvent → List MemberEvent →
      Except Mismatch α × Reader → Except Mismatch α × Reader → Prop
  | same {events events' : List MemberEvent} {read ahead : List Token}
      {value : Except Mismatch α} {s s' : Reader}
      (alike : List.Forall₂ MemberEvent.Alike events events')
      (reads : r.Reads read s) (parallel : Parallel last post ahead s s') :
      Watched last post type w r r' events events' (value, s) (value, s')
  | parted {shared shared' others : List MemberEvent} {failed : MemberEvent} {why : Mismatch}
      {value : Except Mismatch α} {s s' : Reader} {past : List Token}
      (alike : List.Forall₂ MemberEvent.Alike shared shared') (failure : failed.FailedAt type r w)
      (some : others ≠ []) (beyond : ∀ e ∈ others, e.Past type r' w)
      (readable : ∀ t ∈ w, t.Readable) (reads : r.Reads w s) (reads' : r'.Reads (w ++ past) s')
      (further : ∀ a, value = .ok a → past ≠ []) :
      Watched last post type w r r' (shared ++ [failed]) (shared' ++ others)
        (.error why, s) (value, s')

namespace Watched

variable {type : TypeId} {w ahead read : List Token} {r r' s s' : Reader}
  {events events' : List MemberEvent} {x x' : Except Mismatch α × Reader}

/-- What was watched is not changed by taking the value to another one. -/
theorem map (h : Watched last post type w r r' events events' x x') (f : α → β) :
    Watched last post type w r r' events events' (x.1.map f, x.2) (x'.1.map f, x'.2) := by
  cases h with
  | same halike hreads hparallel => exact .same halike hreads hparallel
  | parted halike hfailed hsome hothers hreadable hreads hreads' hfurther =>
    refine .parted halike hfailed hsome hothers hreadable hreads hreads' fun b hb => ?_
    obtain ⟨a, ha, _⟩ := map_eq_ok_iff.mp hb
    exact hfurther a ha

/-- Attempts that are alike can come in front of what is watched. -/
theorem cons {e e' : MemberEvent} (he : e.Alike e')
    (h : Watched last post type w r r' events events' x x') :
    Watched last post type w r r' (e :: events) (e' :: events') x x' := by
  cases h with
  | same halike hreads hparallel => exact .same (.cons he halike) hreads hparallel
  | parted halike hfailed hsome hothers hreadable hreads hreads' hfurther =>
    rw [← List.cons_append, ← List.cons_append]
    exact .parted (.cons he halike) hfailed hsome hothers hreadable hreads hreads' hfurther

/-- Something was read before, alike in both. -/
theorem after (hreads : r.Reads read s) (hreadable : ∀ t ∈ read, t.Readable)
    (h : Parallel last post w r r') (h' : Parallel last post ahead s s')
    (hx : Watched last post type ahead s s' events events' x x') :
    Watched last post type w r r' events events' x x' := by
  have hreads' := h.reads hreads h'
  have hw := h.split hreads h'
  cases hx with
  | same halike hreads₂ hparallel =>
    exact .same halike (Reader.reads_append.mpr ⟨s, hreads, hreads₂⟩) hparallel
  | parted halike hfailed hsome hothers hreadable₂ hreads₂ hreads₂' hfurther =>
    -- What was read before is put in front of what the attempts have read.
    subst hw
    refine .parted halike ⟨hfailed.type, hfailed.value, ?_⟩ hsome (fun e he => ?_)
      (List.forall_mem_append.mpr ⟨hreadable, hreadable₂⟩)
      (Reader.reads_append.mpr ⟨s, hreads, hreads₂⟩) ?_ hfurther
    · exact Reader.reads_append.mpr ⟨s, hreads, hfailed.reads⟩
    · obtain ⟨htype, past, hpast, hok⟩ := hothers e he
      refine ⟨htype, past, ?_, hok⟩
      rw [List.append_assoc]
      exact Reader.reads_append.mpr ⟨s', hreads', hpast⟩
    · rw [List.append_assoc]
      exact Reader.reads_append.mpr ⟨s', hreads', hreads₂'⟩

/-- Both results agree, or the first reading failed at its end. -/
theorem agree_or_parted {value value' : Except Mismatch α}
    (h : Watched last post type w r r' events events' (value, s) (value', s')) :
    (value' = value ∧ ∃ read ahead, r.Reads read s ∧ Parallel last post ahead s s') ∨
      ((∀ t ∈ w, t.Readable) ∧ (∃ why, value = .error why) ∧ ∃ past, r'.Reads (w ++ past) s') := by
  cases h with
  | same _ hreads hparallel => exact .inl ⟨rfl, _, _, hreads, hparallel⟩
  | parted _ _ _ _ hreadable _ hreads' _ => exact .inr ⟨hreadable, ⟨_, rfl⟩, _, hreads'⟩

end Watched

/-- Attempts at members are about their type, and come after where reading
starts. -/
theorem mem_events_readMembers {c : ConceptType} {context : List Node} {afterReference : Bool}
    {index : Nat} {members : List Member} {r : Reader} {e : MemberEvent}
    (h : e ∈ (readMembers m c context.head? afterReference index members r).events) :
    e.type = c.id ∧ r.LeadsTo e.reader := by
  induction members generalizing afterReference index r with
  | nil => exact absurd h List.not_mem_nil
  | cons member rest ih =>
    cases hparsable : member.isParsable with
    | false =>
      rw [readMembers_unparsable hparsable] at h
      exact ih h
    | true =>
      have hleads := advancing_readMember m c member (nestedFor c context index) afterReference r
      cases hstep : readMember m c member (nestedFor c context index) afterReference r with
      | mk value s =>
        rw [hstep] at hleads
        cases value with
        | error why =>
          rw [readMembers_error hparsable hstep] at h
          rw [List.mem_singleton.mp h]
          exact ⟨rfl, hleads⟩
        | ok v =>
          rw [readMembers_ok hparsable hstep] at h
          rcases List.mem_cons.mp h with rfl | hmem
          · exact ⟨rfl, hleads⟩
          · obtain ⟨htype, hleads'⟩ := ih hmem
            exact ⟨htype, hleads.trans hleads'⟩

/-- Reading members at parallel readers shows attempts that are alike up to
where they part. Induction on the members. -/
theorem watched_readMembers (hlast : last.isEnd = true) (c : ConceptType) (context : List Node)
    (afterReference : Bool) (index : Nat) (members : List Member) {w : List Token}
    {r r' : Reader} (h : Parallel last post w r r') :
    Watched last post c.id w r r'
      (readMembers m c context.head? afterReference index members r).events
      (readMembers m c context.head? afterReference index members r').events
      ((readMembers m c context.head? afterReference index members r).result,
        (readMembers m c context.head? afterReference index members r).reader)
      ((readMembers m c context.head? afterReference index members r').result,
        (readMembers m c context.head? afterReference index members r').reader) := by
  -- Up to where the readers part, each member is tried at parallel readers.
  induction members generalizing afterReference index w r r' with
  | nil => exact .same .nil (.nil r) h
  | cons member rest ih =>
    cases hparsable : member.isParsable with
    | false =>
      rw [readMembers_unparsable hparsable, readMembers_unparsable hparsable]
      exact (ih afterReference (index + 1) h).map (.empty :: ·)
    | true =>
      have hread : Outcome last post w r r'
          (readMember m c member (nestedFor c context index) afterReference r)
          (readMember m c member (nestedFor c context index) afterReference r') :=
        local_readMember hlast c member (nestedFor c context index) afterReference w r r' h
      generalize hstep : readMember m c member (nestedFor c context index) afterReference r = x
        at hread
      generalize hstep' : readMember m c member (nestedFor c context index) afterReference r' = x'
        at hread
      cases hread with
      | same hreads hreadable hparallel =>
        rename_i read ahead value s s'
        cases value with
        | error why =>
          rw [readMembers_error hparsable hstep, readMembers_error hparsable hstep']
          exact .same (.cons ⟨rfl, rfl, rfl, hparallel.before⟩ .nil) hreads hparallel
        | ok v =>
          rw [readMembers_ok hparsable hstep, readMembers_ok hparsable hstep']
          have halike : MemberEvent.Alike ⟨s, c.id, index, .ok v.1⟩ ⟨s', c.id, index, .ok v.1⟩ :=
            ⟨rfl, rfl, rfl, hparallel.before⟩
          have hrest := (ih v.2 (index + 1) hparallel).map (v.1 :: ·)
          exact (hrest.cons halike).after hreads hreadable h hparallel
      | parted hreadable hreads hreads' hfurther =>
        rename_i why value s s' past
        rw [readMembers_error hparsable hstep]
        have hfailed : MemberEvent.FailedAt ⟨s, c.id, index, .error why⟩ c.id r w :=
          ⟨rfl, ⟨why, rfl⟩, hreads⟩
        cases value with
        | error why' =>
          rw [readMembers_error hparsable hstep']
          exact .parted .nil hfailed (List.cons_ne_nil _ _)
            (List.forall_mem_singleton.mpr ⟨rfl, past, hreads', fun _ hv => (by cases hv)⟩)
            hreadable hreads hreads' fun _ hv => (by cases hv)
        | ok v =>
          rw [readMembers_ok hparsable hstep']
          have hpast : past ≠ [] := hfurther v rfl
          -- Whatever the second reader does from here on is further still.
          obtain ⟨past', hreads₂, hpast'⟩ := hreads'.further hpast
            (leadsTo_readMembers m c context.head? v.2 (index + 1) rest s')
          refine .parted .nil hfailed (List.cons_ne_nil _ _) (List.forall_mem_cons.mpr ⟨?_, ?_⟩)
            hreadable hreads hreads₂ fun _ _ => hpast'
          · exact ⟨rfl, past, hreads', fun _ _ => hpast⟩
          · intro e he
            obtain ⟨htype, hleads⟩ := mem_events_readMembers he
            obtain ⟨past₂, hreads₃, hpast₂⟩ := hreads'.further hpast hleads
            exact ⟨htype, past₂, hreads₃, fun _ _ => hpast₂⟩

/-- Reading a statement as a type at parallel readers is watched in the same
way: the keyword is a common token. -/
theorem watched_interpret (hlast : last.isEnd = true) (c : ConceptType) (context : List Node)
    {t : Token} {w : List Token} {r r' : Reader} (h : Parallel last post (t :: w) r r') :
    Watched last post c.id (t :: w) r r' (interpret m context c r).events
      (interpret m context c r').events
      ((interpret m context c r).result, (interpret m context c r).reader)
      ((interpret m context c r').result, (interpret m context c r').reader) := by
  obtain ⟨hcurrent, hcurrent'⟩ := h.current
  unfold interpret Reader.tryReadKeyword
  rw [hcurrent, hcurrent']
  by_cases hkeyword : t.kind = .word ∧ sameIgnoringAsciiCase t.value c.shownName = true
  · rw [if_pos hkeyword, if_pos hkeyword]
    obtain ⟨hreads, hparallel⟩ := h.advance (Token.isEnd_of_word hkeyword.1)
    have hvalue : t.kind.isValue = true := by
      rw [hkeyword.1]
      rfl
    have hmembers :=
      (watched_readMembers (m := m) hlast c context false 0 c.members hparallel).map (Node.mk c.id)
    exact hmembers.after hreads (List.forall_mem_singleton.mpr (.inl hvalue)) h hparallel
  · -- The word is not the keyword of the type, in neither stream.
    rw [if_neg hkeyword, if_neg hkeyword]
    exact .same .nil (.nil r) h

end ConceptScript.Script

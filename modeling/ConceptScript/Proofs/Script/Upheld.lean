import ConceptScript.Proofs.Script.Blocks
import ConceptScript.Proofs.Script.Recognize

/-!
# `ConceptScript.Proofs.Script.Upheld`: what holds all through a parse

A parse looks at many readers, tries many types and builds many concepts,
and most of them are gone when it is done. To say of all of them that
something holds takes a property of readers, one of mismatches and one of
concepts, and that each part of a statement keeps them (`Upheld`).

Then they hold of all that a parse shows: of the readers and concepts in
its events, and of the place and the reason of its failure (`Event.Sound`,
`Failure.Sound`). This is `Upheld.parse`.
-/

set_option autoImplicit false

namespace ConceptScript.Script

open ConceptScript.Model (TypeId Member)

/-- Properties that reading a statement keeps: `Q` of readers, `P` of
mismatches and `N` of concepts. -/
structure Upheld (m : Model) (Q : Reader → Prop) (P : Mismatch → Prop) (N : Node → Prop) :
    Prop where
  advance : ∀ r, Q r → Q r.advance
  keyword : ∀ keyword, P (.expectedKeyword keyword)
  member : ∀ c ∈ m.types, ∀ member ∈ c.members, ∀ parent afterReference,
    Reading.FailsFor P (readMember m c member parent afterReference)
  node : ∀ c ∈ m.types, ∀ context r n, (∀ outer ∈ context, N outer) →
    (interpret m context c r).result = .ok n → N n

variable {m : Model} {Q : Reader → Prop} {P : Mismatch → Prop} {N : Node → Prop}
  {context : List Node} {r : Reader}

/-- The properties hold of an attempt to read a member, which is one of a
type of the model. -/
structure MemberEvent.Sound (m : Model) (Q : Reader → Prop) (P : Mismatch → Prop)
    (e : MemberEvent) : Prop where
  reader : Q e.reader
  type : ∃ c ∈ m.types, e.type = c.id
  why : ∀ why, e.value = .error why → P why

/-- The properties hold of an event. -/
def Event.Sound (m : Model) (Q : Reader → Prop) (P : Mismatch → Prop) (N : Node → Prop) :
    Event → Prop
  | .statement r => Q r
  | .member e => e.Sound m Q P
  | .block r context _ => Q r ∧ ∀ n ∈ context, N n

/-- The properties hold of a fault: its reason is one of these mismatches,
and the concepts that it names are of these. -/
def Fault.Sound (m : Model) (P : Mismatch → Prop) (N : Node → Prop) : Fault → Prop
  | .noInterpretation _ why => P why
  | .unclosedBlock concept => ∃ n, N n ∧ concept = n.describe m
  | .expectedTerminator concept _ => ∃ n, N n ∧ concept = n.describe m
  | .ambiguous _ typeNames =>
    ∀ typeName ∈ typeNames, ∃ n, N n ∧ typeName = (m.typeAt n.type).typeName
  | _ => True

/-- The properties hold of a failure, which is where a reader stands. -/
structure Failure.Sound (m : Model) (Q : Reader → Prop) (P : Mismatch → Prop) (N : Node → Prop)
    (f : Failure) : Prop where
  place : ∃ r, Q r ∧ r.position = f.index
  fault : f.fault.Sound m P N

/-- What was asked for holds of a result, or the properties hold of the
failure. -/
def SoundResult {α : Type} (m : Model) (Q : Reader → Prop) (P : Mismatch → Prop) (N : Node → Prop)
    (good : α → Prop) : Except Failure α → Prop
  | .ok a => good a
  | .error f => f.Sound m Q P N

/-- The properties hold of what a part of a statement shows and comes to:
the concepts and the reader with which reading goes on. -/
structure SoundStep {α : Type} (m : Model) (Q : Reader → Prop) (P : Mismatch → Prop)
    (N : Node → Prop) (good : α → Prop) (x : List Event × Except Failure (α × Reader)) : Prop where
  events : ∀ e ∈ x.1, e.Sound m Q P N
  result : SoundResult m Q P N (fun (a, r) => good a ∧ Q r) x.2

/-! ### Members -/

/-- Reading a special token keeps what going on by one token keeps. -/
theorem tryRead_upheld (hadvance : ∀ r, Q r → Q r.advance) {r' : Reader} {text : String}
    (hr : Q r) (h : r.tryRead text = some r') : Q r' := by
  unfold Reader.tryRead at h
  split at h
  · cases h
    exact hadvance r hr
  · cases h

/-- What is kept by moving past a token is kept by readings. -/
theorem kept_of_advance (hadvance : ∀ r, Q r → Q r.advance) :
    Reading.Kept fun _ p => ∀ r, Q r → Q (p r).2 where
  pure _ _ hr := hr
  fail _ _ hr := hr
  textToken r hr := by
    show Q r.readText.2
    unfold Reader.readText
    split
    · exact hadvance r hr
    · exact hr
  dot _ r hr := by
    unfold Reading.dot
    split
    · next hread => exact tryRead_upheld hadvance hr hread
    · exact hr
  bind {_ _ p q} hp hq r hr := by
    show Q (Reading.andThen p q r).2
    have hfirst := hp r hr
    unfold Reading.andThen
    split
    · next a r' h =>
      rw [h] at hfirst
      exact hq a r' hfirst
    · next why r' h =>
      rw [h] at hfirst
      exact hfirst

/-- The properties hold of what came of reading some members. -/
structure MembersRead.Sound (m : Model) (Q : Reader → Prop) (P : Mismatch → Prop)
    (x : MembersRead) : Prop where
  events : ∀ e ∈ x.events, e.Sound m Q P
  why : ∀ why, x.result = .error why → P why
  reader : Q x.reader

/-- A result whose value was changed fails just as it did. -/
theorem error_of_map_eq_error {ε α β : Type} {x : Except ε α} {f : α → β} {why : ε}
    (h : x.map f = .error why) : x = .error why := by
  cases x with
  | ok a => cases h
  | error why' => exact congrArg Except.error (Except.error.inj h)

/-- Reading members of a type shows and comes to sound things. Induction on
the members. -/
theorem Upheld.readMembers (h : Upheld m Q P N) {c : ConceptType} (hc : c ∈ m.types)
    (context : List Node) {members : List Member}
    (hmembers : ∀ member ∈ members, member ∈ c.members) (afterReference : Bool) (index : Nat)
    (hr : Q r) :
    (Script.readMembers m c context.head? afterReference index members r).Sound m Q P := by
  induction members generalizing afterReference index r with
  | nil => exact ⟨fun _ he => absurd he List.not_mem_nil, fun _ hwhy => (by cases hwhy), hr⟩
  | cons member rest ih =>
    obtain ⟨hmember, hrest⟩ := List.forall_mem_cons.mp hmembers
    cases hparsable : member.isParsable with
    | false =>
      have hothers := ih hrest afterReference (index + 1) hr
      rw [readMembers_unparsable hparsable]
      exact ⟨hothers.events, fun why hwhy => hothers.why why (error_of_map_eq_error hwhy),
        hothers.reader⟩
    | true =>
      have hreader := (kept_of_advance h.advance).readMember m c member
        (nestedFor c context index) afterReference r hr
      have hfails := h.member c hc member hmember (nestedFor c context index) afterReference r
      cases hread : readMember m c member (nestedFor c context index) afterReference r with
      | mk result r' =>
        -- The attempt is sound either way; what is left is the end of the reading.
        rw [hread] at hreader hfails
        cases result with
        | error why =>
          have hwhy : ∀ why', Except.error (α := Slot) why = .error why' → P why' :=
            fun _ heq => Except.error.inj heq ▸ hfails why rfl
          rw [readMembers_error hparsable hread]
          exact ⟨List.forall_mem_singleton.mpr ⟨hreader, ⟨c, hc, rfl⟩, hwhy⟩,
            fun _ heq => Except.error.inj heq ▸ hfails why rfl, hreader⟩
        | ok value =>
          have hothers := ih hrest value.2 (index + 1) hreader
          rw [readMembers_ok hparsable hread]
          exact ⟨List.forall_mem_cons.mpr
              ⟨⟨hreader, ⟨c, hc, rfl⟩, fun _ heq => (by cases heq)⟩, hothers.events⟩,
            fun why hwhy => hothers.why why (error_of_map_eq_error hwhy), hothers.reader⟩

/-! ### Heads -/

/-- The properties hold of a statement read as a type. -/
structure Interpretation.Sound (m : Model) (Q : Reader → Prop) (P : Mismatch → Prop)
    (N : Node → Prop) (i : Interpretation) : Prop where
  events : ∀ e ∈ i.events, e.Sound m Q P
  node : ∀ n, i.result = .ok n → N n
  why : ∀ why, i.result = .error why → P why
  reader : Q i.reader

/-- A statement read as a type is sound. -/
theorem Upheld.interpret (h : Upheld m Q P N) {c : ConceptType} (hc : c ∈ m.types)
    (hcontext : ∀ outer ∈ context, N outer) (hr : Q r) :
    (interpret m context c r).Sound m Q P N := by
  have hnode := fun n => h.node c hc context r n hcontext
  unfold Script.interpret at hnode ⊢
  split
  · exact ⟨fun _ he => absurd he List.not_mem_nil, fun _ hn => (by cases hn),
      fun _ heq => Except.error.inj heq ▸ h.keyword c.shownName, hr⟩
  · next r' hkeyword =>
    have hr' : Q r' := by
      unfold Reader.tryReadKeyword at hkeyword
      split at hkeyword
      · cases hkeyword
        exact h.advance r hr
      · cases hkeyword
    rw [hkeyword] at hnode
    have hmembers := h.readMembers hc context (fun _ hmember => hmember) false 0 hr'
    exact ⟨hmembers.events, hnode,
      fun why hwhy => hmembers.why why (error_of_map_eq_error hwhy), hmembers.reader⟩

/-- The failure that is chosen to be told is one of sound interpretations, at
the place of a reader. -/
theorem sound_of_furthest? {all : List Interpretation} (hall : ∀ i ∈ all, i.Sound m Q P N)
    {why : Mismatch} {place : Nat} (h : furthest? all = some (why, place)) :
    P why ∧ ∃ r, Q r ∧ r.position = place := by
  induction all with
  | nil => cases h
  | cons i rest ih =>
    obtain ⟨hfirst, hrest⟩ := List.forall_mem_cons.mp hall
    rw [furthest?] at h
    split at h
    · exact ih hrest h
    · next hresult _ =>
      cases h
      exact ⟨hfirst.why _ hresult, i.reader, hfirst.reader, rfl⟩
    · next hresult hother =>
      split at h
      · cases h
        exact ih hrest hother
      · cases h
        exact ⟨hfirst.why _ hresult, i.reader, hfirst.reader, rfl⟩

/-- A choice between sound interpretations is sound: what is chosen, and also
the failure if none can be. -/
theorem sound_choose {all : List Interpretation} (hall : ∀ i ∈ all, i.Sound m Q P N)
    (word : String) (hr : Q r) :
    SoundResult m Q P N (fun (n, r') => N n ∧ Q r') (choose m word r.position all) := by
  have hsuccess : ∀ n r', (n, r') ∈ successes all → N n ∧ Q r' := by
    intro n r' hbest
    obtain ⟨i, hi, hresult, rfl⟩ := mem_successes hbest
    exact ⟨(hall i hi).node n hresult, (hall i hi).reader⟩
  cases hchosen : choose m word r.position all with
  | ok best => exact hsuccess best.1 best.2 (choose_mem_successes hchosen)
  | error f =>
    unfold choose at hchosen
    dsimp only at hchosen
    split at hchosen
    · split at hchosen
      · cases hchosen
      · -- Several read the most, and the fault names the types of what they read.
        cases hchosen
        refine ⟨⟨r, hr, rfl⟩, fun typeName hname => ?_⟩
        obtain ⟨⟨n, r'⟩, hn, rfl⟩ := List.mem_map.mp hname
        exact ⟨n, (hsuccess n r' (List.mem_of_mem_filter hn)).1, rfl⟩
    · split at hchosen
      · next why place hfurthest =>
        cases hchosen
        obtain ⟨hwhy, hplace⟩ := sound_of_furthest? hall hfurthest
        exact ⟨hplace, hwhy⟩
      · cases hchosen
        exact ⟨⟨r, hr, rfl⟩, trivial⟩

/-- Reading a statement is sound. -/
theorem Upheld.readStatement (h : Upheld m Q P N) (hcontext : ∀ outer ∈ context, N outer)
    (hr : Q r) : SoundStep m Q P N N (readStatement m context r) := by
  have hstart : Event.Sound m Q P N (.statement r) := hr
  unfold Script.readStatement
  dsimp only
  split
  · exact ⟨List.forall_mem_singleton.mpr hstart, ⟨r, hr, rfl⟩, trivial⟩
  · split
    · exact ⟨List.forall_mem_singleton.mpr hstart, ⟨r, hr, rfl⟩, trivial⟩
    · next word _ =>
      have hall : ∀ i ∈ interpretations m context word r, i.Sound m Q P N := by
        intro i hi
        obtain ⟨c, hc, rfl⟩ := List.mem_map.mp hi
        exact h.interpret (List.mem_of_mem_filter hc) hcontext hr
      refine ⟨List.forall_mem_cons.mpr ⟨hstart, fun e he => ?_⟩, sound_choose hall word hr⟩
      obtain ⟨attempt, hattempt, rfl⟩ := List.mem_map.mp he
      obtain ⟨i, hi, hattempt⟩ := List.mem_flatMap.mp hattempt
      exact (hall i hi).events attempt hattempt

/-! ### Blocks and ends of statements -/

/-- Closing blocks is sound. -/
theorem Upheld.closeBlocks (h : Upheld m Q P N) (hcontext : ∀ outer ∈ context, N outer)
    (hr : Q r) : SoundStep m Q P N (fun context' => ∀ n ∈ context', N n)
      (closeBlocks context r) := by
  induction context generalizing r with
  | nil =>
    unfold Script.closeBlocks
    split
    · exact ⟨fun _ he => absurd he List.not_mem_nil, hcontext, hr⟩
    · exact ⟨fun _ he => absurd he List.not_mem_nil, ⟨r, hr, rfl⟩, trivial⟩
  | cons n outer ih =>
    unfold Script.closeBlocks
    split
    · exact ⟨fun _ he => absurd he List.not_mem_nil, hcontext, hr⟩
    · next r' hread =>
      have hr' := tryRead_upheld h.advance hr hread
      have houter := (List.forall_mem_cons.mp hcontext).2
      have hothers := ih houter hr'
      exact ⟨List.forall_mem_cons.mpr ⟨⟨hr', houter⟩, hothers.events⟩, hothers.result⟩

/-- The end of a statement is sound. -/
theorem Upheld.endStatement (h : Upheld m Q P N) {n : Node} (hn : N n)
    (hcontext : ∀ outer ∈ context, N outer) (hr : Q r) :
    SoundStep m Q P N (fun context' => ∀ n' ∈ context', N n') (endStatement m n context r) := by
  unfold Script.endStatement
  split
  · next r' hread =>
    have hr' := tryRead_upheld h.advance hr hread
    have hinner := List.forall_mem_cons.mpr ⟨hn, hcontext⟩
    have hblocks := h.closeBlocks hinner hr'
    exact ⟨List.forall_mem_cons.mpr ⟨⟨hr', hinner⟩, hblocks.events⟩, hblocks.result⟩
  · split
    · next r' hread => exact h.closeBlocks hcontext (tryRead_upheld h.advance hr hread)
    · exact ⟨fun _ he => absurd he List.not_mem_nil, ⟨r, hr, rfl⟩, n, hn, rfl⟩

/-! ### Scripts -/

/-- The properties hold of all events of a parse, and of the concepts that it
gives or the failure that ended it. -/
theorem Upheld.parseFrom (h : Upheld m Q P N) (hcontext : ∀ outer ∈ context, N outer)
    (hr : Q r) : (∀ e ∈ (Script.parseFrom m context r).events, e.Sound m Q P N)
      ∧ SoundResult m Q P N (fun nodes => ∀ n ∈ nodes, N n)
        (Script.parseFrom m context r).result := by
  fun_induction Script.parseFrom m context r with
  | case1 r hend =>
    exact ⟨fun _ he => absurd he List.not_mem_nil, fun _ hn => absurd hn List.not_mem_nil⟩
  | case2 r hend node outer =>
    exact ⟨fun _ he => absurd he List.not_mem_nil, ⟨r, hr, rfl⟩, node,
      hcontext node List.mem_cons_self, rfl⟩
  | case3 context r hend events failure hread =>
    have hstep := h.readStatement hcontext hr
    rw [hread] at hstep
    exact ⟨hstep.events, hstep.result⟩
  | case4 context r hend events n afterHead hread closing failure hending =>
    -- The statement was read, but does not end.
    have hhead := h.readStatement hcontext hr
    rw [hread] at hhead
    have hend := h.endStatement hhead.result.1 hcontext hhead.result.2
    rw [hending] at hend
    exact ⟨List.forall_mem_append.mpr ⟨hhead.events, hend.events⟩, hend.result⟩
  | case5 context r hend events n afterHead hread closing context' next hending parsed ih =>
    -- The statement ends, and reading goes on from a reader that is sound again.
    have hhead := h.readStatement hcontext hr
    rw [hread] at hhead
    have hend := h.endStatement hhead.result.1 hcontext hhead.result.2
    rw [hending] at hend
    obtain ⟨hevents, hresult⟩ := ih hend.result.1 hend.result.2
    refine ⟨List.forall_mem_append.mpr
      ⟨List.forall_mem_append.mpr ⟨hhead.events, hend.events⟩, hevents⟩, ?_⟩
    cases hparsed : parsed.result with
    | ok nodes =>
      rw [hparsed] at hresult
      exact List.forall_mem_cons.mpr ⟨hhead.result.1, hresult⟩
    | error f =>
      rw [hparsed] at hresult
      exact hresult

/-- The same of a script, which is read outside of all blocks. -/
theorem Upheld.parse (h : Upheld m Q P N) {tokens : List Token} (hr : Q (.ofTokens tokens)) :
    (∀ e ∈ (Script.parse m tokens).events, e.Sound m Q P N)
      ∧ SoundResult m Q P N (fun nodes => ∀ n ∈ nodes, N n) (Script.parse m tokens).result :=
  h.parseFrom (fun _ houter => absurd houter List.not_mem_nil) hr

/-! ### Readers on the tokens of a script -/

/-- A reader on some tokens that has not come past the end of the script. -/
structure Reader.On (tokens : List Token) (r : Reader) : Prop where
  tokens_eq : r.tokens = tokens
  ends : ∃ body last, r.rest = body ++ [last] ∧ last.isEnd = true

/-- A reader starts on its tokens. -/
theorem Reader.on_ofTokens {tokens : List Token} {last : Token} (hlast : last.isEnd = true) :
    (Reader.ofTokens (tokens ++ [last])).On (tokens ++ [last]) :=
  ⟨rfl, tokens, last, rfl, hlast⟩

/-- A reader stays on its tokens when it goes on: it does not pass the end. -/
theorem Reader.On.advance {tokens : List Token} (h : r.On tokens) : r.advance.On tokens := by
  obtain ⟨body, last, hrest, hlast⟩ := h.ends
  cases hend : r.current.isEnd with
  | true =>
    -- At the end a reader stays.
    have hsame : r.advance = r := by
      rw [Reader.current, hrest] at hend
      unfold Reader.advance
      rw [hrest]
      cases body with
      | nil => exact if_pos hend
      | cons t body => exact if_pos hend
    rwa [hsame]
  | false =>
    have hreads := Reader.reads_advance hend
    refine ⟨?_, ?_⟩
    · rw [← h.tokens_eq, Reader.tokens, Reader.tokens, hreads.before, hreads.rest]
      simp
    · cases body with
      | nil =>
        rw [Reader.current_of_rest hrest, hlast] at hend
        cases hend
      | cons t body =>
        exact ⟨body, last, (List.cons.inj (hreads.rest.symm.trans hrest)).2, hlast⟩

/-- The token at the position of a reader is the next one. -/
theorem Reader.On.getElem?_position {tokens : List Token} (h : r.On tokens) :
    tokens[r.position]? = some r.current := by
  obtain ⟨body, last, hrest, _⟩ := h.ends
  rw [← h.tokens_eq, Reader.tokens, Reader.position, ← List.length_reverse,
    List.getElem?_append_right (Nat.le_refl _), Nat.sub_self, Reader.current, hrest]
  cases body <;> rfl

/-- The place where a parse fails is one of its tokens. -/
theorem getD_index_mem {tokens : List Token} {last : Token} (hlast : last.isEnd = true)
    {f : Failure} (h : (parse m (tokens ++ [last])).result = .error f) :
    (tokens ++ [last]).getD f.index (.endAt 0) ∈ tokens ++ [last] := by
  have hupheld : Upheld m (Reader.On (tokens ++ [last])) (fun _ => True) fun _ => True :=
    ⟨fun _ => Reader.On.advance, fun _ => trivial, fun _ _ _ _ _ _ _ _ _ => trivial,
      fun _ _ _ _ _ _ _ => trivial⟩
  have hsound := (hupheld.parse (Reader.on_ofTokens hlast)).2
  rw [h] at hsound
  obtain ⟨r, hr, hindex⟩ := hsound.place
  have hcurrent := hr.getElem?_position
  rw [hindex] at hcurrent
  rw [List.getD_eq_getElem?_getD, hcurrent]
  exact List.mem_of_getElem? hcurrent

end ConceptScript.Script

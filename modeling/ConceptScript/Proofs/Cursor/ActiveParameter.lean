import ConceptScript.Proofs.Cursor.PossibleTypes
import ConceptScript.Proofs.Model.Signature
import ConceptScript.Proofs.Script.Derivation

/-!
# `ConceptScript.Proofs.Cursor.ActiveParameter`: the parameter at a cursor

The parameter that is active for a type is told by the token and the member
that were read last for it (`activeParameter_of_lookup`). These come from the
statement that the last word at or before the cursor starts, which was read
as this type (`LastStatement`, `ReadFor`): attempts follow the statement that
they are about (`Tried`), and a tracker drops what it keeps whenever the next
word starts one (`Tracker.Follows`).

`activeParameter_of_lastRead` then tells the active parameter. Whether it is
the member read last or the one after it depends on the cursor, and on
whether the token is spelled like the keyword. The keyword of the statement
itself always is. So may be a name, and then the cursor counts as past it
while it still touches it (`activeParameter_of_name_like_keyword`).
-/

set_option autoImplicit false

namespace ConceptScript.Cursor

open ConceptScript.Text
open ConceptScript.Script
open ConceptScript.Files (FilePath)
open ConceptScript.Model (TypeId)

/-! ### The parameter after what was read last -/

/-- A parsable member has a place among the parsable members. -/
theorem exists_parsablePlace {c : ConceptType} {index : Nat}
    (h : ∃ member, (member, index) ∈ c.parsableMembers) :
    ∃ place, c.parsablePlace index = some place ∧ place < c.parsableMembers.length := by
  obtain ⟨member, hmember⟩ := h
  obtain ⟨place, hplace, hat⟩ := ConceptType.parsablePlace_of_mem hmember
  exact ⟨place, hplace, (List.getElem?_eq_some_iff.mp hat).1⟩

variable {m : Model}

/-- What is looked up for a type is among what was kept. -/
theorem mem_of_lookup {type : TypeId} {last : LastRead} {entries : List (TypeId × LastRead)}
    (h : entries.lookup type = some last) : (type, last) ∈ entries := by
  obtain ⟨before, after, hsplit, _⟩ := List.lookup_eq_some_iff.mp h
  exact hsplit ▸ List.mem_append_cons_self

/-- The active parameter after a read member is the next one, unless that
member is still being typed: the cursor touches its token, which is not the
keyword. -/
theorem activeParameter_of_lookup {a : Analysis} {c : ConceptType} {last : LastRead}
    {place : Nat} (htype : m.typeAt c.id = c) (hlookup : a.lastRead.lookup c.id = some last)
    (hplace : c.parsablePlace last.member = some place) :
    a.activeParameter m c.id =
      if c.hasKeyword last.token.value || !last.token.touches a.target then place + 1
      else place := by
  rw [Analysis.activeParameter, hlookup]
  dsimp only
  rw [htype, hplace, Option.getD_some]

/-- The active parameter of a type is one of its parameters or the place
after them, if the member read last is one of its parsable members. -/
theorem activeParameter_le {a : Analysis} {c : ConceptType} (htype : m.typeAt c.id = c)
    (hread : ∀ entry ∈ a.lastRead, entry.1 = c.id →
      ∃ member, (member, entry.2.member) ∈ c.parsableMembers) :
    a.activeParameter m c.id ≤ (m.parameters c).length := by
  cases hlookup : a.lastRead.lookup c.id with
  | none =>
    rw [Analysis.activeParameter, hlookup]
    exact Nat.zero_le _
  | some last =>
    obtain ⟨place, hplace, hlt⟩ := exists_parsablePlace (hread _ (mem_of_lookup hlookup) rfl)
    rw [activeParameter_of_lookup htype hlookup hplace, Model.parameters, List.length_map]
    split
    · exact hlt
    · exact Nat.le_of_lt hlt

variable {events : List Event}

/-! ### Attempts follow their statement -/

/-- Events in which attempts come after the start of the statement that they
are about, before any block. The statement is told if one was started
before. -/
inductive Tried (m : Model) : Option Reader → List Event → Prop
  | nil {head : Option Reader} : Tried m head []
  | statement {head : Option Reader} {r : Reader} {events : List Event}
      (rest : Tried m (some r) events) : Tried m head (.statement r :: events)
  | member {s : Reader} {context : List Node} {c : ConceptType} {e : MemberEvent}
      {events : List Event} (mem : c ∈ m.byKeyword s.current.value)
      (attempt : e ∈ (interpret m context c s).events) (rest : Tried m (some s) events) :
      Tried m (some s) (.member e :: events)
  | block {head : Option Reader} {r : Reader} {context : List Node} {opening : Bool}
      {events : List Event} (rest : Tried m none events) :
      Tried m head (.block r context opening :: events)

/-- Attempts after other attempts. The second part may come after any
statement, because the first part can start one. -/
theorem Tried.append {head : Option Reader} {events' : List Event} (h : Tried m head events)
    (h' : ∀ head', Tried m head' events') : Tried m head (events ++ events') := by
  induction h with
  | nil => exact h' _
  | statement _ ih => exact .statement ih
  | member mem attempt _ ih => exact .member mem attempt ih
  | block _ ih => exact .block ih

/-- Attempts at the members of types with the keyword of a statement come
after the start of that statement. -/
theorem tried_members {s : Reader} {context : List Node} {events : List MemberEvent}
    (h : ∀ e ∈ events, ∃ c ∈ m.byKeyword s.current.value, e ∈ (interpret m context c s).events) :
    Tried m (some s) (events.map .member) := by
  induction events with
  | nil => exact .nil
  | cons e events ih =>
    obtain ⟨⟨c, hc, hattempt⟩, hrest⟩ := List.forall_mem_cons.mp h
    exact .member hc hattempt (ih hrest)

/-- Reading a statement shows its start and then attempts at its members. -/
theorem tried_readStatement (m : Model) (context : List Node) (r : Reader)
    (head : Option Reader) : Tried m head (readStatement m context r).1 := by
  rcases readStatement_cases m context r with ⟨_, hread⟩ | ⟨_, _, _, hread, hattempts, _⟩
  · rw [hread]
    exact .statement .nil
  · rw [hread]
    exact .statement (tried_members hattempts)

/-- Closing blocks shows no attempts. -/
theorem tried_closeBlocks (m : Model) (context : List Node) (r : Reader) (head : Option Reader) :
    Tried m head (closeBlocks context r).1 := by
  induction context generalizing r head with
  | nil =>
    rw [closeBlocks]
    split <;> exact .nil
  | cons n outer ih =>
    rw [closeBlocks]
    split
    · exact .nil
    · exact .block (ih _ _)

/-- The end of a statement shows no attempts. -/
theorem tried_endStatement (m : Model) (n : Node) (context : List Node) (r : Reader)
    (head : Option Reader) : Tried m head (endStatement m n context r).1 := by
  unfold endStatement
  split
  · exact .block (tried_closeBlocks m _ _ _)
  · split
    · exact tried_closeBlocks m _ _ _
    · exact .nil

/-- All attempts of a parse come after the start of the statement that they
are about. Induction along the parse, one statement at a time. -/
theorem tried_parseFrom (m : Model) (context : List Node) (r : Reader) (head : Option Reader) :
    Tried m head (parseFrom m context r).events := by
  fun_induction parseFrom m context r generalizing head with
  | case1 => exact .nil
  | case2 => exact .nil
  | case3 context r hend events failure hread =>
    have hfirst := tried_readStatement m context r head
    rw [hread] at hfirst
    exact hfirst
  | case4 context r hend events n afterHead hread closing failure hending =>
    have hfirst := tried_readStatement m context r head
    have hclosing := tried_endStatement m n context afterHead
    rw [hread] at hfirst
    rw [hending] at hclosing
    exact hfirst.append hclosing
  | case5 =>
    rename_i context r hend events n afterHead hread closing context' next hending _ ih
    have hfirst := tried_readStatement m context r head
    have hclosing := tried_endStatement m n context afterHead
    rw [hread] at hfirst
    rw [hending] at hclosing
    exact (hfirst.append hclosing).append ih

/-! ### What was read last -/

/-- The last of the statements that a word at or before a cursor starts. -/
structure LastStatement (events : List Event) (target : Nat) (s : Reader) : Prop where
  isWord : s.current.kind = .word
  start_le : s.current.start ≤ target
  last : ∃ before after, events = before ++ .statement s :: after
    ∧ ∀ s', .statement s' ∈ after → s'.current.kind = .word → target < s'.current.start

/-- The last statement stays the last when an event comes that is not the
start of a statement at or before the cursor. -/
theorem LastStatement.concat {target : Nat} {s : Reader} {e : Event}
    (h : LastStatement events target s)
    (he : ∀ s', e = .statement s' → s'.current.kind = .word → target < s'.current.start) :
    LastStatement (events ++ [e]) target s := by
  obtain ⟨before, after, rfl, hafter⟩ := h.last
  refine ⟨h.isWord, h.start_le, before, after ++ [e], by simp, fun s' hs' => ?_⟩
  rcases List.mem_append.mp hs' with hs' | hs'
  · exact hafter s' hs'
  · exact he s' (List.mem_singleton.mp hs').symm

/-- What was read last for a type in a statement: the token is the last of
those read from the keyword on, and the member is one that is written. -/
structure ReadFor (m : Model) (s : Reader) (c : ConceptType) (last : LastRead) : Prop where
  mem : c ∈ m.byKeyword s.current.value
  keyword : c.hasKeyword s.current.value = true
  member : ∃ member, (member, last.member) ∈ c.parsableMembers
  token : ∃ words more, s.rest = s.current :: words ++ more
    ∧ (s.current :: words).getLast? = some last.token

/-- The word that a statement is read from as a type is its keyword. -/
theorem hasKeyword_of_mem_events {c : ConceptType} {context : List Node} {s : Reader}
    {e : MemberEvent} (hc : c ∈ m.byKeyword s.current.value)
    (h : e ∈ (interpret m context c s).events) : c.hasKeyword s.current.value = true := by
  obtain ⟨_, hsame⟩ := keyword_of_mem_events h
  obtain ⟨keyword, hkeyword, _⟩ := (Option.any_eq_true _ _).mp (List.mem_filter.mp hc).2
  rw [ConceptType.shownName, hkeyword, Option.getD_some] at hsame
  rw [ConceptType.hasKeyword, hkeyword, Option.any_some]
  exact beq_iff_eq.mpr (beq_iff_eq.mp hsame).symm

/-- An attempt at a member of a type tells what was read last for this type
in the statement. -/
theorem readFor_of_mem_events {c : ConceptType} {context : List Node} {s : Reader}
    {e : MemberEvent} {token : Token} (hc : c ∈ m.byKeyword s.current.value)
    (h : e ∈ (interpret m context c s).events) (htoken : e.reader.last? = some token) :
    c.id = e.type ∧ ReadFor m s c ⟨token, e.index⟩ := by
  obtain ⟨htype, hmember, words, hreads, _⟩ := attempt_of_mem_events h
  refine ⟨htype.symm, hc, hasKeyword_of_mem_events hc h, hmember, words, _, hreads.rest, ?_⟩
  rw [Reader.last?, hreads.before, List.head?_append, List.head?_reverse, List.getLast?_cons,
    Option.some_or] at htoken
  exact List.getLast?_cons.trans htoken

namespace Tracker

variable {k : Tracker} {head : Option Reader}

/-- A tracker that has followed some events, with the statement that
attempts are now about. What it keeps for types was read in the last
statement that a word starts, and no other keyword is there. Attempts that
count are about this statement. -/
structure Follows (m : Model) (k : Tracker) (events : List Event) (head : Option Reader) :
    Prop where
  recorded : ∀ entry ∈ k.lastRead, ∃ s c, LastStatement events k.target s
    ∧ (∀ t, k.keyword = some t → t = s.current) ∧ c.id = entry.1 ∧ ReadFor m s c entry.2
  head : ∀ s, head = some s → s.current.kind = .word → k.nextKeyword = none →
    LastStatement events k.target s ∧ k.keyword = some s.current

/-- An event changes nothing if it starts no statement with a word at or
before the cursor. -/
theorem Follows.concat (h : k.Follows m events head) {e : Event}
    (he : ∀ r, e = .statement r → r.current.kind = .word → k.target < r.current.start) :
    k.Follows m (events ++ [e]) head := by
  refine ⟨fun entry hentry => ?_, fun s hs hword hnext => ?_⟩
  · obtain ⟨s, c, hlast, hread⟩ := h.recorded entry hentry
    exact ⟨s, c, hlast.concat he, hread⟩
  · obtain ⟨hlast, hkeyword⟩ := h.head s hs hword hnext
    exact ⟨hlast.concat he, hkeyword⟩

/-- There are no attempts at a statement that no word starts. -/
theorem Follows.unheaded (h : k.Follows m events head) {head' : Option Reader}
    (hother : ∀ s, head' = some s → s.current.kind ≠ .word) : k.Follows m events head' :=
  ⟨h.recorded, fun s hs hword => absurd hword (hother s hs)⟩

/-- A tracker that forgets its keyword has followed the same events. Attempts
are then about no statement. -/
theorem Follows.withoutKeyword (h : k.Follows m events head) :
    { k with keyword := none }.Follows m events none := by
  refine ⟨fun entry hentry => ?_, fun s hs => by cases hs⟩
  obtain ⟨s, c, hlast, _, hread⟩ := h.recorded entry hentry
  exact ⟨s, c, hlast, fun t ht => (by cases ht), hread⟩

/-- The start of a statement is followed. If a word starts it at or before
the cursor, what was kept about types is dropped, and else it is still about
the last statement. -/
theorem Follows.onStatement (h : k.Follows m events head) (r : Reader) :
    (k.onStatement r).Follows m (events ++ [.statement r]) (some r) := by
  rw [onStatement_eq]
  split
  · next hlate =>
    -- The statement starts after the cursor, and attempts count no longer.
    have hkept := h.concat (e := .statement r) fun s hs _ => by
      cases hs
      exact hlate
    exact ⟨hkept.recorded, fun s hs hword hnext => by simp at hnext⟩
  · next hearly =>
    split
    · next hword =>
      refine ⟨fun entry hentry => absurd hentry List.not_mem_nil, fun s hs _ _ => ?_⟩
      cases hs
      exact ⟨⟨hword, Nat.not_lt.mp hearly, events, [], rfl,
        fun _ hmem => absurd hmem List.not_mem_nil⟩, rfl⟩
    · next hother =>
      have hkept := h.concat (e := .statement r) fun s hs hword => by
        cases hs
        exact absurd hword hother
      have hunheaded : ∀ s, some r = some s → s.current.kind ≠ .word := by
        intro s hs
        cases hs
        exact hother
      split
      · exact hkept.withoutKeyword.unheaded hunheaded
      · exact hkept.unheaded hunheaded

/-- A brace is followed: before the cursor it takes the keyword away. -/
theorem Follows.onBlock (h : k.Follows m events head) (r : Reader) (context : List Node)
    (opening : Bool) :
    (k.onBlock r context).Follows m (events ++ [.block r context opening]) none := by
  have hkept := h.concat (e := .block r context opening) fun s hs => by cases hs
  have hunheaded : k.Follows m (events ++ [.block r context opening]) none :=
    hkept.unheaded fun s hs => by cases hs
  unfold Tracker.onBlock
  split
  · split
    · exact ⟨hkept.withoutKeyword.recorded, fun s hs => by cases hs⟩
    · exact hunheaded
  · exact hunheaded

/-- An attempt is followed. What it puts in was read in the statement that
attempts are about. -/
theorem Follows.onMember {s : Reader} {context : List Node} {c : ConceptType} {e : MemberEvent}
    (h : k.Follows m events (some s)) (hc : c ∈ m.byKeyword s.current.value)
    (he : e ∈ (interpret m context c s).events) :
    (k.onMember e).Follows m (events ++ [.member e]) (some s) := by
  have hkept := h.concat (e := .member e) fun s hs => by cases hs
  rcases k.onMember_cases e with heq | ⟨hnext, lastRead, valid, heq, hlastRead, _⟩
  · exact heq.symm ▸ hkept
  · rw [heq]
    refine ⟨fun entry hentry => ?_, hkept.head⟩
    rcases hlastRead with rfl | ⟨token, htoken, rfl⟩
    · exact hkept.recorded entry hentry
    · rcases mem_putLast hentry with rfl | hentry
      · -- What is kept anew was read in the statement that the attempt is about.
        obtain ⟨hlast, hkeyword⟩ := hkept.head s rfl (keyword_of_mem_events he).1 hnext
        obtain ⟨hid, hread⟩ := readFor_of_mem_events hc he htoken
        refine ⟨s, c, hlast, fun t ht => ?_, hid, hread⟩
        exact (Option.some.inj (hkeyword.symm.trans ht)).symm
      · exact hkept.recorded entry hentry

/-- What a tracker keeps belongs to the last statement that a word starts,
after every event. -/
theorem Follows.follow {events' : List Event} (h : k.Follows m events head)
    (htried : Tried m head events') :
    ∃ head', (k.follow events').Follows m (events ++ events') head' := by
  induction htried generalizing k events with
  | nil => exact ⟨_, (List.append_nil events).symm ▸ h⟩
  | statement _ ih =>
    rw [List.append_cons]
    exact ih (h.onStatement _)
  | member mem attempt _ ih =>
    rw [List.append_cons]
    exact ih (h.onMember mem attempt)
  | block _ ih =>
    rw [List.append_cons]
    exact ih (h.onBlock _ _ _)

end Tracker

/-! ### Analyses -/

/-- The tracker of a parse has followed all events of it. -/
theorem follows_track (m : Model) (tokens : List Token) (target : Nat) :
    ∃ head, (track m tokens target).Follows m (parse m tokens).events head := by
  have hstart : (Tracker.start tokens target).Follows m [] none :=
    ⟨fun _ hentry => absurd hentry List.not_mem_nil, fun _ hs => (by cases hs)⟩
  exact hstart.follow (tried_parseFrom m [] _ none)

/-- Something that was read last for a type was read in the last statement
that a word at or before the cursor starts. If there is a keyword, it is
this word. The member read last has a place among the written ones, and the
active parameter is this one while the cursor touches the token, and the
next one when it does not. The next one is also active if the token is the
word that the statement starts with, which is the keyword of the type, or
another token that is spelled like it. -/
theorem activeParameter_of_lastRead (hm : m.Accepted) (texts : ExternalTexts)
    (path : Option FilePath) (text : List Char) (position : Option LineChr) {type : TypeId}
    {last : LastRead} :
    let a := analyze m texts path text position
    a.lastRead.lookup type = some last →
      ∃ s c place, LastStatement (parse m a.tokens).events a.target s
        ∧ (∀ t, a.keyword = some t → t = s.current)
        ∧ c.id = type ∧ ReadFor m s c last ∧ c.parsablePlace last.member = some place
        ∧ (last.token.touches a.target = true → c.hasKeyword last.token.value = false →
          last.token ≠ s.current ∧ a.activeParameter m type = place)
        ∧ (last.token.touches a.target = false ∨ last.token = s.current
            ∨ c.hasKeyword last.token.value = true →
          a.activeParameter m type = place + 1) := by
  intro a hlookup
  have hentry : (type, last) ∈ a.lastRead := mem_of_lookup hlookup
  obtain ⟨hlastRead, hshown⟩ :=
    analyze_tracker_of_lastRead m texts path text position (List.ne_nil_of_mem hentry)
  -- What is kept for the type comes from the tracker, which has followed the parse.
  obtain ⟨_, hfollows⟩ := follows_track m a.tokens a.target
  obtain ⟨s, c, hlast, hkeyword, hid, hread⟩ := hfollows.recorded _ (hlastRead ▸ hentry)
  have htarget : (track m a.tokens a.target).target = a.target := Tracker.follow_target _ _
  rw [htarget] at hlast
  obtain rfl : c.id = type := hid
  obtain ⟨place, hplace, _⟩ := exists_parsablePlace hread.member
  have hactive := activeParameter_of_lookup
    (hm.typeAt_id (List.mem_filter.mp hread.mem).1) hlookup hplace
  refine ⟨s, c, place, hlast, fun t ht => hkeyword t (hshown t ht), rfl, hread, hplace,
    fun htouches hother => ⟨fun heq => ?_, ?_⟩, fun hpast => ?_⟩
  · -- The statement starts with a keyword of the type, which the token is not.
    rw [heq, hread.keyword] at hother
    exact Bool.noConfusion hother
  · rw [hactive, htouches, hother]
    rfl
  · rw [hactive, if_pos]
    rcases hpast with huntouched | heq | hlike
    · rw [huntouched]
      exact Bool.or_true _
    · rw [heq, hread.keyword]
      exact Bool.true_or _
    · rw [hlike]
      exact Bool.true_or _

/-- The name of a module is being typed. -/
theorem activeParameter_on_name :
    let a := analyze moduleModel (fun _ _ => .unavailable "none") none "module A;".toList
      (some ⟨0, 8⟩)
    moduleModel.Accepted ∧ a.lastRead.lookup 0 = some ⟨⟨.word, "A", 7, 8⟩, 0⟩
      ∧ a.keyword = some ⟨.word, "module", 0, 6⟩ ∧ a.activeParameter moduleModel 0 = 0 := by
  intro a
  have hlookup : a.lastRead.lookup 0 = some ⟨⟨.word, "A", 7, 8⟩, 0⟩ := by decide +kernel
  obtain ⟨s, c, place, _, _, hid, hread, hplace, htouched, _⟩ :=
    activeParameter_of_lastRead accepted_moduleModel (fun _ _ => .unavailable "none") none
      "module A;".toList (some ⟨0, 8⟩) hlookup
  have hc : moduleModel.typeAt c.id = c :=
    accepted_moduleModel.typeAt_id (List.mem_filter.mp hread.mem).1
  rw [hid] at hc
  subst hc
  obtain ⟨_, hactive⟩ := htouched (by decide +kernel) (by decide)
  refine ⟨accepted_moduleModel, hlookup, by decide +kernel, hactive.trans ?_⟩
  exact (Option.some.inj hplace).symm

/-- The name that is being typed is spelled like the keyword. The cursor
touches it, and counts as past it. -/
theorem activeParameter_of_name_like_keyword :
    let a := analyze moduleModel (fun _ _ => .unavailable "none") none "Module Module".toList
      (some ⟨0, 13⟩)
    let name : Token := ⟨.word, "Module", 7, 13⟩
    moduleModel.Accepted ∧ a.lastRead.lookup 0 = some ⟨name, 0⟩ ∧ a.keyword ≠ some name
      ∧ name.touches a.target = true ∧ (moduleModel.typeAt 0).parsablePlace 0 = some 0
      ∧ a.activeParameter moduleModel 0 = 1 := by
  refine ⟨accepted_moduleModel, ?_, ?_, ?_, rfl, ?_⟩ <;> decide +kernel

end ConceptScript.Cursor

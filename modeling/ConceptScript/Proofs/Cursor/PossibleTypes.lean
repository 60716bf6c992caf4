import ConceptScript.Proofs.Cursor.CutStream
import ConceptScript.Proofs.Cursor.TextRead
import ConceptScript.Proofs.Script.AttemptReach

/-!
# `ConceptScript.Proofs.Cursor.PossibleTypes`: types belong to the keyword

A tracker keeps for each type what was read last, and which types are
possible. All interpretations of a statement add to this, and it is dropped
only when the next keyword comes, while the keyword itself may end before.
Still it is never about another keyword, and without a keyword no type is
possible: a tracker stays `Keyed`.

The first part holds since a member is tried only for a type of the word
that the statement starts with, and this word is the keyword unless it
stands after the cursor, where nothing is kept any more.

The second part needs to know how far attempts get. A type becomes possible
when an attempt has read the last token before the cursor. No attempt gets
past the token that ends the statement, so from this token on there is
nothing before the cursor, and nothing to end the keyword. This is what a
tracker `Settled` at a reader says; each statement that is read leaves the
tracker so (`Settled.readStatement`, `settles_endStatement`), and from
statement to statement it is carried through the script
(`Settled.keyed_parseFrom`).
-/

set_option autoImplicit false

namespace ConceptScript.Cursor

open ConceptScript.Text
open ConceptScript.Script
open ConceptScript.Files (FilePath)
open ConceptScript.Model (TypeId)

/-! ### Tokens before the cursor -/

/-- A list with a member of some property has a last one. -/
theorem exists_lastIndex? {α : Type} {p : α → Bool} {l : List α} {a : α} (ha : a ∈ l)
    (hp : p a = true) : ∃ i, lastIndex? p l = some i := by
  induction l with
  | nil => exact absurd ha List.not_mem_nil
  | cons b l ih =>
    rw [lastIndex?]
    rcases List.mem_cons.mp ha with rfl | hmem
    · split
      · exact ⟨_, rfl⟩
      · exact ⟨0, if_pos hp⟩
    · obtain ⟨i, hi⟩ := ih hmem
      rw [hi]
      exact ⟨i + 1, rfl⟩

/-- The last item with a property is no earlier than any other one. -/
theorem le_lastIndex?_append {α : Type} {p : α → Bool} (l : List α) {l' : List α} {a : α}
    (ha : a ∈ l') (hp : p a = true) : ∃ i, lastIndex? p (l ++ l') = some i ∧ l.length ≤ i := by
  induction l with
  | nil =>
    obtain ⟨i, hi⟩ := exists_lastIndex? ha hp
    exact ⟨i, hi, Nat.zero_le i⟩
  | cons b l ih =>
    obtain ⟨i, hi, hle⟩ := ih
    rw [List.cons_append, lastIndex?, hi]
    exact ⟨i + 1, rfl, Nat.succ_le_succ hle⟩

/-- A reader with nothing ahead that is before the cursor: tokens start at
the cursor or after it, and stop after it. -/
def Unpassed (target : Nat) (r : Reader) : Prop :=
  ∀ t ∈ r.rest, t.isEnd = false → target ≤ t.start ∧ target < t.stop

/-- What is ahead of a reader that moved on was ahead before. -/
theorem Unpassed.of_leadsTo {target : Nat} {r r' : Reader} (h : Unpassed target r)
    (hleads : r.LeadsTo r') : Unpassed target r' := by
  obtain ⟨read, hrest, _⟩ := hleads
  exact fun t ht => h t (hrest ▸ List.mem_append_right read ht)

/-- A reader of the tokens that a tracker was made for, as they come from a
script. -/
structure Tracker.Watches (k : Tracker) (r : Reader) : Prop where
  lastBefore : k.lastBefore = lastIndex? (fun t => !t.isEnd && t.start < k.target) r.tokens
  proper : ∀ t ∈ r.tokens, t.isEnd = false → t.Plain ∧ t.start < t.stop

namespace Tracker

variable {m : Model} {k : Tracker} {r r' : Reader} {context : List Node} {n : Node}
  {e : MemberEvent} {events : List Event}

namespace Watches

/-- A tracker watches a reader wherever it moves on to. -/
theorem of_leadsTo (h : k.Watches r) (hleads : r.LeadsTo r') : k.Watches r' := by
  obtain ⟨read, hrest, hbefore⟩ := hleads
  have htokens : r'.tokens = r.tokens := by simp [Reader.tokens, hrest, hbefore]
  exact ⟨htokens.symm ▸ h.lastBefore, htokens.symm ▸ h.proper⟩

/-- A tracker watches its reader whatever events it follows. -/
theorem follow (h : k.Watches r) (events : List Event) : (k.follow events).Watches r :=
  ⟨by rw [follow_lastBefore, follow_target, h.lastBefore], h.proper⟩

/-- The tokens that are watched come from a script. -/
theorem plain (h : k.Watches r) {t : Token} (ht : t ∈ r.rest) (hend : t.isEnd = false) : t.Plain :=
  (h.proper t (List.mem_append_right _ ht) hend).1

/-- Past the last token before the cursor there is none. -/
theorem unpassed (h : k.Watches r) {i : Nat} (hlast : k.lastBefore = some i)
    (hi : i < r.position) : Unpassed k.target r := by
  intro t ht hend
  have hlt := (h.proper t (List.mem_append_right _ ht) hend).2
  have hstart : k.target ≤ t.start := by
    by_contra hbefore
    obtain ⟨j, hj, hle⟩ := le_lastIndex?_append
      (p := fun t => !t.isEnd && t.start < k.target) r.before.reverse ht
      (by simpa [hend] using hbefore)
    cases (h.lastBefore.symm.trans hlast).symm.trans hj
    rw [List.length_reverse] at hle
    exact absurd hi (Nat.not_lt.mpr hle)
  exact ⟨hstart, Nat.lt_of_le_of_lt hstart hlt⟩

/-- The end of a statement is none of the tokens that attempts pass. -/
theorem not_readable (h : k.Watches r)
    (hend : r.current.is "\x7b" = true ∨ r.current.is ";" = true) : ¬ r.current.Readable := by
  intro hreadable
  have hplain := h.plain (Reader.rest_eq_cons hreadable.isEnd ▸ List.mem_cons_self) hreadable.isEnd
  obtain ⟨hopen, hsemicolon⟩ := hreadable.is_eq_false hplain
  rcases hend with his | his
  · exact absurd (his.symm.trans hopen) (by decide)
  · exact absurd (his.symm.trans hsemicolon) (by decide)

end Watches

/-! ### What trying a member does -/

/-- What is kept is what was put in or what was kept before. -/
theorem mem_putLast {key : TypeId} {value : LastRead} {entries : List (TypeId × LastRead)}
    {entry : TypeId × LastRead} (h : entry ∈ putLast key value entries) :
    entry = (key, value) ∨ entry ∈ entries := by
  induction entries with
  | nil => exact .inl (List.mem_singleton.mp h)
  | cons first rest ih =>
    obtain ⟨k, v⟩ := first
    unfold putLast at h
    split at h
    · rcases List.mem_cons.mp h with rfl | hmem
      · exact .inl rfl
      · exact .inr (List.mem_cons_of_mem _ hmem)
    · rcases List.mem_cons.mp h with rfl | hmem
      · exact .inr List.mem_cons_self
      · exact (ih hmem).imp_right (List.mem_cons_of_mem _)

/-- A possible type is the one that was added or was possible before. -/
theorem mem_addOnce {type type' : TypeId} {types : List TypeId} (h : type' ∈ addOnce type types) :
    type' = type ∨ type' ∈ types := by
  unfold addOnce at h
  split at h
  · exact .inr h
  · simpa [or_comm] using h

/-- Trying a member changes nothing, or no later statement has started. Then
the type may be kept with the member, and it may become a possible one if
the attempt has read the last token before the cursor. -/
theorem onMember_cases (k : Tracker) (e : MemberEvent) :
    k.onMember e = k ∨ k.nextKeyword = none ∧ ∃ lastRead valid,
      k.onMember e = { k with lastRead := lastRead, valid := valid }
        ∧ (lastRead = k.lastRead
          ∨ ∃ token, e.reader.last? = some token
            ∧ lastRead = putLast e.type ⟨token, e.index⟩ k.lastRead)
        ∧ (valid = k.valid ∨ valid = addOnce e.type k.valid
          ∧ ∃ i, k.lastBefore = some i ∧ i < e.reader.position) := by
  unfold onMember
  split
  · next i token earlier hnext hlast hbefore =>
    have hposition : e.reader.position = earlier.length + 1 := congrArg List.length hbefore
    have htoken : e.reader.last? = some token := congrArg List.head? hbefore
    refine .inr ⟨hnext, ?_⟩
    dsimp only
    -- Whether the type becomes possible does not depend on whether the attempt is kept.
    by_cases hreached : i ≤ earlier.length
    · have hpossible : addOnce e.type k.valid = addOnce e.type k.valid
          ∧ ∃ j, k.lastBefore = some j ∧ j < e.reader.position := ⟨rfl, i, hlast, by omega⟩
      rw [if_pos hreached]
      split
      · split
        · exact ⟨_, _, rfl, .inr ⟨token, htoken, rfl⟩, .inr hpossible⟩
        · exact ⟨_, _, rfl, .inl rfl, .inr hpossible⟩
      · exact ⟨_, _, rfl, .inl rfl, .inr hpossible⟩
    · rw [if_neg hreached]
      split
      · split
        · exact ⟨_, _, rfl, .inr ⟨token, htoken, rfl⟩, .inl rfl⟩
        · exact ⟨_, _, rfl, .inl rfl, .inl rfl⟩
      · exact ⟨_, _, rfl, .inl rfl, .inl rfl⟩
  · exact .inl rfl

/-! ### Types of the keyword -/

/-- What is kept about types is about types of the keyword, and about their
parsable members. Without a keyword no type is possible. -/
structure Keyed (m : Model) (k : Tracker) : Prop where
  valid : ∀ t, k.keyword = some t → ∀ type ∈ k.valid, ∃ c ∈ m.byKeyword t.value, c.id = type
  lastRead : ∀ t, k.keyword = some t → ∀ entry ∈ k.lastRead,
    ∃ c ∈ m.byKeyword t.value, c.id = entry.1
      ∧ ∃ member, (member, entry.2.member) ∈ c.parsableMembers
  noKeyword : k.keyword = none → k.valid = []

/-- A tracker between statements, at a reader. Once a type is possible,
nothing ahead is before the cursor. -/
structure Settled (m : Model) (k : Tracker) (r : Reader) : Prop where
  keyed : k.Keyed m
  watches : k.Watches r
  unpassed : k.valid ≠ [] → Unpassed k.target r

/-- A settled tracker stays so as the reader moves on. -/
theorem Settled.of_leadsTo (h : k.Settled m r) (hleads : r.LeadsTo r') : k.Settled m r' :=
  ⟨h.keyed, h.watches.of_leadsTo hleads, fun hvalid => (h.unpassed hvalid).of_leadsTo hleads⟩

/-- An attempt in the statement of the keyword keeps a tracker keyed: its
type has this keyword. -/
theorem Keyed.onMember (h : k.Keyed m) {t : Token}
    (hkeyword : k.nextKeyword = none → k.keyword = some t) (he : e.OfWord m t) :
    (k.onMember e).Keyed m := by
  rcases k.onMember_cases e with hsame | ⟨hnext, lastRead, valid, heq, hlastRead, hvalid⟩
  · exact hsame.symm ▸ h
  · have ht := hkeyword hnext
    obtain ⟨c, hc, htype, hmember⟩ := he
    rw [heq]
    refine ⟨fun t' ht' type hmem => ?_, fun t' ht' entry hmem => ?_, fun hnone => ?_⟩
    · cases ht.symm.trans ht'
      rcases hvalid with rfl | ⟨rfl, _⟩
      · exact h.valid t ht type hmem
      · rcases mem_addOnce hmem with rfl | hmem
        · exact ⟨c, hc, htype⟩
        · exact h.valid t ht type hmem
    · cases ht.symm.trans ht'
      rcases hlastRead with rfl | ⟨token, _, rfl⟩
      · exact h.lastRead t ht entry hmem
      · rcases mem_putLast hmem with rfl | hmem
        · exact ⟨c, hc, htype, hmember⟩
        · exact h.lastRead t ht entry hmem
    · cases ht.symm.trans hnone

/-- Types become possible in attempts that have read the last token before
the cursor. -/
theorem Keyed.follow_members (h : k.Keyed m) {t : Token}
    (hkeyword : k.nextKeyword = none → k.keyword = some t) {events : List MemberEvent}
    (hevents : ∀ e ∈ events, e.OfWord m t) :
    (k.follow (events.map .member)).Keyed m
      ∧ ((k.follow (events.map .member)).valid ≠ [] → k.valid = [] →
        ∃ e ∈ events, ∃ i, k.lastBefore = some i ∧ i < e.reader.position) := by
  induction events generalizing k with
  | nil => exact ⟨h, fun hvalid hnone => absurd hnone hvalid⟩
  | cons e events ih =>
    obtain ⟨he, hrest⟩ := List.forall_mem_cons.mp hevents
    obtain ⟨_, _, heq⟩ := k.onMember_eq e
    have hkeyword' : (k.onMember e).nextKeyword = none → (k.onMember e).keyword = some t := by
      rw [heq]
      exact hkeyword
    have hlast : (k.onMember e).lastBefore = k.lastBefore := by rw [heq]
    obtain ⟨hkeyed, hlater⟩ := ih (h.onMember hkeyword he) hkeyword' hrest
    refine ⟨hkeyed, fun hvalid hnone => ?_⟩
    -- The first type became possible in this attempt, or in a later one.
    by_cases hfirst : (k.onMember e).valid = []
    · obtain ⟨e', he', i, hi, hread⟩ := hlater hvalid hfirst
      exact ⟨e', List.mem_cons_of_mem _ he', i, hlast ▸ hi, hread⟩
    · rcases k.onMember_cases e with hsame | ⟨_, _, valid, heq, _, hvalid⟩
      · rw [hsame] at hfirst
        exact absurd hnone hfirst
      · rw [heq] at hfirst
        rcases hvalid with rfl | ⟨_, hread⟩
        · exact absurd hnone hfirst
        · exact ⟨e, List.mem_cons_self, hread⟩

/-! ### From statement to statement -/

/-- A token that the cursor has not passed does not end a keyword that there
are possible types for. -/
theorem Settled.withoutKeyword (h : k.Settled m r) {t : Token} (ht : t ∈ r.rest)
    (hend : t.isEnd = false) (hpassed : t.stop ≤ k.target) (context : List Node) :
    ({ k with context := context, keyword := none } : Tracker).Settled m r := by
  have hnone : k.valid = [] := by
    by_contra hvalid
    exact absurd (h.unpassed hvalid t ht hend).2 (Nat.not_lt.mpr hpassed)
  exact ⟨⟨fun _ hkeyword => (by cases hkeyword), fun _ hkeyword => (by cases hkeyword),
    fun _ => hnone⟩, ⟨h.watches.lastBefore, h.watches.proper⟩,
    fun hvalid => absurd hnone hvalid⟩

/-- The start of a statement. A word that is not after the cursor is the
keyword from then on. -/
theorem Settled.onStatement (h : k.Settled m r) (hend : r.atEnd = false) :
    (k.onStatement r).Settled m r ∧ (r.current.kind = .word →
      (k.onStatement r).nextKeyword = none → (k.onStatement r).keyword = some r.current) := by
  have hmem : r.current ∈ r.rest := Reader.rest_eq_cons hend ▸ List.mem_cons_self
  rw [onStatement_eq]
  split
  · -- The statement starts after the cursor.
    refine ⟨⟨⟨h.keyed.valid, h.keyed.lastRead, h.keyed.noKeyword⟩,
      ⟨h.watches.lastBefore, h.watches.proper⟩, h.unpassed⟩, fun _ hnext => ?_⟩
    simp at hnext
  · split
    · -- The word is the keyword, and what was kept about types is dropped.
      refine ⟨⟨⟨fun _ _ _ hnil => absurd hnil List.not_mem_nil,
        fun _ _ _ hnil => absurd hnil List.not_mem_nil, fun _ => rfl⟩,
        ⟨h.watches.lastBefore, h.watches.proper⟩, fun hvalid => absurd rfl hvalid⟩,
        fun _ _ => rfl⟩
    · next hother =>
      refine ⟨?_, fun hword => absurd hword hother⟩
      split
      · next hpassed => exact h.withoutKeyword hmem hend (Nat.le_of_lt hpassed) k.context
      · exact h

/-- The brace of a block, just read. -/
theorem Settled.onBlock (h : k.Settled m r) {t : Token} (hreads : r.Reads [t] r')
    (hend : t.isEnd = false) (context : List Node) : (k.onBlock r' context).Settled m r' := by
  have hmem : t ∈ r.rest := hreads.rest ▸ List.mem_cons_self
  rw [onBlock_eq k r' context (last?_of_reads hreads)]
  split
  · next hpassed => exact (h.withoutKeyword hmem hend hpassed context).of_leadsTo hreads.leadsTo
  · exact h.of_leadsTo hreads.leadsTo

/-- The head of a statement. Where the statement ends after it, no attempt
has got further than that. -/
theorem Settled.readStatement (h : k.Settled m r) (hend : r.atEnd = false)
    (context : List Node) :
    (k.follow (readStatement m context r).1).Keyed m ∧ ∀ n r',
      (readStatement m context r).2 = .ok (n, r') →
      r'.current.is "\x7b" = true ∨ r'.current.is ";" = true →
        (k.follow (readStatement m context r).1).Settled m r' := by
  obtain ⟨hstart, hkeyword⟩ := h.onStatement hend
  rcases readStatement_cases m context r with
    ⟨failure, hread⟩ | ⟨hword, events, result, hread, hevents, hok⟩
  · rw [hread]
    exact ⟨hstart.keyed, fun _ _ hok => (by cases hok)⟩
  · rw [hread]
    obtain ⟨hkeyed, hpossible⟩ :=
      hstart.keyed.follow_members (hkeyword hword) fun e he =>
        have ⟨_, hc, hattempt⟩ := hevents e he
        ofWord_of_mem_events hc hattempt
    refine ⟨hkeyed, fun n r' hresult hterminator => ?_⟩
    have hpassed : r.PassesKeyword r' := hok n r' hresult
    have hleads : r.LeadsTo r' := hpassed.leadsTo
    have hwatches : ((k.onStatement r).follow (events.map .member)).Watches r' :=
      (hstart.watches.of_leadsTo hleads).follow _
    refine ⟨hkeyed, hwatches, fun hvalid => ?_⟩
    by_cases hnone : (k.onStatement r).valid = []
    · -- An attempt has read the last token before the cursor, and no more than was read.
      obtain ⟨e, he, i, hlast, hi⟩ := hpossible hvalid hnone
      obtain ⟨_, _, hattempt⟩ := hevents e he
      have hle := hpassed.position_le (hwatches.not_readable hterminator)
        (passesKeyword_of_mem_events hattempt)
      exact hwatches.unpassed ((follow_lastBefore _ _).trans hlast) (Nat.lt_of_lt_of_le hi hle)
    · show Unpassed ((k.onStatement r).follow (events.map .member)).target r'
      rw [follow_target]
      exact (hstart.unpassed hnone).of_leadsTo hleads

/-- What the end of a statement does to a tracker: it stays keyed, and where
reading goes on it is settled. -/
def Settles (m : Model) (k : Tracker)
    (x : List Event × Except Failure (List Node × Reader)) : Prop :=
  (k.follow x.1).Keyed m ∧ ∀ context r', x.2 = .ok (context, r') →
    (k.follow x.1).Settled m r'

/-- Closing blocks settles a tracker at the reader that goes on. -/
theorem Settled.closeBlocks (h : k.Settled m r) (context : List Node) :
    Settles m k (closeBlocks context r) := by
  induction context generalizing k r with
  | nil =>
    rw [Script.closeBlocks]
    split
    · exact ⟨h.keyed, fun _ _ hok => (by cases hok; exact h)⟩
    · exact ⟨h.keyed, fun _ _ hok => (by cases hok)⟩
  | cons n outer ih =>
    rw [Script.closeBlocks]
    split
    · exact ⟨h.keyed, fun _ _ hok => (by cases hok; exact h)⟩
    · next r' hread =>
      obtain ⟨t, his, hreads⟩ := Reader.tryRead_eq_some_iff.mp hread
      exact ih (h.onBlock hreads (Token.isEnd_of_is his) outer)

/-- The end of a statement. If there is none, reading does not go on. -/
theorem settles_endStatement (hkeyed : k.Keyed m)
    (h : r.current.is "\x7b" = true ∨ r.current.is ";" = true → k.Settled m r) (n : Node)
    (context : List Node) : Settles m k (endStatement m n context r) := by
  unfold endStatement
  split
  · next r' hread =>
    obtain ⟨t, his, hreads⟩ := Reader.tryRead_eq_some_iff.mp hread
    have hsettled := h (.inl (Reader.current_of_reads hreads ▸ his))
    have hinner := hsettled.onBlock hreads (Token.isEnd_of_is his) (n :: context)
    exact hinner.closeBlocks (n :: context)
  · split
    · next r' hread =>
      obtain ⟨t, his, hreads⟩ := Reader.tryRead_eq_some_iff.mp hread
      have hsettled := h (.inr (Reader.current_of_reads hreads ▸ his))
      exact (hsettled.of_leadsTo hreads.leadsTo).closeBlocks context
    · exact ⟨hkeyed, fun _ _ hok => (by cases hok)⟩

/-- A tracker that is settled is keyed after the rest of the parse. Induction
along the parse, for the tracker has to be settled again at every statement. -/
theorem Settled.keyed_parseFrom (h : k.Settled m r) (context : List Node) :
    (k.follow (parseFrom m context r).events).Keyed m := by
  -- A tracker is settled again where the next statement starts.
  fun_induction parseFrom m context r generalizing k with
  | case1 => exact h.keyed
  | case2 => exact h.keyed
  | case3 context r hend events failure hread =>
    have hhead := (h.readStatement (Bool.eq_false_iff.mpr hend) context).1
    rw [hread] at hhead
    exact hhead
  | case4 context r hend events n afterHead hread closing failure hending =>
    obtain ⟨hkeyed, hsettled⟩ := h.readStatement (Bool.eq_false_iff.mpr hend) context
    rw [hread] at hkeyed hsettled
    have hclosing := settles_endStatement hkeyed (hsettled n afterHead rfl) n context
    rw [hending] at hclosing
    rw [follow_append]
    exact hclosing.1
  | case5 =>
    rename_i context r hend events n afterHead hread closing context' next hending _ ih
    obtain ⟨hkeyed, hsettled⟩ := h.readStatement (Bool.eq_false_iff.mpr hend) context
    rw [hread] at hkeyed hsettled
    have hclosing := settles_endStatement hkeyed (hsettled n afterHead rfl) n context
    rw [hending] at hclosing
    rw [follow_append, follow_append]
    exact ih (hclosing.2 context' next rfl)

end Tracker

/-! ### Analyses -/

/-- The tokens of a script are plain and take some bytes, but for its end. -/
theorem proper_of_mem_tokenize {texts : ExternalTexts} (hcalm : NeverCrashes texts)
    {source : Source} {t : Token} (ht : t ∈ (tokenize texts source).tokens)
    (hend : t.isEnd = false) : t.Plain ∧ t.start < t.stop := by
  rw [tokenize_tokens hcalm] at ht
  rcases List.mem_append.mp ht with ht | ht
  · obtain ⟨l, hl, hconvert⟩ := exists_of_mem_convertAll ht
    have hkeeps := keeps_of_convert hconvert
    refine ⟨plain_of_mem_convertAll source.text (List.Subset.refl _) ht, ?_⟩
    rw [hkeeps.start, hkeeps.stop]
    exact ((spread_lexFrom 0 source.text).bounds l hl).2
  · cases List.mem_singleton.mp ht
    cases hend

/-- The tracker of a parse is keyed. -/
theorem keyed_track (m : Model) {tokens : List Token} (target : Nat)
    (hproper : ∀ t ∈ tokens, t.isEnd = false → t.Plain ∧ t.start < t.stop) :
    (track m tokens target).Keyed m := by
  have hstart : (Tracker.start tokens target).Settled m (.ofTokens tokens) :=
    ⟨⟨fun _ hkeyword => (by cases hkeyword), fun _ hkeyword => (by cases hkeyword), fun _ => rfl⟩,
      ⟨rfl, hproper⟩, fun hvalid => absurd rfl hvalid⟩
  exact hstart.keyed_parseFrom []

/-- What an analysis keeps about types is about types of its keyword, and
about their parsable members. Without a keyword no type is possible, unless
a comment hides the keyword. -/
theorem analyze_keyed {texts : ExternalTexts} (hcalm : NeverCrashes texts) (m : Model)
    (path : Option FilePath) (text : List Char) (position : Option LineChr) :
    let a := analyze m texts path text position
    (∀ t, a.keyword = some t →
      (∀ type ∈ a.valid, ∃ c ∈ m.byKeyword t.value, c.id = type)
        ∧ ∀ entry ∈ a.lastRead, ∃ c ∈ m.byKeyword t.value, c.id = entry.1
          ∧ ∃ member, (member, entry.2.member) ∈ c.parsableMembers)
      ∧ (a.keyword = none → a.insideComment = false → a.valid = []) := by
  intro a
  have hkeyed : (track m a.tokens a.target).Keyed m := by
    -- The tokens come from a script, which is all that the tracker needs to know of them.
    refine keyed_track m a.target fun t ht hend => ?_
    rw [analyze_tokens] at ht
    exact proper_of_mem_tokenize hcalm ht hend
  obtain ⟨hkeyword, _, _, hlastRead, hvalid⟩ := analyze_tracker m path text position hcalm
  rw [hkeyword, hlastRead, hvalid]
  refine ⟨fun t ht => ?_, fun hnone hcomment => ?_⟩
  · split at ht
    · cases ht
    · exact ⟨hkeyed.valid t ht, hkeyed.lastRead t ht⟩
  · rw [if_neg (Bool.eq_false_iff.mp hcomment)] at hnone
    exact hkeyed.noKeyword hnone

end ConceptScript.Cursor

import ConceptScript.Cursor.Analysis
import ConceptScript.Proofs.Cursor.TextRead
import ConceptScript.Proofs.Cursor.Tracker
import ConceptScript.Proofs.Script.Derivation
import ConceptScript.Proofs.Script.Marks
import ConceptScript.Proofs.Script.Tokens

/-!
# `ConceptScript.Proofs.Cursor.Keyword`: the keyword at a cursor

The tracker decides on the keyword event by event. Three kinds of events
overwrite it, and each compares another end of its token with the cursor.
`ActiveKeyword` says without events in order what the outcome is: the last
word at or before the cursor that starts a statement, unless something
after it and before the cursor ends it.

* `keyword_follow_iff`: this is the keyword that the tracker ends up with.
* `nextKeyword_follow`: the next keyword is the first start after the
  cursor.

Both need the events to be about tokens in their order, which those of a
script are (`ordered_marks`).
-/

set_option autoImplicit false

namespace ConceptScript.Cursor

open ConceptScript.Text
open ConceptScript.Script
open ConceptScript.Files (FilePath)

/-- A word is the keyword at a cursor, given the starts of statements and
the braces of blocks. Of the tokens after the word no other word starts a
statement at or before the cursor, no brace stops at or before it, and
nothing else in the place of a keyword stops before it. -/
structure ActiveKeyword (starts braces : List Token) (target : Nat) (t : Token) : Prop where
  mem : t ∈ starts
  isWord : t.kind = .word
  start_le : t.start ≤ target
  noLaterWord : ∀ s ∈ starts, t.start < s.start → s.kind = .word → target < s.start
  noLaterBrace : ∀ b ∈ braces, t.start < b.start → target < b.stop
  noLaterOther : ∀ s ∈ starts, t.start < s.start → s.kind ≠ .word → target ≤ s.stop

namespace ActiveKeyword

variable {starts braces : List Token} {target : Nat} {s t : Token}

/-- A brace after all starts ends the keyword when it stops at or before
the cursor. -/
theorem concat_brace_iff (hlater : ∀ u ∈ starts, u.start < s.start) :
    ActiveKeyword starts (braces ++ [s]) target t ↔
      ActiveKeyword starts braces target t ∧ target < s.stop := by
  constructor
  · intro h
    have hbraces := List.forall_mem_append.mp h.noLaterBrace
    exact ⟨⟨h.mem, h.isWord, h.start_le, h.noLaterWord, hbraces.1, h.noLaterOther⟩,
      hbraces.2 s (List.mem_singleton_self s) (hlater t h.mem)⟩
  · rintro ⟨h, hstop⟩
    refine ⟨h.mem, h.isWord, h.start_le, h.noLaterWord, ?_, h.noLaterOther⟩
    exact List.forall_mem_append.mpr
      ⟨h.noLaterBrace, List.forall_mem_singleton.mpr fun _ => hstop⟩

/-- A word at or before the cursor after all other starts and braces is
the keyword. -/
theorem concat_word_iff (hstarts : ∀ u ∈ starts, u.start < s.start)
    (hbraces : ∀ u ∈ braces, u.start < s.start) (hword : s.kind = .word)
    (hstart : s.start ≤ target) : ActiveKeyword (starts ++ [s]) braces target t ↔ t = s := by
  constructor
  · intro h
    -- An earlier start has this word after it, so it is not the active one.
    rcases List.mem_append.mp h.mem with hmem | hmem
    · have hlater := h.noLaterWord s (List.mem_append_right _ (List.mem_singleton_self s))
        (hstarts t hmem) hword
      omega
    · exact List.mem_singleton.mp hmem
  · rintro rfl
    have hnone : ∀ u ∈ starts ++ [t], ¬ t.start < u.start := by
      refine List.forall_mem_append.mpr ⟨fun u hu => ?_, List.forall_mem_singleton.mpr ?_⟩
      · have := hstarts u hu
        omega
      · exact Nat.lt_irrefl _
    exact ⟨List.mem_append_right _ (List.mem_singleton_self t), hword, hstart,
      fun u hu hlt => absurd hlt (hnone u hu),
      fun b hb hlt => absurd hlt (Nat.lt_asymm (hbraces b hb)),
      fun u hu hlt => absurd hlt (hnone u hu)⟩

/-- Any other start after all starts ends the keyword when it is no word
and stops before the cursor. -/
theorem concat_other_iff (hstarts : ∀ u ∈ starts, u.start < s.start)
    (hother : s.kind = .word → target < s.start) :
    ActiveKeyword (starts ++ [s]) braces target t ↔
      ActiveKeyword starts braces target t ∧ (s.kind ≠ .word → target ≤ s.stop) := by
  constructor
  · intro h
    have hmem : t ∈ starts := by
      rcases List.mem_append.mp h.mem with hmem | hmem
      · exact hmem
      · cases List.mem_singleton.mp hmem
        exact absurd (hother h.isWord) (Nat.not_lt.mpr h.start_le)
    exact ⟨⟨hmem, h.isWord, h.start_le, (List.forall_mem_append.mp h.noLaterWord).1,
      h.noLaterBrace, (List.forall_mem_append.mp h.noLaterOther).1⟩,
      h.noLaterOther s (List.mem_append_right _ (List.mem_singleton_self s)) (hstarts t hmem)⟩
  · rintro ⟨h, hstop⟩
    refine ⟨List.mem_append_left _ h.mem, h.isWord, h.start_le, ?_, h.noLaterBrace, ?_⟩
    · exact List.forall_mem_append.mpr
        ⟨h.noLaterWord, List.forall_mem_singleton.mpr fun _ => hother⟩
    · exact List.forall_mem_append.mpr
        ⟨h.noLaterOther, List.forall_mem_singleton.mpr fun _ => hstop⟩

end ActiveKeyword

/-! ### The tracker -/

namespace Tracker

variable {k : Tracker}

/-- The starts of statements among some events and one more. -/
theorem starts_concat (events : List Event) (e : Event) :
    starts (events ++ [e]) = starts events ++ e.start?.toList := by
  rw [starts, List.filterMap_append, List.filterMap_cons]
  cases e.start? <;> rfl

/-- The braces among some events and one more. -/
theorem braces_concat (events : List Event) (e : Event) :
    braces (events ++ [e]) = braces events ++ e.brace?.toList := by
  rw [braces, List.filterMap_append, List.filterMap_cons]
  cases e.brace? <;> rfl

/-- A mark comes after the marks of earlier events. -/
theorem start_lt_of_ordered {events : List Event} {e : Event} {s : Token}
    (h : Ordered (marks (events ++ [e]))) (hmark : e.mark? = some s) :
    (∀ u ∈ starts events, u.start < s.start) ∧ (∀ u ∈ braces events, u.start < s.start)
      ∧ s.start ≤ s.stop := by
  have hmarks : marks (events ++ [e]) = marks events ++ [s] := by
    rw [marks_append]
    exact congrArg (marks events ++ ·) (List.filterMap_cons_some hmark)
  rw [hmarks] at h
  have hlater := (List.pairwise_append.mp h.pairwise).2.2
  refine ⟨fun u hu => ?_, fun u hu => ?_, ?_⟩
  · exact (hlater u (mem_marks_of_mem_starts hu) s (List.mem_singleton_self s)).2
  · exact (hlater u (mem_marks_of_mem_braces hu) s (List.mem_singleton_self s)).2
  · exact h.start_le_stop s (List.mem_append_right _ (List.mem_singleton_self s))

/-- The keyword that a tracker ends up with, from nothing. -/
theorem keyword_follow_iff (hnone : k.keyword = none) {events : List Event}
    (hordered : Ordered (marks events)) (t : Token) :
    (k.follow events).keyword = some t ↔
      ActiveKeyword (starts events) (braces events) k.target t := by
  induction events using List.reverseRecOn with
  | nil =>
    refine ⟨fun h => ?_, fun h => absurd h.mem List.not_mem_nil⟩
    cases hnone.symm.trans h
  | append_singleton events e ih =>
    have hbefore : Ordered (marks events) := by
      rw [marks_append] at hordered
      exact hordered.sublist (List.sublist_append_left _ _)
    have ih := ih hbefore
    have htarget : (k.follow events).target = k.target := k.follow_target events
    rw [follow_concat, starts_concat, braces_concat]
    cases e with
    | member e =>
      obtain ⟨_, _, h⟩ := (k.follow events).onMember_eq e
      show ((k.follow events).onMember e).keyword = some t ↔
        ActiveKeyword (starts events ++ []) (braces events ++ []) k.target t
      rw [h, List.append_nil, List.append_nil]
      exact ih
    | statement r =>
      obtain ⟨hstarts, hbraces, hle⟩ := start_lt_of_ordered hordered rfl
      show ((k.follow events).onStatement r).keyword = some t ↔
        ActiveKeyword (starts events ++ [r.current]) (braces events ++ []) k.target t
      rw [List.append_nil, onStatement_eq, htarget]
      -- The three comparisons decide between a start that is too late to matter, a new
      -- keyword, the end of the old one, and a start that the cursor has not passed yet.
      split
      · next hlate =>
        rw [ActiveKeyword.concat_other_iff hstarts fun _ => hlate, and_iff_left fun _ => by omega]
        exact ih
      · next hearly =>
        split
        · next hword =>
          rw [ActiveKeyword.concat_word_iff hstarts hbraces hword (Nat.not_lt.mp hearly),
            Option.some.injEq]
          exact eq_comm
        · next hother =>
          rw [ActiveKeyword.concat_other_iff hstarts fun hword => absurd hword hother]
          split
          · next hpast =>
            refine ⟨fun h => (by cases h), fun h => ?_⟩
            exact absurd (h.2 hother) (Nat.not_le.mpr hpast)
          · next hnotPast =>
            rw [and_iff_left fun _ => Nat.not_lt.mp hnotPast]
            exact ih
    | block r context opening =>
      show ((k.follow events).onBlock r context).keyword = some t ↔
        ActiveKeyword (starts events ++ []) (braces events ++ r.last?.toList) k.target t
      rw [List.append_nil]
      cases hbrace : r.last? with
      | none =>
        rw [onBlock, hbrace]
        show _ ↔ ActiveKeyword (starts events) (braces events ++ []) k.target t
        rw [List.append_nil]
        exact ih
      | some brace =>
        obtain ⟨hstarts, _, _⟩ := start_lt_of_ordered hordered hbrace
        rw [onBlock_eq _ _ _ hbrace, htarget]
        show _ ↔ ActiveKeyword (starts events) (braces events ++ [brace]) k.target t
        rw [ActiveKeyword.concat_brace_iff hstarts]
        split
        · next hstop =>
          refine ⟨fun h => (by cases h), fun h => ?_⟩
          exact absurd h.2 (Nat.not_lt.mpr hstop)
        · next hstop =>
          rw [and_iff_left (Nat.not_le.mp hstop)]
          exact ih

/-- The next keyword that a tracker ends up with, from nothing. -/
theorem nextKeyword_follow (hnone : k.nextKeyword = none) (events : List Event) :
    (k.follow events).nextKeyword = (starts events).find? (k.target < ·.start) := by
  induction events using List.reverseRecOn with
  | nil => exact hnone
  | append_singleton events e ih =>
    have htarget : (k.follow events).target = k.target := k.follow_target events
    rw [follow_concat, starts_concat, List.find?_append, ← ih]
    cases e with
    | member e =>
      obtain ⟨_, _, h⟩ := (k.follow events).onMember_eq e
      show ((k.follow events).onMember e).nextKeyword = _
      rw [h]
      exact Option.or_none.symm
    | statement r =>
      show ((k.follow events).onStatement r).nextKeyword =
        ((k.follow events).nextKeyword).or ([r.current].find? _)
      -- A start after the cursor is kept if none was before it; an earlier start is not kept.
      rw [onStatement_eq, htarget, List.find?_singleton]
      split
      · next hlate => rw [if_pos (decide_eq_true hlate)]
      · next hearly =>
        rw [if_neg (fun h => hearly (of_decide_eq_true h)), Option.or_none]
        (repeat' split) <;> rfl
    | block r context opening =>
      show ((k.follow events).onBlock r context).nextKeyword = ((k.follow events).nextKeyword).or _
      rw [show (Event.block r context opening).start?.toList.find? _ = none from rfl,
        Option.or_none]
      unfold onBlock
      (repeat' split) <;> rfl

end Tracker

/-! ### Analyses -/

/-- The keyword that a tracker ends with is the active one by the starts and
braces of the parse. -/
theorem keyword_track_iff (m : Model) {tokens : List Token} {target : Nat}
    (hordered : Ordered (marks (parse m tokens).events)) (t : Token) :
    (track m tokens target).keyword = some t ↔
      ActiveKeyword (starts (parse m tokens).events) (braces (parse m tokens).events) target t :=
  Tracker.keyword_follow_iff (k := .start tokens target) rfl hordered t

/-- The next keyword that a tracker ends with is the first start after the
cursor. -/
theorem nextKeyword_track (m : Model) (tokens : List Token) (target : Nat) :
    (track m tokens target).nextKeyword
      = (starts (parse m tokens).events).find? (target < ·.start) :=
  Tracker.nextKeyword_follow (k := .start tokens target) rfl _

/-- The marks of a script stand in order. -/
theorem ordered_marks (m : Model) (texts : ExternalTexts) (source : Source) :
    Ordered (marks (parse m (tokenize texts source).tokens).events) :=
  (ordered_tokenize texts source).sublist (marks_parse_sublist m _)

/-- The keyword of an analysis is the active one of its tokens, and no comment
hides it. -/
theorem activeKeyword_of_keyword {m : Model} {texts : ExternalTexts} {path : Option FilePath}
    {text : List Char} {position : Option LineChr} {t : Token}
    (hkeyword : (analyze m texts path text position).keyword = some t) :
    let a := analyze m texts path text position
    let events := (parse m a.tokens).events
    a.insideComment = false ∧ ActiveKeyword (starts events) (braces events) a.target t := by
  intro a events
  obtain ⟨hinside, htrack⟩ := analyze_tracker_of_keyword m texts path text position hkeyword
  have hordered : Ordered (marks events) := by
    show Ordered (marks (parse m (analyze m texts path text position).tokens).events)
    rw [analyze_tokens]
    exact ordered_marks m texts _
  exact ⟨hinside, (keyword_track_iff m hordered t).mp htrack⟩

/-- The keyword and the next keyword of an analysis. A comment hides the
keyword; apart from that it is the active one. -/
theorem analyze_keyword {texts : ExternalTexts} (hreader : NeverCrashes texts) (m : Model)
    (path : Option FilePath) (text : List Char) (position : Option LineChr) :
    let a := analyze m texts path text position
    let events := (parse m a.tokens).events
    let keyword := (track m a.tokens a.target).keyword
    a.keyword = (if a.insideComment then none else keyword)
      ∧ (∀ t, keyword = some t ↔ ActiveKeyword (starts events) (braces events) a.target t)
      ∧ a.nextKeyword = (starts events).find? (a.target < ·.start) := by
  intro a events keyword
  have hordered : Ordered (marks events) := by
    refine Ordered.sublist ?_ (marks_parse_sublist m a.tokens)
    rw [analyze_tokens]
    exact ordered_tokenize texts _
  obtain ⟨hkeyword, hnext, _⟩ := analyze_tracker m path text position hreader
  refine ⟨hkeyword, keyword_track_iff m hordered, ?_⟩
  rw [hnext]
  exact nextKeyword_track m a.tokens a.target

/-- The cursor is after the name in `module A;`. -/
theorem analyze_keyword_after_name :
    (analyze moduleModel (fun _ _ => .unavailable "none") none
      ['m', 'o', 'd', 'u', 'l', 'e', ' ', 'A', ';'] (some ⟨0, 8⟩)).keyword
      = some ⟨.word, "module", 0, 6⟩ := by
  have htext : textToRead ['m', 'o', 'd', 'u', 'l', 'e', ' ', 'A', ';'] (some ⟨0, 8⟩)
      = ['m', 'o', 'd', 'u', 'l', 'e', ' ', 'A', ';'] := rfl
  have hlex : lex ['m', 'o', 'd', 'u', 'l', 'e', ' ', 'A', ';'] =
      [⟨.word, ['m', 'o', 'd', 'u', 'l', 'e'], 0, 6⟩, ⟨.word, ['A'], 7, 8⟩,
        ⟨.special, [';'], 8, 9⟩] := by decide +kernel
  have htokens : (tokenize (fun _ _ => .unavailable "none") ⟨"document", none,
      ['m', 'o', 'd', 'u', 'l', 'e', ' ', 'A', ';']⟩).tokens =
      [⟨.word, "module", 0, 6⟩, ⟨.word, "A", 7, 8⟩, ⟨.special, ";", 8, 9⟩, .endAt 9] := by
    rw [tokenize, hlex]
    rfl
  have hcomments : comments ['m', 'o', 'd', 'u', 'l', 'e', ' ', 'A', ';'] = [] := by
    rw [comments, hlex]
    rfl
  have hreader : NeverCrashes fun _ _ => .unavailable "none" := fun _ _ _ h => (by cases h)
  obtain ⟨hshown, hactive, _⟩ := analyze_keyword hreader moduleModel none
    ['m', 'o', 'd', 'u', 'l', 'e', ' ', 'A', ';'] (some ⟨0, 8⟩)
  rw [analyze_tokens, analyze_target, htext, htokens] at hactive
  rw [hshown, analyze_insideComment, analyze_tokens, analyze_target, htext, htokens, hcomments]
  refine (hactive _).mpr ?_
  rw [parse, parseFrom_of_ok rfl rfl rfl, parseFrom_of_atEnd rfl]
  exact ⟨List.mem_singleton_self _, rfl, Nat.zero_le _, by decide, by decide, by decide⟩

end ConceptScript.Cursor

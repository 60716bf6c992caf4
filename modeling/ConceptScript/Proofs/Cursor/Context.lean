import ConceptScript.Cursor.Analysis
import ConceptScript.Proofs.Cursor.TextRead
import ConceptScript.Proofs.Cursor.Tracker
import ConceptScript.Proofs.Script.Blocks
import ConceptScript.Proofs.Script.Derivation
import ConceptScript.Proofs.Script.ParseStep
import ConceptScript.Proofs.Script.StreamCut

/-!
# `ConceptScript.Proofs.Cursor.Context`: the blocks around a cursor

The tracker keeps the concepts that the parser reported with the last
brace up to the cursor. `Block.encloses` says without the order of events
which blocks are meant: those whose opening brace stops at or before the
cursor, and whose closing brace does not.

* `context_follow`: the tracker ends up with the blocks left open by the
  braces up to the cursor.
* `reverse_openConcepts`: these are the blocks that enclose the cursor.
* `isCharacter_of_is`: a brace is a character of its own in the text. What
  stands in a quoted string, a reference or a comment is none.
-/

set_option autoImplicit false

namespace ConceptScript.Cursor

open ConceptScript.Text
open ConceptScript.Script
open ConceptScript.Files (FilePath)

/-! ### Braces before and after a cursor -/

/-- Braces in their order are those up to a cursor and those after it. -/
theorem exists_cut_at {bs : List Brace} (hordered : Ordered (bs.map Brace.token)) (target : Nat) :
    ∃ past future, bs = past ++ future ∧ (∀ b ∈ past, b.token.stop ≤ target)
      ∧ ∀ b ∈ future, target < b.token.stop := by
  induction bs with
  | nil => exact ⟨[], [], rfl, fun _ hb => absurd hb List.not_mem_nil,
      fun _ hb => absurd hb List.not_mem_nil⟩
  | cons b rest ih =>
    by_cases hstop : b.token.stop ≤ target
    · obtain ⟨past, future, rfl, hpast, hfuture⟩ :=
        ih (hordered.sublist (List.sublist_cons_self _ _))
      exact ⟨b :: past, future, rfl, List.forall_mem_cons.mpr ⟨hstop, hpast⟩, hfuture⟩
    · refine ⟨[], b :: rest, rfl, fun _ hb => absurd hb List.not_mem_nil,
        List.forall_mem_cons.mpr ⟨Nat.not_le.mp hstop, fun u hu => ?_⟩⟩
      have htoken : u.token ∈ rest.map Brace.token := List.mem_map_of_mem hu
      have hlater := (List.pairwise_cons.mp hordered.pairwise).1 u.token htoken
      have hle := hordered.start_le_stop u.token (List.mem_cons_of_mem _ htoken)
      omega

/-- The blocks that enclose a cursor are those that the braces up to the
cursor leave open. -/
theorem filter_encloses_append {past future : List Brace} {target : Nat}
    (hpast : ∀ b ∈ past, b.token.stop ≤ target) (hfuture : ∀ b ∈ future, target < b.token.stop) :
    ((blocksOf (past ++ future)).filter (Block.encloses target)).map (·.concept)
      = ((blocksOf past).filter (·.closing.isNone)).map (·.concept) := by
  induction past with
  | nil =>
    have hnone : (blocksOf future).filter (Block.encloses target) = [] := by
      refine List.filter_eq_nil_iff.mpr fun b hb => ?_
      have hopening := hfuture _ (mem_of_mem_blocksOf hb).1
      rw [Block.encloses, Bool.and_eq_true, decide_eq_true_eq]
      exact fun h => absurd h.1 (Nat.not_le.mpr hopening)
    exact congrArg (List.map _) hnone
  | cons b rest ih =>
    obtain ⟨hstop, hrest⟩ := List.forall_mem_cons.mp hpast
    cases b with
    | closing t => exact ih hrest
    | opening t n =>
      -- The block is closed before the cursor or it is not, whatever follows.
      have hencloses : Block.encloses target ⟨n, t, closingOf 0 (rest ++ future)⟩
          = (closingOf 0 rest).isNone := by
        have hopening : decide (t.stop ≤ target) = true := decide_eq_true hstop
        rw [Block.encloses, hopening, Bool.true_and]
        cases hclosing : closingOf 0 rest with
        | some u =>
          have hbefore := hrest _ (closing_mem_of_closingOf hclosing)
          rw [closingOf_append_of_some hclosing]
          exact decide_eq_false (Nat.not_lt.mpr hbefore)
        | none =>
          cases hlater : closingOf 0 (rest ++ future) with
          | none => rfl
          | some u =>
            have hafter := hfuture _ (closing_mem_of_closingOf_append hclosing hlater)
            exact decide_eq_true hafter
      rw [List.cons_append, blocksOf, blocksOf, List.filter_cons, List.filter_cons, hencloses]
      split
      · rw [List.map_cons, List.map_cons, ih hrest]
      · exact ih hrest

/-- The blocks that the braces up to a cursor leave open, from the outside
in, are those that enclose it. -/
theorem reverse_openConcepts {bs : List Brace} (hordered : Ordered (bs.map Brace.token))
    (target : Nat) : (openConcepts (bs.filter (·.token.stop ≤ target))).reverse
      = ((blocksOf bs).filter (Block.encloses target)).map (·.concept) := by
  obtain ⟨past, future, rfl, hpast, hfuture⟩ := exists_cut_at hordered target
  have hnone : future.filter (·.token.stop ≤ target) = [] :=
    List.filter_eq_nil_iff.mpr fun b hb h =>
      absurd (of_decide_eq_true h) (Nat.not_le.mpr (hfuture b hb))
  rw [List.filter_append, List.filter_eq_self.mpr fun b hb => decide_eq_true (hpast b hb), hnone,
    List.append_nil, openConcepts, List.reverse_reverse, filter_encloses_append hpast hfuture]

/-! ### The tracker -/

namespace Tracker

variable {k : Tracker}

/-- The tracker ends up with the blocks that the braces up to the cursor
leave open. -/
theorem context_follow (hnone : k.context = []) {events : List Event} {context : List Node}
    (hnested : Nested [] events context) (hordered : Ordered (marks events)) :
    (k.follow events).context =
      openConcepts ((readBraces events).filter (·.token.stop ≤ k.target)) := by
  -- The latest event decides, so the induction goes from the end.
  induction events using List.reverseRecOn generalizing context with
  | nil => exact hnone
  | append_singleton events e ih =>
    obtain ⟨middle, hbefore, hlatest⟩ := hnested.of_append
    have ih := ih hbefore (hordered.sublist (marks_append events [e] ▸
      List.sublist_append_left _ _))
    have htarget : (k.follow events).target = k.target := k.follow_target events
    rw [follow_concat, readBraces_append, List.filter_append]
    cases e with
    | statement r =>
      show ((k.follow events).onStatement r).context = openConcepts (_ ++ [])
      rw [onStatement_eq, List.append_nil, ← ih]
      (repeat' split) <;> rfl
    | member e =>
      obtain ⟨_, _, h⟩ := (k.follow events).onMember_eq e
      show ((k.follow events).onMember e).context = openConcepts (_ ++ [])
      rw [h, List.append_nil]
      exact ih
    | block r snapshot opening =>
      obtain ⟨rfl, b, hbrace, hlast⟩ := hlatest.block
      have hread : readBraces [.block r context opening] = [b] :=
        (readBraces_cons hbrace []).trans rfl
      show ((k.follow events).onBlock r context).context = _
      rw [onBlock_eq _ _ _ hlast, htarget, hread, List.filter_cons, List.filter_nil]
      by_cases hstop : b.token.stop ≤ k.target
      · -- All earlier braces stop before this one, so none is left out.
        have htokens : Ordered ((readBraces events).map Brace.token ++ [b.token]) := by
          have hsub := token_readBraces_sublist (events ++ [.block r context opening])
          rw [readBraces_append, hread, List.map_append] at hsub
          exact hordered.sublist hsub
        have hall : ∀ u ∈ readBraces events, u.token.stop ≤ k.target := by
          intro u hu
          have hearlier := (List.pairwise_append.mp htokens.pairwise).2.2 u.token
            (List.mem_map_of_mem hu) b.token (List.mem_singleton_self _)
          have hle := htokens.start_le_stop b.token
            (List.mem_append_right _ (List.mem_singleton_self _))
          omega
        rw [if_pos hstop, if_pos (decide_eq_true hstop),
          List.filter_eq_self.mpr fun u hu => decide_eq_true (hall u hu), ← hread,
          ← readBraces_append, ← stackAfter_nil]
        exact hnested.eq_stackAfter
      · rw [if_neg hstop, if_neg fun h => hstop (of_decide_eq_true h), List.append_nil]
        exact ih

end Tracker

/-! ### Braces in a text -/

/-- A token is a certain character that makes a lexeme by itself. What
stands in a quoted string, a reference or a comment is part of a lexeme of
another kind. -/
def IsCharacter (text : List Char) (c : Char) (t : Token) : Prop :=
  ∃ l ∈ lex text, l.kind = .special ∧ l.text = [c] ∧ l.start = t.start ∧ l.stop = t.stop

/-- A special token comes from a special lexeme, and its value is the text of
the lexeme. -/
theorem special_of_convert {texts : ExternalTexts} {source : Source} {l : Lexeme} {t : Token}
    (h : convert texts source l = .token t) (hkind : t.kind = .special) :
    l.kind = .special ∧ t.value = String.ofList l.text := by
  unfold convert at h
  dsimp only at h
  (repeat' split at h) <;> cases h <;> first | exact ⟨by assumption, rfl⟩ | cases hkind

/-- A token that is a character no word is spelled with is that character
in the text. -/
theorem isCharacter_of_is {texts : ExternalTexts} (hcalm : NeverCrashes texts) {source : Source}
    {t : Token} (ht : t ∈ (tokenize texts source).tokens) {c : Char}
    (hc : isWordChar c = false) (h : t.is (String.ofList [c]) = true) :
    IsCharacter source.text c t := by
  rw [tokenize_tokens hcalm] at ht
  rcases List.mem_append.mp ht with hmem | hend
  · obtain ⟨l, hl, hconvert⟩ := exists_of_mem_convertAll hmem
    have hkeeps := keeps_of_convert hconvert
    have hvalue : t.value = String.ofList [c] := Token.eq_of_is h
    have hkind : t.kind = .special ∨ t.kind = .word := by
      have hkinds := (Bool.and_eq_true_iff.mp h).1
      simpa using hkinds
    -- A special token is its character; a word would be spelled with it.
    cases hkind with
    | inl hspecial =>
      obtain ⟨hlexeme, htext⟩ := special_of_convert hconvert hspecial
      exact ⟨l, hl, hlexeme, String.ofList_injective (htext.symm.trans hvalue),
        hkeeps.start.symm, hkeeps.stop.symm⟩
    | inr hword =>
      obtain ⟨hlexeme, htext⟩ := hkeeps.word hword
      have hspelled : l.text = [c] := String.ofList_injective (htext.symm.trans hvalue)
      have hc' := isWordChar_of_word hl hlexeme c (hspelled ▸ List.mem_singleton_self c)
      exact absurd (hc.symm.trans hc') Bool.false_ne_true
  · cases List.mem_singleton.mp hend
    cases h

/-! ### Analyses -/

/-- The context of an analysis: from the outside in, the concepts of the
blocks that enclose the cursor, whatever stopped the parser. The braces of
blocks are characters of their own in the text, and a block belongs to the
concept of the statement that its opening brace ends. -/
theorem analyze_context {texts : ExternalTexts} (hcalm : NeverCrashes texts) (m : Model)
    (path : Option FilePath) (text : List Char) (position : Option LineChr) :
    let a := analyze m texts path text position
    let events := (parse m a.tokens).events
    let blocks := blocksOf (readBraces events)
    a.context.reverse = (blocks.filter (·.encloses a.target)).map (·.concept)
      ∧ ∀ b ∈ blocks, IsCharacter a.text '\x7b' b.opening
        ∧ (∀ t ∈ b.closing, IsCharacter a.text '\x7d' t)
        ∧ ∃ s outer next, .statement s ∈ events
          ∧ (readStatement m outer s).2 = .ok (b.concept, next) ∧ next.current = b.opening := by
  intro a events blocks
  have hsub : (marks events).Sublist a.tokens := marks_parse_sublist m a.tokens
  have hordered : Ordered (marks events) := by
    refine Ordered.sublist ?_ hsub
    rw [analyze_tokens]
    exact ordered_tokenize texts _
  have htokens : Ordered ((readBraces events).map Brace.token) :=
    hordered.sublist (token_readBraces_sublist events)
  -- What the parser reports is nested from no open blocks on, wherever it stopped.
  obtain ⟨context, hnested⟩ := nested_parseFrom m [] (.ofTokens a.tokens)
  obtain ⟨_, _, htracker, _⟩ := analyze_tracker m path text position hcalm
  refine ⟨?_, fun b hb => ?_⟩
  · rw [← reverse_openConcepts htokens, htracker]
    exact congrArg List.reverse
      (Tracker.context_follow (k := .start a.tokens a.target) rfl hnested hordered)
  · have hcharacter : ∀ brace ∈ readBraces events, ∀ c, isWordChar c = false →
        brace.text = String.ofList [c] → IsCharacter a.text c brace.token := by
      intro brace hbrace c hc htext
      have hmem : brace.token ∈ a.tokens :=
        hsub.subset ((token_readBraces_sublist events).subset (List.mem_map_of_mem hbrace))
      rw [analyze_tokens] at hmem
      rw [analyze_text]
      exact isCharacter_of_is hcalm hmem hc (htext ▸ hnested.is_of_mem_readBraces hbrace)
    obtain ⟨hopening, hclosing⟩ := mem_of_mem_blocksOf hb
    obtain ⟨r, outer, hevent, hlast⟩ := exists_event_of_opening hopening
    obtain ⟨s, next, hstatement, hok, htry⟩ := exists_statement_of_opening hevent
    obtain ⟨t, _, hreads⟩ := Reader.tryRead_eq_some_iff.mp htry
    have ht : t = b.opening := Option.some.inj ((last?_of_reads hreads).symm.trans hlast)
    exact ⟨hcharacter _ hopening '\x7b' rfl rfl,
      fun t ht => hcharacter _ (hclosing t ht) '\x7d' rfl rfl, s, outer, next, hstatement, hok,
      ht ▸ Reader.current_of_reads hreads⟩

/-- The cursor is at the end of `module '{' {`. The quoted brace opens no
block, the other one does, and nothing closes it. -/
theorem analyze_context_unclosed :
    (analyze moduleModel (fun _ _ => .unavailable "none") none
      ['m', 'o', 'd', 'u', 'l', 'e', ' ', '\x27', '\x7b', '\x27', ' ', '\x7b']
      (some ⟨0, 12⟩)).context = [.mk 0 [.text "\x7b"]] := by
  have htext : textToRead
      ['m', 'o', 'd', 'u', 'l', 'e', ' ', '\x27', '\x7b', '\x27', ' ', '\x7b'] (some ⟨0, 12⟩)
      = ['m', 'o', 'd', 'u', 'l', 'e', ' ', '\x27', '\x7b', '\x27', ' ', '\x7b'] := rfl
  have hlex : lex ['m', 'o', 'd', 'u', 'l', 'e', ' ', '\x27', '\x7b', '\x27', ' ', '\x7b'] =
      [⟨.word, ['m', 'o', 'd', 'u', 'l', 'e'], 0, 6⟩,
        ⟨.quoted .single true, ['\x27', '\x7b', '\x27'], 7, 10⟩,
        ⟨.special, ['\x7b'], 11, 12⟩] := by decide +kernel
  have htokens : (tokenize (fun _ _ => .unavailable "none") ⟨"document", none,
      ['m', 'o', 'd', 'u', 'l', 'e', ' ', '\x27', '\x7b', '\x27', ' ', '\x7b']⟩).tokens =
      [⟨.word, "module", 0, 6⟩, ⟨.quoted .single, "\x7b", 7, 10⟩, ⟨.special, "\x7b", 11, 12⟩,
        .endAt 12] := by
    rw [tokenize, hlex]
    rfl
  have hcalm : NeverCrashes fun _ _ => .unavailable "none" := fun _ _ _ h => (by cases h)
  have hblocks := (analyze_context hcalm moduleModel none
    ['m', 'o', 'd', 'u', 'l', 'e', ' ', '\x27', '\x7b', '\x27', ' ', '\x7b'] (some ⟨0, 12⟩)).1
  rw [analyze_tokens, analyze_target, htext, htokens] at hblocks
  refine List.reverse_inj.mp (hblocks.trans ?_)
  rw [parse, parseFrom_of_ok rfl rfl rfl, parseFrom_events_of_atEnd rfl]
  rfl

end ConceptScript.Cursor

import ConceptScript.Proofs.Cursor.CutStream
import ConceptScript.Proofs.Cursor.TextRead
import ConceptScript.Proofs.Script.Derivation

/-!
# `ConceptScript.Proofs.Cursor.Truncation`: reading up to the cursor's line

An analysis at a cursor reads the script up to the end of the cursor's
line. This is sound: what it says about the cursor is what a tracker says
that has followed the whole script (`analyze_eq_whole`). Only the next
keyword can differ, and the faults.

The condition is that the cut is not inside a quoted string or a reference
that starts before the cursor (`Uncut`). One that starts at the cursor may
be cut through.
-/

set_option autoImplicit false

namespace ConceptScript.Script

open ConceptScript.Text

/-- A lexeme that is still open is no comment, as a comment ends with the
text. -/
theorem isComment_of_isOpen {l : Lexeme} (h : l.kind.isOpen = true) : l.isComment = false := by
  cases hkind : l.kind <;> simp_all [LexemeKind.isOpen, Lexeme.isComment]

/-- The comments of a text cut after a line with a cursor, and those of the
whole text. -/
theorem comments_cut {a b : List Char} {target : Nat} (ha : EndsLine a) (hb : b ≠ [])
    (htarget : target < byteLen a)
    (hstretch : ∀ l ∈ lex (a ++ b), l.kind.isStretch = true → l.start < target →
      l.stop ≤ byteLen a) :
    ∃ more, comments (a ++ b) = comments a ++ more
      ∧ ∀ c ∈ more, target ≤ c.start ∧ target < c.stop := by
  obtain ⟨ls, lost, ls', hcut, hwhole, hlost, hbeyond⟩ := lex_cut ha hb htarget hstretch
  have hnone : lost.filter Lexeme.isComment = [] := by
    rw [List.filter_eq_nil_iff]
    intro l hl
    rw [isComment_of_isOpen (hlost l hl)]
    exact Bool.false_ne_true
  refine ⟨(ls'.filter Lexeme.isComment).map fun l =>
    ⟨.comment, String.ofList l.text, l.start, l.stop⟩, ?_, ?_⟩
  · rw [comments, comments, hcut, hwhole, List.filter_append, List.filter_append, hnone,
      List.append_nil, List.map_append]
  · intro c hc
    obtain ⟨l, hl, rfl⟩ := List.mem_map.mp hc
    obtain ⟨hstart, hstop, _⟩ := hbeyond l (List.mem_of_mem_filter hl)
    exact ⟨hstart, hstop⟩

end ConceptScript.Script

namespace ConceptScript.Cursor

open ConceptScript.Text
open ConceptScript.Script
open ConceptScript.Files (FilePath)

/-! ### The start -/

/-- A tracker that starts on a stream sees only the tokens before the
cursor. -/
theorem Tracker.start_append {target : Nat} (pre : List Token) {rest : List Token}
    (h : ∀ t ∈ rest, t.isEnd = true ∨ t.Beyond target) :
    Tracker.start (pre ++ rest) target = Tracker.start pre target := by
  have hnot : ∀ t ∈ rest, (!t.isEnd && t.start < target) = false := by
    intro t ht
    rcases h t ht with hend | hbeyond
    · rw [hend]
      rfl
    · rw [decide_eq_false (Nat.not_lt.mpr hbeyond.start), Bool.and_false]
  rw [start, lastIndex?_append pre hnot]
  rfl

/-- A tracker on a stream that is cut short beyond the cursor ends up with
the same, apart from the next keyword. -/
theorem track_withoutNext (m : Model) {target : Nat} {last : Token} {pre post : List Token}
    (hlast : last.isEnd = true) (hplain : ∀ t ∈ pre, t.Plain)
    (hbeyond : ∀ t ∈ post, t.Beyond target) :
    (track m (pre ++ [last]) target).withoutNext = (track m (pre ++ post) target).withoutNext := by
  have hcommon : Common last post (Tracker.start pre target) pre
      (.ofTokens (pre ++ [last])) (.ofTokens (pre ++ post)) := by
    -- All tokens before the cursor are common to both streams.
    refine ⟨⟨rfl, rfl, rfl⟩, hplain, hbeyond, fun i hi => ?_⟩
    exact lastIndex?_lt hi
  rw [track, track,
    Tracker.start_append pre (List.forall_mem_singleton.mpr (.inl hlast)),
    Tracker.start_append pre fun t ht => .inr (hbeyond t ht)]
  exact Tracker.agreeBelow m hlast post (pre.length + 1) _ [] pre _ _ hcommon
    (Nat.lt_succ_self _)

/-! ### Comments -/

/-- Comments beyond the cursor do not matter, and lines only up to it. -/
theorem inComment_append {text cut : List Char} {target : Nat} (cs : List Token)
    {more : List Token} (hmore : ∀ c ∈ more, target ≤ c.start ∧ target < c.stop)
    (hline : ∀ offset ≤ target, (lineChrOf cut offset).line = (lineChrOf text offset).line) :
    inComment cut cs target = inComment text (cs ++ more) target := by
  have hinside : (more.any fun c => c.start < target && target < c.stop) = false := by
    rw [List.any_eq_false]
    intro c hc
    rw [decide_eq_false (Nat.not_lt.mpr (hmore c hc).1), Bool.false_and]
    exact Bool.false_ne_true
  have hbefore : more.filter (·.stop ≤ target) = [] := by
    rw [List.filter_eq_nil_iff]
    intro c hc
    rw [decide_eq_false (Nat.not_le.mpr (hmore c hc).2)]
    exact Bool.false_ne_true
  rw [inComment, inComment, List.any_append, hinside, Bool.or_false, List.filter_append, hbefore,
    List.append_nil, hline target (Nat.le_refl _)]
  cases hlast : (cs.filter (·.stop ≤ target)).getLast? with
  | none => rfl
  | some c =>
    -- The last comment before the cursor is the same in both.
    have hstop : c.stop ≤ target :=
      of_decide_eq_true (List.mem_filter.mp (List.mem_of_getLast? hlast)).2
    show (_ || (lineChrOf cut c.stop).line == _) = (_ || (lineChrOf text c.stop).line == _)
    rw [hline c.stop hstop]

/-! ### Analyses -/

/-- No quoted string or reference of a text starts before a cursor and goes
on after its line. -/
def Uncut (text : List Char) (p : LineChr) : Prop :=
  ∀ l ∈ lex text, l.kind.isStretch = true → l.start < offsetOf text p →
    l.stop ≤ byteLen (throughLine text p.line)

/-- What a tracker says about a cursor that has followed the whole script. -/
def trackWhole (m : Model) (texts : ExternalTexts) (path : Option FilePath) (text : List Char)
    (p : LineChr) : Tracker :=
  track m (tokenize texts ⟨"document", path, text⟩).tokens (offsetOf text p)

/-- The text that an analysis reads is all of it, or ends with a line. Then
the cursor is before the end of that, and the cut is as `Uncut` says. -/
theorem textToRead_cases {text : List Char} {p : LineChr} (huncut : Uncut text p) :
    textToRead text (some p) = text ∨
      ∃ a b, text = a ++ b ∧ textToRead text (some p) = a ∧ b ≠ [] ∧ EndsLine a
        ∧ offsetOf text p < byteLen a
        ∧ ∀ l ∈ lex (a ++ b), l.kind.isStretch = true → l.start < offsetOf text p →
          l.stop ≤ byteLen a := by
  obtain ⟨b, hb⟩ := textToRead_isPrefix text (some p)
  rcases textToRead_cut text (some p) with hall | ⟨a, ha, hle⟩
  · exact .inl hall
  · by_cases hnil : b = []
    · rw [hnil, List.append_nil] at hb
      exact .inl hb
    · have htext : text = a ++ ['\n'] ++ b := by rw [← ha, hb]
      refine .inr ⟨a ++ ['\n'], b, htext, ha, hnil, endsLine_newline a, ?_, ?_⟩
      · rw [byteLen_append, byteLen_newline]
        exact Nat.lt_succ_of_le hle
      · rw [← htext, ← ha, textToRead_some]
        exact huncut

/-- The tracker of the cut script ends up like that of the whole script,
apart from the next keyword. -/
theorem track_textToRead {texts : ExternalTexts} (hcalm : NeverCrashes texts)
    (hfixed : FixedByPath texts) (m : Model) (path : Option FilePath) {text : List Char}
    {p : LineChr} (huncut : Uncut text p) :
    (track m (tokenize texts ⟨"document", path, textToRead text (some p)⟩).tokens
        (offsetOf text p)).withoutNext
      = (trackWhole m texts path text p).withoutNext := by
  rcases textToRead_cases huncut with hall | ⟨a, b, htext, hread, hb, ha, htarget, hstretch⟩
  · rw [hall, trackWhole]
  · obtain ⟨pre, post, last, hcut, hwhole, hlast, hplain, hbeyond⟩ :=
      tokenize_cut hcalm hfixed "document" path ha hb htarget hstretch
    rw [hread, hcut, trackWhole]
    rw [← htext] at hwhole
    rw [hwhole]
    exact track_withoutNext m hlast hplain hbeyond

/-- Whether a position is in a comment does not depend on the lines after it,
if no string or reference goes on over the end of its line. -/
theorem inComment_textToRead {text : List Char} {p : LineChr} (huncut : Uncut text p) :
    inComment (textToRead text (some p)) (comments (textToRead text (some p))) (offsetOf text p)
      = inComment text (comments text) (offsetOf text p) := by
  rcases textToRead_cases huncut with hall | ⟨a, b, htext, hread, hb, ha, htarget, hstretch⟩
  · rw [hall]
  · obtain ⟨more, hmore, hbeyond⟩ := comments_cut ha hb htarget hstretch
    rw [← htext] at hmore
    rw [hread, hmore]
    -- The lines up to the cursor are before the cut.
    refine inComment_append _ hbeyond fun offset hle => ?_
    rw [← hread, textToRead_some] at htarget ⊢
    exact congrArg LineChr.line
      (lineChrOf_throughLine text p.line offset (Nat.le_of_lt (Nat.lt_of_le_of_lt hle htarget)))

/-- An analysis at a cursor says what a tracker says that has followed the
whole script, hidden by the comments of the whole script. The next
keyword and the faults may differ. -/
theorem analyze_eq_whole {texts : ExternalTexts} (hcalm : NeverCrashes texts)
    (hfixed : FixedByPath texts) (m : Model) (path : Option FilePath) {text : List Char}
    {p : LineChr} (huncut : Uncut text p) :
    let a := analyze m texts path text (some p)
    let whole := trackWhole m texts path text p
    let inside := inComment text (comments text) (offsetOf text p)
    a.keyword = (if inside then none else whole.keyword) ∧ a.context = whole.context
      ∧ a.lastRead = whole.lastRead ∧ a.valid = whole.valid ∧ a.insideComment = inside := by
  intro a whole inside
  have htarget : targetIn (textToRead text (some p)) (some p) = offsetOf text p :=
    targetIn_textToRead text (some p)
  have hinside : a.insideComment = inside := by
    rw [analyze_insideComment, htarget]
    exact inComment_textToRead huncut
  -- The two trackers differ in the next keyword at most.
  obtain ⟨hkeyword, hcontext, hlast, hvalid⟩ :=
    Tracker.eq_of_withoutNext_eq (track_textToRead hcalm hfixed m path huncut)
  obtain ⟨hkeyword', _, hcontext', hlast', hvalid'⟩ :=
    analyze_tracker m path text (some p) hcalm
  rw [analyze_tokens, analyze_target, htarget] at hkeyword' hcontext' hlast' hvalid'
  refine ⟨?_, hcontext'.trans hcontext, hlast'.trans hlast, hvalid'.trans hvalid, hinside⟩
  rw [hkeyword', hkeyword, hinside]

/-- The cursor is after the `A` of an entity `A."B"` whose name goes on over
the end of the line. The name is cut through. -/
theorem analyze_eq_whole_before_quoted :
    Uncut ['e', 'n', 't', 'i', 't', 'y', ' ', 'A', '.', '"', 'B', '\n', '"', ';'] ⟨0, 8⟩
      ∧ (analyze moduleModel (fun _ _ => .unavailable "none") none
          ['e', 'n', 't', 'i', 't', 'y', ' ', 'A', '.', '"', 'B', '\n', '"', ';']
          (some ⟨0, 8⟩)).valid = [1] := by
  have hlex : lex ['e', 'n', 't', 'i', 't', 'y', ' ', 'A', '.', '"', 'B', '\n', '"', ';'] =
      [⟨.word, ['e', 'n', 't', 'i', 't', 'y'], 0, 6⟩, ⟨.word, ['A'], 7, 8⟩,
        ⟨.special, ['.'], 8, 9⟩, ⟨.quoted .double true, ['"', 'B', '\n', '"'], 9, 13⟩,
        ⟨.special, [';'], 13, 14⟩] := by decide +kernel
  have huncut : Uncut ['e', 'n', 't', 'i', 't', 'y', ' ', 'A', '.', '"', 'B', '\n', '"', ';']
      ⟨0, 8⟩ := by
    rw [Uncut, hlex]
    decide
  have htokens : (tokenize (fun _ _ => .unavailable "none") ⟨"document", none,
      ['e', 'n', 't', 'i', 't', 'y', ' ', 'A', '.', '"', 'B', '\n', '"', ';']⟩).tokens =
      [⟨.word, "entity", 0, 6⟩, ⟨.word, "A", 7, 8⟩, ⟨.special, ".", 8, 9⟩,
        ⟨.quoted .double, "B\n", 9, 13⟩, ⟨.special, ";", 13, 14⟩, .endAt 14] := by
    rw [tokenize, hlex]
    rfl
  have hcalm : NeverCrashes fun _ _ => .unavailable "none" := fun _ _ _ h => (by cases h)
  obtain ⟨_, _, _, hvalid, _⟩ :=
    analyze_eq_whole hcalm (fun _ _ _ => rfl) moduleModel none huncut
  refine ⟨huncut, ?_⟩
  rw [hvalid, trackWhole, htokens, track, parse, parseFrom_of_ok rfl rfl rfl,
    parseFrom_of_atEnd rfl]
  rfl

end ConceptScript.Cursor

import ConceptScript.Assist.Hover
import ConceptScript.Proofs.Cursor.Comments
import ConceptScript.Proofs.Cursor.Keyword
import ConceptScript.Proofs.Cursor.Truncation
import ConceptScript.Proofs.Script.LexPrefix
import ConceptScript.Proofs.Script.LexemeEnds
import ConceptScript.Proofs.Text.Boundaries

/-!
# `ConceptScript.Proofs.Assist.Hover`: the word that a description is about

A description of a keyword comes with the places between which the keyword
stands. They are worked out in the text up to the end of the cursor's line,
and have to hold in the script that is shown, which goes on.

They do, because the keyword is a word:

* `lexeme_of_keyword`: a word that stands in the first lines of a text is one
  of the text, so the cut does not change it.
* `uncut_of_mem_lex`: as it reaches the cursor, no string or reference that
  starts before the cursor goes on after the line. So the cut does not change
  the comments before the cursor, and not what starts a statement.
* `hover_covers_keyword`: what follows for the whole script.
-/

set_option autoImplicit false

namespace ConceptScript.Script

open ConceptScript.Text

/-- What stands between the ends of a lexeme is its text. -/
theorem slice?_of_mem_lex {text : List Char} {l : Lexeme} (h : l ∈ lex text) :
    slice? text l.start l.stop = some l.text := by
  obtain ⟨a, b, htext, hstart, hstop⟩ := ((tiles_lex text).isSlice l h).slice
  rw [Nat.zero_add] at hstart
  rw [hstop, hstart, ← byteLen_append, htext, List.append_assoc]
  exact slice?_byteLen a l.text b

/-- The places of the ends of a lexeme lead back to them. -/
theorem offsetOf_of_mem_lex {text : List Char} {l : Lexeme} (h : l ∈ lex text) :
    offsetOf text (lineChrOf text l.start) = l.start
      ∧ offsetOf text (lineChrOf text l.stop) = l.stop :=
  ⟨settled_iff.mp (settled_of_mem_lex h).1, settled_iff.mp (settled_of_mem_lex h).2⟩

/-- A word at which a statement starts is a lexeme of the script. -/
theorem lexeme_of_mem_starts {m : Model} {texts : ExternalTexts} {source : Source} {t : Token}
    (h : t ∈ starts (parse m (tokenize texts source).tokens).events) (hword : t.kind = .word) :
    ∃ l ∈ lex source.text, l.kind = .word ∧ t = ⟨.word, String.ofList l.text, l.start, l.stop⟩ := by
  have hmem : t ∈ (tokenize texts source).tokens :=
    (marks_parse_sublist m _).subset (mem_marks_of_mem_starts h)
  rcases exists_lexeme_of_mem_tokens hmem with rfl | ⟨l, hl, hconvert⟩
  · cases hword
  · have hkeeps := keeps_of_convert hconvert
    obtain ⟨hkind, hvalue⟩ := hkeeps.word hword
    refine ⟨l, hl, hkind, ?_⟩
    rw [← hword, ← hvalue, ← hkeeps.start, ← hkeeps.stop]

end ConceptScript.Script

namespace ConceptScript.Assist

open ConceptScript.Text
open ConceptScript.Script
open ConceptScript.Cursor
open ConceptScript.Files (FilePath)

variable {m : Model} {texts : ExternalTexts} {path : Option FilePath} {text : List Char}
  {p : LineChr} {t : Token} {h : Hover}

/-- There is a description when the cursor touches the keyword and this is
known. -/
theorem hover_eq_some {a : Analysis} (hhover : hover m a = some h) :
    ∃ t, a.keyword = some t ∧ t.start ≤ a.target ∧ a.target ≤ t.stop ∧ m.byKeyword t.value ≠ []
      ∧ h.keyword = t.value ∧ h.span = ⟨lineChrOf a.text t.start, lineChrOf a.text t.stop⟩ := by
  unfold hover at hhover
  split at hhover
  · cases hhover
  · next t hkeyword =>
    split at hhover
    · next htouches =>
      obtain ⟨contents, hcontents, rfl⟩ := Option.map_eq_some_iff.mp hhover
      obtain ⟨hstart, hstop⟩ := Bool.and_eq_true_iff.mp htouches
      refine ⟨t, hkeyword, of_decide_eq_true hstart, of_decide_eq_true hstop, ?_, rfl, rfl⟩
      intro hunknown
      rw [Model.fullDescription, Model.signaturesFor, hunknown] at hcontents
      cases hcontents
    · cases hhover

/-- The keyword of an analysis is a word of the whole script, and stands in
what was read of it. -/
theorem lexeme_of_keyword (hkeyword : (analyze m texts path text (some p)).keyword = some t) :
    ∃ l ∈ lex text, t = ⟨.word, String.ofList l.text, l.start, l.stop⟩
      ∧ l.start < l.stop ∧ l.stop ≤ byteLen (throughLine text p.line) := by
  obtain ⟨_, hactive⟩ := activeKeyword_of_keyword hkeyword
  have hstart := hactive.mem
  rw [analyze_tokens] at hstart
  obtain ⟨l, hl, hkind, rfl⟩ := lexeme_of_mem_starts hstart hactive.isWord
  have hslice := (tiles_lex _).isSlice l hl
  have hle := hslice.stop_le
  rw [Nat.zero_add, textToRead_some] at hle
  obtain ⟨rest, htext, hlines⟩ := textToRead_lines text (some p)
  refine ⟨l, ?_, rfl, hslice.length, hle⟩
  rw [htext]
  exact mem_lex_append hlines hl (by rw [hkind]; rfl)

/-- A cursor that a lexeme reaches is not behind the start of a string or
reference that the cut goes through. -/
theorem uncut_of_mem_lex {l : Lexeme} (hl : l ∈ lex text) (hreaches : offsetOf text p ≤ l.stop)
    (hle : l.stop ≤ byteLen (throughLine text p.line)) : Uncut text p := by
  intro l' hl' _ hlt
  exact ((tiles_lex text).stop_le_of_start_lt hl hl' (hlt.trans_le hreaches)).trans hle

/-- Where the cut is not in a string or reference before the cursor, the
keyword of an analysis starts a statement of the whole script. -/
theorem mem_starts_of_keyword (hcalm : NeverCrashes texts) (hfixed : FixedByPath texts)
    (huncut : Uncut text p) (hkeyword : (analyze m texts path text (some p)).keyword = some t) :
    t ∈ starts (parse m (tokenize texts ⟨"document", path, text⟩).tokens).events := by
  obtain ⟨_, htrack⟩ := analyze_tracker_of_keyword m texts path text (some p) hkeyword
  rw [analyze_tokens, analyze_target, targetIn_textToRead] at htrack
  have hsame : _ = (trackWhole m texts path text p).keyword :=
    (Tracker.eq_of_withoutNext_eq (track_textToRead hcalm hfixed m path huncut)).1
  have hordered := ordered_marks m texts ⟨"document", path, text⟩
  exact ((keyword_track_iff m hordered t).mp (hsame.symm.trans htrack)).mem

/-- A description is about a word of the whole script. The cursor touches it,
and the places lead back to its ends. -/
theorem lexeme_of_hover (hhover : hover m (analyze m texts path text (some p)) = some h) :
    ∃ l ∈ lex text, h.keyword = String.ofList l.text
      ∧ (analyze m texts path text (some p)).keyword
        = some ⟨.word, h.keyword, l.start, l.stop⟩
      ∧ m.byKeyword h.keyword ≠ []
      ∧ l.start ≤ offsetOf text p ∧ offsetOf text p ≤ l.stop
      ∧ l.stop ≤ byteLen (throughLine text p.line)
      ∧ offsetOf text h.span.start = l.start ∧ offsetOf text h.span.stop = l.stop := by
  obtain ⟨t, hkeyword, hbefore, hafter, hknown, hword, hspan⟩ := hover_eq_some hhover
  obtain ⟨l, hl, rfl, hlength, hle⟩ := lexeme_of_keyword hkeyword
  rw [analyze_target, targetIn_textToRead] at hbefore hafter
  -- The ends of the word have the same places in the whole text.
  rw [analyze_text, textToRead_some,
    lineChrOf_throughLine _ _ _ ((Nat.le_of_lt hlength).trans hle),
    lineChrOf_throughLine _ _ _ hle] at hspan
  refine ⟨l, hl, hword, hword ▸ hkeyword, hword ▸ hknown, hbefore, hafter, hle, ?_⟩
  rw [hspan]
  exact offsetOf_of_mem_lex hl

/-- A description is about the keyword under the cursor, in the whole script
and not just in what was read of it. The cursor is between its ends or at one
of them, and what stands between them is the keyword. It is known, it is a
word at which a statement starts, also when the whole script is read, and no
comment is around the cursor. -/
theorem hover_covers_keyword
    (hhover : hover m (analyze m texts path text (some p)) = some h) :
    let a := analyze m texts path text (some p)
    let target := offsetOf text p
    let start := offsetOf text h.span.start
    let stop := offsetOf text h.span.stop
    let t : Token := ⟨.word, h.keyword, start, stop⟩
    (start ≤ target ∧ target ≤ stop)
      ∧ slice? text start stop = some h.keyword.toList
      ∧ m.byKeyword h.keyword ≠ []
      ∧ t ∈ starts (parse m a.tokens).events
      ∧ (NeverCrashes texts → FixedByPath texts →
        t ∈ starts (parse m (tokenize texts ⟨"document", path, text⟩).tokens).events)
      ∧ a.insideComment = false
      ∧ inComment text (comments text) target = false
      ∧ ∀ c ∈ comments text, ¬(c.start < target ∧ target ≤ c.stop) := by
  obtain ⟨l, hl, hword, hkeyword, hknown, hbefore, hafter, hle, hstart, hstop⟩ :=
    lexeme_of_hover hhover
  intro a target start stop t
  have ht : t = ⟨.word, h.keyword, l.start, l.stop⟩ := by
    rw [← hstart, ← hstop]
  have hslice : slice? text start stop = some h.keyword.toList := by
    rw [hword, String.toList_ofList, ← slice?_of_mem_lex hl, ← hstart, ← hstop]
  obtain ⟨hinside, hactive⟩ := activeKeyword_of_keyword hkeyword
  -- The keyword reaches the cursor, so no string or reference from before it goes on after it.
  have huncut : Uncut text p := uncut_of_mem_lex hl hafter hle
  have houtside : inComment text (comments text) target = false := by
    rw [analyze_insideComment, targetIn_textToRead] at hinside
    exact (inComment_textToRead huncut).symm.trans hinside
  have hnone : ∀ c ∈ comments text, ¬(c.start < target ∧ target ≤ c.stop) := by
    intro c hc hwithin
    obtain ⟨u, v, huv, hu, _⟩ := settled_offsetOf text p
    have hcomment := (inComment_iff ⟨u, v, huv, hu⟩).mpr (.inl ⟨c, hc, hwithin⟩)
    exact Bool.eq_false_iff.mp houtside hcomment
  refine ⟨⟨hstart.trans_le hbefore, hafter.trans_eq hstop.symm⟩, hslice, hknown,
    ht ▸ hactive.mem, fun hcalm hfixed => ?_, hinside, houtside, hnone⟩
  exact ht ▸ mem_starts_of_keyword hcalm hfixed huncut hkeyword

/-- The cursor is in the first `module`. The script goes on on the next line
with a string that is not closed, so the whole of it has a fault. -/
theorem hover_covers_keyword_before_open_string :
    let text := "module A; // a\nmodule 'B".toList
    let a := analyze moduleModel (fun _ _ => .unavailable "none") none text (some ⟨0, 3⟩)
    ∃ h, hover moduleModel a = some h ∧ h.keyword = "module" ∧ h.span = ⟨⟨0, 0⟩, ⟨0, 6⟩⟩
      ∧ slice? text (offsetOf text h.span.start) (offsetOf text h.span.stop)
        = some "module".toList
      ∧ ⟨.word, "module", offsetOf text h.span.start, offsetOf text h.span.stop⟩
        ∈ starts (parse moduleModel (tokenize (fun _ _ => .unavailable "none")
          ⟨"document", none, text⟩).tokens).events
      ∧ inComment text (comments text) 3 = false := by
  intro text a
  have hcalm : NeverCrashes fun _ _ => .unavailable "none" := fun _ _ _ h => (by cases h)
  have hhover : hover moduleModel a
      = some ⟨"Module <Name: String>", "module", ⟨0, 0⟩, ⟨0, 6⟩⟩ := by
    decide +kernel
  obtain ⟨_, hslice, _, _, hstarts, _, houtside, _⟩ := hover_covers_keyword hhover
  exact ⟨_, hhover, rfl, rfl, hslice, hstarts hcalm fun _ _ _ => rfl, houtside⟩

end ConceptScript.Assist

import ConceptScript.Proofs.Cursor.TextRead
import ConceptScript.Proofs.Script.Derivation
import ConceptScript.Proofs.Script.LexemeEnds
import ConceptScript.Proofs.Script.Upheld

/-!
# `ConceptScript.Proofs.Cursor.ErrorSpans`: spans of syntax errors

A syntax error is about a stretch of the script, given in offsets. On its
way to a finding it becomes a line and a column, both from one, and then a
place again, and whoever gets the finding may want the offsets back. They
come back exactly, since no error starts or stops in a character or between
`\r` and `\n`:

* `RangeOf`: the stretch is that of a token, or of the lexeme that no token
  could be made of, or it is empty at the end of the text.
* `RangeOf.settled`: none of these parts a character or a line end.
* `findings_point_at_range`: so the span of a finding leads back to the
  stretch, and its ends are places of the text in order.
-/

set_option autoImplicit false

namespace ConceptScript.Cursor

open ConceptScript.Text
open ConceptScript.Script
open ConceptScript.Files (FilePath)

variable {m : Model} {texts : ExternalTexts} {source : Source} {e : SyntaxError}

/-! ### Ranges -/

/-- The stretch of a script that a syntax error is about. -/
inductive RangeOf (texts : ExternalTexts) (source : Source) (e : SyntaxError) : Prop
  /-- A token, at which parsing failed. -/
  | token {t : Token} (mem : t ∈ (tokenize texts source).tokens) (isEnd : t.isEnd = false)
      (start : e.start = t.start) (stop : e.stop = t.stop)
  /-- The lexeme that stopped the stream of tokens. -/
  | lexeme {l : Lexeme} (mem : l ∈ lex source.text)
      (stops : convert texts source l = .stopped (.faulty e))
      (start : e.start = l.start) (stop : e.stop = l.stop)
  /-- Nothing, at the end of the script. -/
  | atEnd (start : e.start = byteLen source.text) (stop : e.stop = byteLen source.text)

/-- The fault of a script is about one of these stretches, and its span is
between their places. -/
theorem range_of_faultOf (hcalm : ∀ message, (tokenize texts source).ending ≠ .crashed message)
    (h : faultOf m source.text (tokenize texts source) = some e) :
    RangeOf texts source e
      ∧ e.span = ⟨lineChrOf source.text e.start, lineChrOf source.text e.stop⟩ := by
  unfold faultOf at h
  split at h
  · next herror =>
    cases h
    obtain ⟨l, hl, hstops⟩ := exists_lexeme_of_faulty (TokenStream.error_eq_some_iff.mp herror)
    obtain ⟨fault, rfl⟩ := exists_inText_of_convert hstops
    exact ⟨.lexeme hl hstops rfl rfl, rfl⟩
  · split at h
    · cases h
    · next failure hfailure =>
      cases h
      refine ⟨?_, rfl⟩
      rw [tokenize_tokens_of_calm hcalm] at hfailure
      have hmem := getD_index_mem rfl hfailure
      rw [← tokenize_tokens_of_calm hcalm] at hmem
      -- The parser stopped at a token of the script, or at its end.
      rcases exists_lexeme_of_mem_tokens hmem with hend | ⟨l, _, hconvert⟩
      · exact .atEnd (congrArg Token.start hend) (congrArg Token.stop hend)
      · exact .token hmem (keeps_of_convert hconvert).isEnd rfl rfl

/-- No range of an error parts a character or a line end, and none goes
backwards. -/
theorem RangeOf.settled (h : RangeOf texts source e) :
    Settled source.text e.start ∧ Settled source.text e.stop ∧ e.start ≤ e.stop := by
  have hlexeme : ∀ l ∈ lex source.text, Settled source.text l.start ∧ Settled source.text l.stop
      ∧ l.start ≤ l.stop := fun l hl =>
    ⟨(settled_of_mem_lex hl).1, (settled_of_mem_lex hl).2,
      Nat.le_of_lt ((tiles_lex source.text).isSlice l hl).length⟩
  cases h with
  | @token t ht hnotEnd hstart hstop =>
    rw [hstart, hstop]
    rcases exists_lexeme_of_mem_tokens ht with rfl | ⟨l, hl, hconvert⟩
    · cases hnotEnd
    · rw [(keeps_of_convert hconvert).start, (keeps_of_convert hconvert).stop]
      exact hlexeme l hl
  | @lexeme l hl _ hstart hstop =>
    rw [hstart, hstop]
    exact hlexeme l hl
  | atEnd hstart hstop =>
    rw [hstart, hstop]
    exact ⟨settled_byteLen _, settled_byteLen _, Nat.le_refl _⟩

/-! ### Lines and columns -/

/-- A place as people count it: line and column, both from one. -/
structure LineColumn where
  line : Nat
  column : Nat
  deriving DecidableEq, Repr

namespace LineColumn

/-- A place counted from one. -/
def ofPlace (p : LineChr) : LineColumn := ⟨p.line + 1, p.chr + 1⟩

/-- A line and a column counted from zero. There is nothing before the
first of either. -/
def place (q : LineColumn) : LineChr := ⟨q.line - 1, q.column - 1⟩

/-- Counting a place from one and back gives the place. -/
theorem place_ofPlace (p : LineChr) : (ofPlace p).place = p := rfl

/-- This is how messages give a place. -/
theorem fromOne_eq (p : LineChr) :
    p.fromOne = toString (ofPlace p).line ++ "," ++ toString (ofPlace p).column := rfl

end LineColumn

/-- A span points at a stretch of a text: it is the places of the two
offsets, counted from one and back, its ends are places of the text in order,
and they lead back to the offsets. -/
structure PointsAt (text : List Char) (start stop : Nat) (span : Span) : Prop where
  start_eq : span.start = (LineColumn.ofPlace (lineChrOf text start)).place
  stop_eq : span.stop = (LineColumn.ofPlace (lineChrOf text stop)).place
  ordered : span.start ≤ span.stop
  start_isPlace : span.start.line < lineCount text
    ∧ span.start.chr ≤ lineLength text span.start.line
  stop_isPlace : span.stop.line < lineCount text ∧ span.stop.chr ≤ lineLength text span.stop.line
  start_back : offsetOf text span.start = start
  stop_back : offsetOf text span.stop = stop

/-- Offsets between characters that are in order make a span that points at
what is between them. -/
theorem pointsAt_of_settled {text : List Char} {start stop : Nat} (hstart : Settled text start)
    (hstop : Settled text stop) (hle : start ≤ stop) :
    PointsAt text start stop ⟨lineChrOf text start, lineChrOf text stop⟩ where
  start_eq := (LineColumn.place_ofPlace _).symm
  stop_eq := (LineColumn.place_ofPlace _).symm
  ordered := lineChrOf_mono text hle
  start_isPlace := lineChrOf_isPlace text start
  stop_isPlace := lineChrOf_isPlace text stop
  start_back := settled_iff.mp hstart
  stop_back := settled_iff.mp hstop

/-- A whole script is reported for a crash, or for a syntax error in a span
that points at the error's stretch of the script. -/
theorem findings_point_at_range (m : Model) (texts : ExternalTexts) (path : Option FilePath)
    (text : List Char) :
    let a := analyze m texts path text none
    let source : Source := ⟨"document", path, text⟩
    ∀ f ∈ a.findings,
      (∃ message, (tokenize texts source).ending = .crashed message ∧ f = .ofCrash message)
        ∨ ∃ e, faultOf m text (tokenize texts source) = some e ∧ f = .ofSyntaxError e
          ∧ PointsAt text e.start e.stop f.span ∧ RangeOf texts source e := by
  intro a source f hf
  rw [show a.findings = reported m texts source from analyze_findings m texts path text none] at hf
  by_cases hcrash : ∃ message, (tokenize texts source).ending = .crashed message
  · obtain ⟨message, hmessage⟩ := hcrash
    rw [reported_of_crashed m hmessage] at hf
    exact .inl ⟨message, hmessage, List.mem_singleton.mp hf⟩
  · have hcalm : ∀ message, (tokenize texts source).ending ≠ .crashed message :=
      fun message h => hcrash ⟨message, h⟩
    rw [reported_of_calm m hcalm, Option.mem_toList, Option.map_eq_some_iff] at hf
    obtain ⟨e, he, rfl⟩ := hf
    obtain ⟨hrange, hspan⟩ := range_of_faultOf hcalm he
    obtain ⟨hstart, hstop, hle⟩ := hrange.settled
    refine .inr ⟨e, he, rfl, ?_, hrange⟩
    rw [show (Finding.ofSyntaxError e).span = _ from hspan]
    exact pointsAt_of_settled hstart hstop hle

/-- An unknown keyword of seven bytes on the second line, after `\r\n`. -/
theorem finding_points_at_keyword :
    let text := "Module A;\r\nÉtoile x;".toList
    let f : Finding :=
      ⟨"Unrecognized concept keyword \"Étoile\".", ⟨⟨1, 0⟩, ⟨1, 6⟩⟩, .error, some .e0301⟩
    f ∈ (analyze moduleModel (fun _ _ => .unavailable "none") none text none).findings
      ∧ PointsAt text 11 18 f.span := by
  intro text f
  have hmem : f ∈ (analyze moduleModel (fun _ _ => .unavailable "none") none text none).findings :=
    by decide +kernel
  rcases findings_point_at_range moduleModel (fun _ _ => .unavailable "none") none text f hmem with
    ⟨message, _, hcrash⟩ | ⟨e, _, _, hpoints, _⟩
  · cases congrArg Finding.code hcrash
  · have hstart : e.start = 11 := hpoints.start_back.symm.trans (by decide +kernel)
    have hstop : e.stop = 18 := hpoints.stop_back.symm.trans (by decide +kernel)
    exact ⟨hmem, hstart ▸ hstop ▸ hpoints⟩

end ConceptScript.Cursor

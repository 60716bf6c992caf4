import ConceptScript.Cursor.Analysis
import ConceptScript.Proofs.Script.LexCut
import ConceptScript.Proofs.Script.Tokens
import ConceptScript.Proofs.Text.LineOf

/-!
# `ConceptScript.Proofs.Cursor.TextRead`: the text that an analysis reads

An analysis at a cursor cuts the text after the line of the cursor and
works out the offset of the cursor once more, in what is left. The
theorems say what it gets:

* `textToRead_some`: the text through the line of the cursor.
* `targetIn_textToRead`: the offset that the cursor has in the whole text.
* `analyze_eq_of_offsetOf_eq`: so two cursors with the same offset in the
  whole text have the same analysis, up to the cursor it records.

What it then says of the cursor is what a tracker says (`analyze_tracker`),
unless reading an external text crashes.
-/

set_option autoImplicit false

namespace ConceptScript.Cursor

open ConceptScript.Text
open ConceptScript.Script
open ConceptScript.Files (FilePath)

/-- For a position the text is read through its line. -/
theorem textToRead_some (text : List Char) (p : LineChr) :
    textToRead text (some p) = throughLine text p.line := by
  rw [textToRead, truncateAtLineEnd_offsetOf, Option.getD_some]

/-- A position has the same offset in what is read of the text. -/
theorem targetIn_textToRead (text : List Char) (position : Option LineChr) :
    targetIn (textToRead text position) position = targetIn text position := by
  cases position with
  | none => rfl
  | some p =>
    rw [textToRead_some]
    exact offsetOf_throughLine text p

/-- The offset of a cursor is not between `\r` and `\n`. -/
theorem settled_targetIn (text : List Char) (position : Option LineChr) :
    Settled text (targetIn text position) := by
  cases position with
  | none => exact ⟨[], text, rfl, rfl, fun h => by cases h.1⟩
  | some p => exact settled_offsetOf text p

/-- The text that is read is all of it, or it ends with a `\n` that stands
at or after the cursor. -/
theorem textToRead_cut (text : List Char) (position : Option LineChr) :
    textToRead text position = text ∨
      ∃ a, textToRead text position = a ++ ['\n'] ∧ targetIn text position ≤ byteLen a := by
  cases position with
  | none => exact .inl rfl
  | some p =>
    rw [textToRead_some]
    exact throughLine_cut text p

/-- What is read of a text stands at its front. -/
theorem textToRead_isPrefix (text : List Char) (position : Option LineChr) :
    textToRead text position <+: text := by
  cases position with
  | none => exact List.prefix_rfl
  | some p =>
    rw [textToRead_some]
    exact throughLine_isPrefix text p.line

/-- The text that is read is made of whole lines, or it is all there is. -/
theorem textToRead_lines (text : List Char) (position : Option LineChr) :
    ∃ rest, text = textToRead text position ++ rest
      ∧ (EndsLine (textToRead text position) ∨ rest = []) := by
  obtain ⟨rest, hrest⟩ := textToRead_isPrefix text position
  refine ⟨rest, hrest.symm, ?_⟩
  rcases textToRead_cut text position with hall | ⟨a, ha, _⟩
  · rw [hall] at hrest
    exact .inr (List.append_right_eq_self.mp hrest)
  · exact .inl (ha ▸ endsLine_newline a)

/-- Cursors with one offset share an analysis, up to the cursor that is
recorded in it. -/
theorem analyze_eq_of_offsetOf_eq (m : Model) (texts : ExternalTexts) (path : Option FilePath)
    {text : List Char} {p q : LineChr} (h : offsetOf text p = offsetOf text q) :
    { analyze m texts path text (some p) with position := some q }
      = analyze m texts path text (some q) := by
  have hread : textToRead text (some p) = textToRead text (some q) := by
    show (truncateAtLineEnd text (offsetOf text p)).getD text = _
    rw [h]
    rfl
  have htarget : targetIn (textToRead text (some p)) (some p)
      = targetIn (textToRead text (some q)) (some q) := by
    rw [targetIn_textToRead, targetIn_textToRead]
    exact h
  rw [hread] at htarget
  simp only [analyze, hread, htarget]
  split <;> rfl

/-- An analysis tells the position it was asked for. -/
theorem analyze_position (m : Model) (texts : ExternalTexts) (path : Option FilePath)
    (text : List Char) (position : Option LineChr) :
    (analyze m texts path text position).position = position := by
  simp only [analyze]
  split <;> rfl

/-- An analysis always comes to its end. -/
theorem analyze_completed (m : Model) (texts : ExternalTexts) (path : Option FilePath)
    (text : List Char) (position : Option LineChr) :
    (analyze m texts path text position).completed = true := by
  simp only [analyze]
  split <;> rfl

/-- What a script is reported for: a crash, or else its fault. -/
def reported (m : Model) (texts : ExternalTexts) (source : Source) : List Finding :=
  match (tokenize texts source).ending with
  | .crashed message => [.ofCrash message]
  | _ => ((faultOf m source.text (tokenize texts source)).map .ofSyntaxError).toList

/-- If reading an external text crashes, this is all that is reported. -/
theorem reported_of_crashed (m : Model) {texts : ExternalTexts} {source : Source}
    {message : String} (h : (tokenize texts source).ending = .crashed message) :
    reported m texts source = [.ofCrash message] := by
  rw [reported, h]

/-- If nothing crashes, the fault is reported, if there is one. -/
theorem reported_of_calm (m : Model) {texts : ExternalTexts} {source : Source}
    (h : ∀ message, (tokenize texts source).ending ≠ .crashed message) :
    reported m texts source
      = ((faultOf m source.text (tokenize texts source)).map .ofSyntaxError).toList := by
  unfold reported
  split
  · next message hcrashed => exact absurd hcrashed (h message)
  · rfl

section

variable (m : Model) (texts : ExternalTexts) (path : Option FilePath) (text : List Char)
  (position : Option LineChr)

/-- An analysis keeps the text that it has read. The lemmas down to
`analyze_tracker` tell one part of an analysis each, whether or not a crash
cut it short. -/
theorem analyze_text :
    (analyze m texts path text position).text = textToRead text position := by
  simp only [analyze]
  split <;> rfl

/-- The tokens of an analysis are those of the text that it has read. -/
theorem analyze_tokens :
    (analyze m texts path text position).tokens
      = (tokenize texts ⟨"document", path, textToRead text position⟩).tokens := by
  simp only [analyze]
  split <;> rfl

/-- The comments of an analysis are those of the text that it has read. -/
theorem analyze_comments :
    (analyze m texts path text position).comments = comments (textToRead text position) := by
  simp only [analyze]
  split <;> rfl

/-- The cursor of an analysis is the offset of the position. -/
theorem analyze_target :
    (analyze m texts path text position).target
      = targetIn (textToRead text position) position := by
  simp only [analyze]
  split <;> rfl

/-- The cursor is taken to be in a comment by the comments of the text that
was read. -/
theorem analyze_insideComment :
    (analyze m texts path text position).insideComment
      = inComment (textToRead text position) (comments (textToRead text position))
        (targetIn (textToRead text position) position) := by
  simp only [analyze]
  split <;> rfl

/-- What an analysis finds is what is reported for the text that it has read. -/
theorem analyze_findings :
    (analyze m texts path text position).findings
      = reported m texts ⟨"document", path, textToRead text position⟩ := by
  simp only [analyze]
  split
  · next hcrashed => exact (reported_of_crashed m hcrashed).symm
  · next hcalm => exact (reported_of_calm m hcalm).symm

/-- Unless reading crashed, an analysis says what the tracker of its tokens
says. A comment hides the keyword. -/
theorem analyze_tracker_of_ending (h : ∀ message,
    (tokenize texts ⟨"document", path, textToRead text position⟩).ending ≠ .crashed message) :
    let a := analyze m texts path text position
    let k := track m a.tokens a.target
    a.keyword = (if a.insideComment then none else k.keyword)
      ∧ a.nextKeyword = k.nextKeyword ∧ a.context = k.context ∧ a.lastRead = k.lastRead
      ∧ a.valid = k.valid := by
  unfold analyze
  dsimp only
  split
  · next message hcrash => exact absurd hcrash (h message)
  · exact ⟨rfl, rfl, rfl, rfl, rfl⟩

/-- Without crashes, what is told of the cursor comes from the tracker of the
parse. In a comment the keyword is left out. -/
theorem analyze_tracker {texts : ExternalTexts} (hcalm : NeverCrashes texts) :
    let a := analyze m texts path text position
    let k := track m a.tokens a.target
    a.keyword = (if a.insideComment then none else k.keyword)
      ∧ a.nextKeyword = k.nextKeyword ∧ a.context = k.context ∧ a.lastRead = k.lastRead
      ∧ a.valid = k.valid :=
  analyze_tracker_of_ending m texts path text position (ending_tokenize hcalm _)

/-- After a crash there is no keyword, and in a comment there is none. So a
keyword comes from the tracker. -/
theorem analyze_tracker_of_keyword {t : Token}
    (h : (analyze m texts path text position).keyword = some t) :
    let a := analyze m texts path text position
    a.insideComment = false ∧ (track m a.tokens a.target).keyword = some t := by
  intro a
  have hending : ∀ message,
      (tokenize texts ⟨"document", path, textToRead text position⟩).ending ≠ .crashed message := by
    intro message hcrash
    simp only [analyze, hcrash] at h
    cases h
  obtain ⟨hkeyword, _⟩ := analyze_tracker_of_ending m texts path text position hending
  change a.keyword = _ at hkeyword
  rw [show a.keyword = some t from h] at hkeyword
  split at hkeyword
  · cases hkeyword
  · next hinside => exact ⟨Bool.eq_false_iff.mpr hinside, hkeyword.symm⟩

/-- After a crash nothing is kept of members. So whatever is kept of them
comes from the tracker, and then so does the keyword. -/
theorem analyze_tracker_of_lastRead
    (h : (analyze m texts path text position).lastRead ≠ []) :
    let a := analyze m texts path text position
    let k := track m a.tokens a.target
    a.lastRead = k.lastRead ∧ ∀ t, a.keyword = some t → k.keyword = some t := by
  intro a k
  have hending : ∀ message,
      (tokenize texts ⟨"document", path, textToRead text position⟩).ending ≠ .crashed message := by
    intro message hcrash
    simp only [analyze, hcrash] at h
    exact h rfl
  obtain ⟨_, _, _, hlastRead, _⟩ :=
    analyze_tracker_of_ending m texts path text position hending
  exact ⟨hlastRead, fun t ht => (analyze_tracker_of_keyword m texts path text position ht).2⟩

end

end ConceptScript.Cursor

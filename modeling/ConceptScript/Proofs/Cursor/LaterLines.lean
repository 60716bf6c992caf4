import ConceptScript.Proofs.Cursor.TextRead
import ConceptScript.Proofs.Script.Derivation
import ConceptScript.Proofs.Script.LexCut
import ConceptScript.Proofs.Text.RoundTrip

/-!
# `ConceptScript.Proofs.Cursor.LaterLines`: what stands after the cursor's line

An analysis cuts the text after the line of its cursor, and then works out
the offset of the cursor in what is left. So nothing that stands on later
lines can be seen in it.

* `exists_lineAt_throughLine`: what is left ends with the whole line of the
  cursor, the `\n` included (`LineAt`).
* `analyze_congr`: an analysis depends on its text through what is left of
  it alone, whoever reads the external texts.
* `analyze_ignores_later_lines`: two texts that are alike through the `\n` of
  the cursor's line have the same analysis.

A cursor past the last line is on the last line, and all is left.
-/

set_option autoImplicit false

namespace ConceptScript.Cursor

open ConceptScript.Text
open ConceptScript.Script
open ConceptScript.Files (FilePath)

/-- A line of a text, given by its number, with what stands before and after
it. The `\n` that ends a line is part of it, and only the last line has
none. -/
structure LineAt (text : List Char) (n : Nat) (before line after : List Char) : Prop where
  whole : text = before ++ line ++ after
  number : before.count '\n' = n
  starts : EndsLine before
  unbroken : '\n' ∉ line.dropLast
  stops : after ≠ [] → line.getLast? = some '\n'

/-- In a text without `\n` the only line is all of it. -/
theorem LineAt.of_not_mem {l : List Char} (h : '\n' ∉ l) : LineAt l 0 [] l [] where
  whole := (List.append_nil l).symm
  number := rfl
  starts _ hc := (by cases hc)
  unbroken hmem := h (List.dropLast_subset l hmem)
  stops hafter := absurd rfl hafter

/-- The first line of a text goes up to and including the first `\n`. -/
theorem LineAt.first {l : List Char} (h : '\n' ∉ l) (rest : List Char) :
    LineAt (l ++ '\n' :: rest) 0 [] (l ++ ['\n']) rest where
  whole := List.append_cons l '\n' rest
  number := rfl
  starts _ hc := (by cases hc)
  unbroken := by rwa [List.dropLast_concat]
  stops _ := List.getLast?_concat

/-- A line comes one later in a text with one more line in front. -/
theorem LineAt.after_line {l text before line after : List Char} {n : Nat} (h : '\n' ∉ l)
    (hline : LineAt text n before line after) :
    LineAt (l ++ '\n' :: text) (n + 1) (l ++ '\n' :: before) line after where
  whole := by rw [hline.whole, List.append_assoc, List.append_assoc, List.append_assoc]; rfl
  number := by
    rw [List.count_append, List.count_eq_zero.mpr h, List.count_cons_self, hline.number,
      Nat.zero_add]
  starts := by
    cases before with
    | nil => exact endsLine_newline l
    | cons c before =>
      intro d hd
      rw [List.getLast?_append, List.getLast?_cons_cons] at hd
      refine hline.starts d ?_
      rwa [List.getLast?_eq_some_getLast (List.cons_ne_nil c before)] at hd ⊢
  unbroken := hline.unbroken
  stops := hline.stops

/-- A text through a line ends with this line, whole. Past the last line it
is the last one. -/
theorem exists_lineAt_throughLine (text : List Char) (n : Nat) :
    ∃ before line after, LineAt text (min n (lineCount text - 1)) before line after
      ∧ throughLine text n = before ++ line := by
  induction text using lineInduction generalizing n with
  | last l h =>
    rw [lineCount_last h, Nat.sub_self, Nat.min_zero, throughLine_last h]
    exact ⟨[], l, [], .of_not_mem h, rfl⟩
  | more l rest h ih =>
    rw [lineCount_more h, Nat.add_sub_cancel]
    cases n with
    | zero =>
      rw [Nat.zero_min, throughLine_zero h]
      exact ⟨[], l ++ ['\n'], rest, .first h rest, rfl⟩
    | succ n =>
      have hpos := lineCount_pos rest
      have hmin : min (n + 1) (lineCount rest) = min n (lineCount rest - 1) + 1 := by omega
      obtain ⟨before, line, after, hline, hread⟩ := ih n
      rw [hmin, throughLine_succ h, hread]
      refine ⟨l ++ '\n' :: before, line, after, hline.after_line h, ?_⟩
      rw [List.append_assoc, List.cons_append]

/-- The text through a line that ends with a `\n`, told by counting. -/
theorem throughLine_count (shared later : List Char) :
    throughLine (shared ++ '\n' :: later) (shared.count '\n') = shared ++ ['\n'] := by
  induction shared using lineInduction with
  | last l h => rw [List.count_eq_zero.mpr h, throughLine_zero h]
  | more l rest h ih =>
    have hcount : (l ++ '\n' :: rest).count '\n' = rest.count '\n' + 1 := by
      rw [List.count_append, List.count_eq_zero.mpr h, List.count_cons_self, Nat.zero_add]
    rw [hcount, List.append_assoc, List.cons_append, throughLine_succ h, ih, List.append_assoc,
      List.cons_append]

/-- Texts of which the same is read have the same analysis. -/
theorem analyze_congr (m : Model) (texts : ExternalTexts) (path : Option FilePath)
    {text text' : List Char} {position : Option LineChr}
    (h : textToRead text position = textToRead text' position) :
    analyze m texts path text position = analyze m texts path text' position := by
  simp only [analyze, h]

/-- An analysis at a cursor reads through the whole line of the cursor and no
further. The cut never fails, and it leaves the cursor's offset as it is. So
two texts that are alike through the `\n` of this line have one analysis. -/
theorem analyze_ignores_later_lines (m : Model) (texts : ExternalTexts) (path : Option FilePath)
    (p : LineChr) :
    (∀ text, let a := analyze m texts path text (some p)
      truncateAtLineEnd text (offsetOf text p) = some a.text
        ∧ (∃ before line after, LineAt text (min p.line (lineCount text - 1)) before line after
          ∧ a.text = before ++ line)
        ∧ offsetOf a.text p = offsetOf text p ∧ a.target = offsetOf text p)
      ∧ ∀ shared later later' : List Char, shared.count '\n' = p.line →
        analyze m texts path (shared ++ '\n' :: later) (some p)
          = analyze m texts path (shared ++ '\n' :: later') (some p) := by
  constructor
  · intro text a
    have hread : a.text = throughLine text p.line := by
      rw [analyze_text, textToRead_some]
    have htarget : a.target = offsetOf text p := by
      rw [analyze_target, targetIn_textToRead]
      rfl
    rw [hread]
    exact ⟨truncateAtLineEnd_offsetOf text p, exists_lineAt_throughLine text p.line,
      offsetOf_throughLine text p, htarget⟩
  · intro shared later later' hline
    -- What is read of either text is what they share, with the end of the line.
    refine analyze_congr m texts path ?_
    rw [textToRead_some, textToRead_some, ← hline, throughLine_count, throughLine_count]

/-- The cursor is after the keyword on the second line. What follows is the
rest of the block, or a string that never ends. -/
theorem analyze_ignores_open_string :
    "Module A \x7b\r\n Entity ".toList.count '\n' = 1
      ∧ analyze moduleModel (fun _ _ => .unavailable "none") none
          ("Module A \x7b\r\n Entity ".toList ++ '\n' :: "B; \x7d".toList) (some ⟨1, 8⟩)
        = analyze moduleModel (fun _ _ => .unavailable "none") none
          ("Module A \x7b\r\n Entity ".toList ++ '\n' :: "'".toList) (some ⟨1, 8⟩) :=
  ⟨by decide, (analyze_ignores_later_lines moduleModel (fun _ _ => .unavailable "none") none
    ⟨1, 8⟩).2 "Module A \x7b\r\n Entity ".toList "B; \x7d".toList "'".toList (by decide)⟩

end ConceptScript.Cursor

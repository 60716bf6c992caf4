import ConceptScript.Text.Lines

/-!
# `ConceptScript.Proofs.Text.LineCut`: a text up to the end of a line

`throughLine text n` is the text up to and including its line `n`, given
by its lines. The theorems say that this is what cutting after a place
does, and that the cut text answers questions about the place as the
whole text does:

* `truncateAtLineEnd_offsetOf`: a text cut at the first line end after a
  place is the text through the line of the place. A place never points
  inside a character, so there always is an answer.
* `offsetOf_throughLine`: the place has the same offset in the cut text.
* `lineChrOf_throughLine`: an offset up to the cut has the same place in
  both.
* `throughLine_cut`: what is cut off is nothing, or follows a `\n` that
  stands at or after the place.

All of them go by induction on the lines of the text (`lineInduction`).
-/

set_option autoImplicit false

namespace ConceptScript.Text

/-! ### Bytes -/

/-- The bytes of two texts one after the other add up. -/
theorem byteLen_append (a b : List Char) : byteLen (a ++ b) = byteLen a + byteLen b := by
  induction a with
  | nil => exact (Nat.zero_add _).symm
  | cons c rest ih =>
    show c.utf8Size + byteLen (rest ++ b) = c.utf8Size + byteLen rest + byteLen b
    rw [ih, Nat.add_assoc]

/-- A stretch at the front of a text is no longer than the text. -/
theorem byteLen_le_of_isPrefix {a b : List Char} (h : a <+: b) : byteLen a ≤ byteLen b := by
  obtain ⟨rest, rfl⟩ := h
  rw [byteLen_append]
  omega

/-- A `\n` is one byte. -/
theorem byteLen_newline : byteLen ['\n'] = 1 := rfl

/-- A text that is not empty has a byte. -/
theorem byteLen_pos {a : List Char} (h : a ≠ []) : 0 < byteLen a := by
  cases a with
  | nil => exact absurd rfl h
  | cons c rest =>
    have := c.utf8Size_pos
    show 0 < c.utf8Size + byteLen rest
    omega

/-- The characters of a text are those of a stretch at its front and those
after it. -/
theorem append_cons_eq_append {s rest a b : List Char} {c : Char} (h : s ++ rest = a ++ c :: b) :
    (∃ b', s = a ++ c :: b' ∧ b = b' ++ rest) ∨ ∃ a', a = s ++ a' ∧ rest = a' ++ c :: b := by
  rcases List.append_eq_append_iff.mp h with ⟨a', ha, hrest⟩ | ⟨b', hs, hrest⟩
  · exact .inr ⟨a', ha, hrest⟩
  · cases b' with
    | nil =>
      refine .inr ⟨[], ?_, hrest.symm⟩
      rw [List.append_nil] at hs
      rw [List.append_nil, hs]
    | cons d b' =>
      obtain ⟨rfl, hb⟩ := List.cons.inj hrest
      exact .inl ⟨b', hs, hb⟩

/-! ### Lines -/

/-- A text without `\n` is one line. -/
theorem lines_of_not_mem {l : List Char} (h : '\n' ∉ l) : lines l = [l] := by
  induction l with
  | nil => rfl
  | cons c rest ih =>
    obtain ⟨hc, hrest⟩ := List.ne_and_not_mem_of_not_mem_cons h
    rw [lines, if_neg (Ne.symm hc), ih hrest]

/-- A line with its `\n` is the first line, and the lines of the rest follow. -/
theorem lines_append_newline {l : List Char} (h : '\n' ∉ l) (rest : List Char) :
    lines (l ++ '\n' :: rest) = (l ++ ['\n']) :: lines rest := by
  induction l with
  | nil => rfl
  | cons c l ih =>
    obtain ⟨hc, hl⟩ := List.ne_and_not_mem_of_not_mem_cons h
    show lines (c :: (l ++ '\n' :: rest)) = _
    rw [lines, if_neg (Ne.symm hc), ih hl]
    rfl

/-- Every text has a line, be it an empty one. -/
theorem lines_ne_nil (text : List Char) : lines text ≠ [] := by
  cases text with
  | nil => exact List.cons_ne_nil _ _
  | cons c rest =>
    rw [lines]
    split
    · exact List.cons_ne_nil _ _
    · split <;> exact List.cons_ne_nil _ _

/-- A text is a line without an end, or a line with its end and a text
after it. -/
theorem exists_firstLine (text : List Char) :
    '\n' ∉ text ∨ ∃ l rest, '\n' ∉ l ∧ text = l ++ '\n' :: rest := by
  induction text with
  | nil => exact .inl List.not_mem_nil
  | cons c text ih =>
    by_cases hc : c = '\n'
    · exact .inr ⟨[], text, List.not_mem_nil, by rw [hc]; rfl⟩
    · rcases ih with h | ⟨l, rest, hl, rfl⟩
      · exact .inl (List.not_mem_cons_of_ne_of_not_mem (Ne.symm hc) h)
      · exact .inr ⟨c :: l, rest, List.not_mem_cons_of_ne_of_not_mem (Ne.symm hc) hl, rfl⟩

/-- Induction on the lines of a text: `last` is for the line that ends
the text, `more` for a line with the `\n` that ends it. -/
theorem lineInduction {P : List Char → Prop} (last : ∀ l, '\n' ∉ l → P l)
    (more : ∀ l rest, '\n' ∉ l → P rest → P (l ++ '\n' :: rest)) (text : List Char) : P text := by
  rcases exists_firstLine text with h | ⟨l, rest, hl, rfl⟩
  · exact last text h
  · exact more l rest hl (lineInduction last more rest)
termination_by text.length
decreasing_by
  subst_vars
  rw [List.length_append, List.length_cons]
  omega

/-- The content of a line stands at its front: only the line end is dropped. -/
theorem content_isPrefix (l : List Char) : content l <+: l := by
  fun_induction content l with
  | case1 => exact List.nil_prefix
  | case2 => exact List.nil_prefix
  | case3 => exact List.nil_prefix
  | case4 c rest _ _ ih => exact (List.prefix_cons_inj c).mpr ih

/-- The content of a line stops before the `\n`. -/
theorem content_newline_isPrefix (l : List Char) : content (l ++ ['\n']) <+: l := by
  induction l with
  | nil => exact List.nil_prefix
  | cons c rest ih =>
    show content (c :: (rest ++ ['\n'])) <+: c :: rest
    unfold content
    split
    · exact List.nil_prefix
    · next h => simp at h
    · next h => exact List.nil_prefix
    · next c' rest' _ _ h =>
      obtain ⟨rfl, rfl⟩ := List.cons.inj h
      exact (List.prefix_cons_inj c).mpr ih

/-! ### A place on a line -/

/-- The offset of a place on the last line is the length of a stretch at
the front of it. -/
theorem offsetOf_last {l : List Char} (h : '\n' ∉ l) (p : LineChr) :
    offsetOf l p = byteLen ((content l).take p.chr) := by
  rw [offsetOf, lines_of_not_mem h]
  rfl

/-- A place in the first line is found in the content of this line, and at
its end if the line has fewer characters. -/
theorem offsetOf_zero {l : List Char} (h : '\n' ∉ l) (rest : List Char) (chr : Nat) :
    offsetOf (l ++ '\n' :: rest) ⟨0, chr⟩ = byteLen ((content (l ++ ['\n'])).take chr) := by
  rw [offsetOf, lines_append_newline h]
  cases hlines : lines rest with
  | nil => exact absurd hlines (lines_ne_nil rest)
  | cons next more => rfl

/-- A place in a later line is one line further up in the rest of the text. -/
theorem offsetOf_succ {l : List Char} (h : '\n' ∉ l) (rest : List Char) (n chr : Nat) :
    offsetOf (l ++ '\n' :: rest) ⟨n + 1, chr⟩
      = byteLen (l ++ ['\n']) + offsetOf rest ⟨n, chr⟩ := by
  rw [offsetOf, offsetOf, lines_append_newline h]
  cases hlines : lines rest with
  | nil => exact absurd hlines (lines_ne_nil rest)
  | cons next more => rfl

/-! ### Cutting -/

/-- A text up to and including a line, or all of it if the line is past
its last. -/
def throughLine (text : List Char) (n : Nat) : List Char := ((lines text).take (n + 1)).flatten

/-- A text of one line is whole, whatever line it is asked up to. -/
theorem throughLine_last {l : List Char} (h : '\n' ∉ l) (n : Nat) : throughLine l n = l := by
  rw [throughLine, lines_of_not_mem h]
  simp

/-- Up to its first line a text is this line with its `\n`. -/
theorem throughLine_zero {l : List Char} (h : '\n' ∉ l) (rest : List Char) :
    throughLine (l ++ '\n' :: rest) 0 = l ++ ['\n'] := by
  rw [throughLine, lines_append_newline h]
  simp

/-- Up to a later line a text is its first line and the rest up to the line
before. -/
theorem throughLine_succ {l : List Char} (h : '\n' ∉ l) (rest : List Char) (n : Nat) :
    throughLine (l ++ '\n' :: rest) (n + 1) = l ++ '\n' :: throughLine rest n := by
  rw [throughLine, throughLine, lines_append_newline h, List.take_succ_cons, List.flatten_cons,
    List.append_assoc]
  rfl

/-- A text of one line is its first line. -/
theorem firstLine_of_not_mem {l : List Char} (h : '\n' ∉ l) : firstLine l = l := by
  induction l with
  | nil => rfl
  | cons c rest ih =>
    obtain ⟨hc, hrest⟩ := List.ne_and_not_mem_of_not_mem_cons h
    rw [firstLine, if_neg (Ne.symm hc), ih hrest]

/-- The first line goes up to and including the first `\n`. -/
theorem firstLine_append_newline {l : List Char} (h : '\n' ∉ l) (rest : List Char) :
    firstLine (l ++ '\n' :: rest) = l ++ ['\n'] := by
  induction l with
  | nil => rfl
  | cons c l ih =>
    obtain ⟨hc, hl⟩ := List.ne_and_not_mem_of_not_mem_cons h
    show firstLine (c :: (l ++ '\n' :: rest)) = _
    rw [firstLine, if_neg (Ne.symm hc), ih hl]
    rfl

/-- A cut after a stretch `a` leaves `a` whole. -/
theorem truncateAtLineEnd_append (a b : List Char) (offset : Nat) :
    truncateAtLineEnd (a ++ b) (byteLen a + offset)
      = (truncateAtLineEnd b offset).map (a ++ ·) := by
  induction a with
  | nil =>
    show truncateAtLineEnd b (0 + offset) = _
    rw [Nat.zero_add]
    exact Option.map_id'.symm
  | cons c rest ih =>
    have hpos := c.utf8Size_pos
    obtain ⟨k, hk⟩ : ∃ k, c.utf8Size + byteLen rest + offset = k + 1 :=
      ⟨c.utf8Size + byteLen rest + offset - 1, by omega⟩
    show truncateAtLineEnd (c :: (rest ++ b)) (c.utf8Size + byteLen rest + offset) = _
    rw [hk, truncateAtLineEnd, if_pos (by omega),
      show k + 1 - c.utf8Size = byteLen rest + offset by omega, ih, Option.map_map]
    rfl

/-- A cut at the end of a stretch `a` goes on to the end of the line. -/
theorem truncateAtLineEnd_byteLen (a b : List Char) :
    truncateAtLineEnd (a ++ b) (byteLen a) = some (a ++ firstLine b) := by
  have h := truncateAtLineEnd_append a b 0
  rw [Nat.add_zero] at h
  rw [h, truncateAtLineEnd]
  rfl

/-- A cut after a place is the text through the line of the place. -/
theorem truncateAtLineEnd_offsetOf (text : List Char) (p : LineChr) :
    truncateAtLineEnd text (offsetOf text p) = some (throughLine text p.line) := by
  induction text using lineInduction generalizing p with
  | last l h =>
    -- The place is at the end of a stretch of the line, and no `\n` follows.
    obtain ⟨b, hb⟩ := (List.take_prefix p.chr (content l)).trans (content_isPrefix l)
    have hcut := truncateAtLineEnd_byteLen ((content l).take p.chr) b
    have hnot : '\n' ∉ b := fun hmem => h (hb ▸ List.mem_append_right _ hmem)
    rw [firstLine_of_not_mem hnot, hb] at hcut
    rw [offsetOf_last h, throughLine_last h, hcut]
  | more l rest h ih =>
    obtain ⟨line, chr⟩ := p
    cases line with
    | zero =>
      obtain ⟨b, hb⟩ := (List.take_prefix chr _).trans (content_newline_isPrefix l)
      have hcut := truncateAtLineEnd_byteLen ((content (l ++ ['\n'])).take chr) (b ++ '\n' :: rest)
      have hnot : '\n' ∉ b := fun hmem => h (hb ▸ List.mem_append_right _ hmem)
      rw [firstLine_append_newline hnot, ← List.append_assoc, ← List.append_assoc, hb] at hcut
      rw [offsetOf_zero h, throughLine_zero h, hcut]
    | succ n =>
      rw [offsetOf_succ h, throughLine_succ h, List.append_cons, truncateAtLineEnd_append, ih]
      exact congrArg some (List.append_assoc l ['\n'] _)

/-- A text up to a line stands at the front of the text. -/
theorem throughLine_isPrefix (text : List Char) (n : Nat) : throughLine text n <+: text := by
  induction text using lineInduction generalizing n with
  | last l h => exact (throughLine_last h n).symm ▸ List.prefix_rfl
  | more l rest h ih =>
    cases n with
    | zero =>
      rw [throughLine_zero h]
      exact ⟨rest, by rw [List.append_assoc]; rfl⟩
    | succ n =>
      rw [throughLine_succ h]
      exact (List.prefix_append_right_inj l).mpr ((List.prefix_cons_inj _).mpr (ih n))

/-- A place has the same offset in the text through its line. -/
theorem offsetOf_throughLine (text : List Char) (p : LineChr) :
    offsetOf (throughLine text p.line) p = offsetOf text p := by
  induction text using lineInduction generalizing p with
  | last l h => rw [throughLine_last h]
  | more l rest h ih =>
    obtain ⟨line, chr⟩ := p
    cases line with
    | zero => rw [throughLine_zero h, offsetOf_zero h, offsetOf_zero h]
    | succ n => rw [throughLine_succ h, offsetOf_succ h, offsetOf_succ h, ih ⟨n, chr⟩]

/-- What is cut off after a place is nothing, or it follows a `\n` that
stands at or after the place. -/
theorem throughLine_cut (text : List Char) (p : LineChr) :
    throughLine text p.line = text ∨
      (∃ a, throughLine text p.line = a ++ ['\n'] ∧ offsetOf text p ≤ byteLen a) := by
  induction text using lineInduction generalizing p with
  | last l h => exact .inl (throughLine_last h _)
  | more l rest h ih =>
    obtain ⟨line, chr⟩ := p
    cases line with
    | zero =>
      refine .inr ⟨l, throughLine_zero h rest, ?_⟩
      rw [offsetOf_zero h]
      exact byteLen_le_of_isPrefix ((List.take_prefix chr _).trans (content_newline_isPrefix l))
    | succ n =>
      rw [throughLine_succ h, offsetOf_succ h]
      rcases ih ⟨n, chr⟩ with hall | ⟨a, ha, hle⟩
      · exact .inl (by rw [hall])
      · refine .inr ⟨l ++ '\n' :: a, by rw [ha, List.append_assoc]; rfl, ?_⟩
        have hlen : byteLen (l ++ '\n' :: a) = byteLen (l ++ ['\n']) + byteLen a := by
          rw [← byteLen_append, List.append_assoc]
          rfl
        omega

/-! ### Lines of offsets -/

/-- An offset is on the first line, or after its end. -/
theorem lineChrOf_more {l : List Char} (h : '\n' ∉ l) (rest : List Char) (offset : Nat) :
    lineChrOf (l ++ '\n' :: rest) offset
      = if offset < byteLen (l ++ ['\n']) then
          ⟨0, min (charsWithin (l ++ ['\n']) offset) (content (l ++ ['\n'])).length⟩
        else
          ⟨(lineChrOf rest (offset - byteLen (l ++ ['\n']))).line + 1,
            (lineChrOf rest (offset - byteLen (l ++ ['\n']))).chr⟩ := by
  rw [lineChrOf, lineChrOf, lines_append_newline h]
  cases hlines : lines rest with
  | nil => exact absurd hlines (lines_ne_nil rest)
  | cons next more => rfl

/-- An offset in a text of several lines is in the first one, or one line
further than it is in the rest. -/
theorem lineChrOf_more_line {l : List Char} (h : '\n' ∉ l) (rest : List Char) (offset : Nat) :
    (lineChrOf (l ++ '\n' :: rest) offset).line
      = if offset < byteLen (l ++ ['\n']) then 0
        else (lineChrOf rest (offset - byteLen (l ++ ['\n']))).line + 1 := by
  rw [lineChrOf_more h]
  split <;> rfl

/-- No character ends within no bytes. -/
theorem charsWithin_zero (s : List Char) : charsWithin s 0 = 0 := by
  cases s with
  | nil => rfl
  | cons c rest => exact if_neg (Nat.not_le.mpr c.utf8Size_pos)

/-- The start of a text is the start of its first line. -/
theorem lineChrOf_zero (text : List Char) : lineChrOf text 0 = ⟨0, 0⟩ := by
  rcases exists_firstLine text with h | ⟨l, rest, hl, rfl⟩
  · rw [lineChrOf, lines_of_not_mem h, placeIn, charsWithin_zero, Nat.zero_min]
  · rw [lineChrOf_more hl, if_pos (byteLen_pos (by simp)), charsWithin_zero, Nat.zero_min]

/-- An offset up to the cut has the same place in the cut text and in the
whole text. -/
theorem lineChrOf_throughLine (text : List Char) (n offset : Nat)
    (h : offset ≤ byteLen (throughLine text n)) :
    lineChrOf (throughLine text n) offset = lineChrOf text offset := by
  induction text using lineInduction generalizing n offset with
  | last l hl => rw [throughLine_last hl]
  | more l rest hl ih =>
    cases n with
    | zero =>
      rw [throughLine_zero hl] at h ⊢
      rw [lineChrOf_more hl rest, lineChrOf_more hl []]
      split
      · rfl
      · -- At the cut the next line starts, whether there is text on it or not.
        rw [show offset - byteLen (l ++ ['\n']) = 0 by omega, lineChrOf_zero, lineChrOf_zero]
    | succ n =>
      rw [throughLine_succ hl] at h ⊢
      rw [lineChrOf_more hl, lineChrOf_more hl]
      rw [List.append_cons, byteLen_append] at h
      split
      · rfl
      · rw [ih n _ (by omega)]

end ConceptScript.Text

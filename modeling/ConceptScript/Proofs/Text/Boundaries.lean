import Mathlib.Data.List.Basic
import Mathlib.Order.Bounds.Basic
import ConceptScript.Proofs.Text.RoundTrip

/-!
# `ConceptScript.Proofs.Text.Boundaries`: cuts at any offset

A text can be cut between two characters, but not inside of one. An offset
may point anywhere, so whatever cuts a text at an offset has to move the
offset first, or it has no answer for some.

* `placeBySlice?_eq`: the place of an offset can be found by looking up the
  start of its line and cutting out what is between the two. The offset is
  moved to the start of a character (`settle`) before that, and no cut fails.
* `truncateAtLineEnd_eq_none_iff`: the cut at the end of a line is looked for
  from the offset as it is. There is none just for the offsets inside of a
  character (`InsideCharacter`); offsets past the end are fine.
* `endOfLineAfter_eq_some_iff`: elsewhere it is just past the first `\n` at or
  after the offset, or at the end of the text.
-/

set_option autoImplicit false

namespace ConceptScript.Text

/-! ### Cutting out a slice -/

/-- What stands before an offset and what stands after it. There is no answer
for an offset inside of a character or past the end. -/
def cutAt? : List Char → Nat → Option (List Char × List Char)
  | text, 0 => some ([], text)
  | [], _ + 1 => none
  | c :: rest, offset + 1 =>
    if c.utf8Size ≤ offset + 1 then
      (cutAt? rest (offset + 1 - c.utf8Size)).map fun (a, b) => (c :: a, b)
    else none

/-- What stands between two offsets, if they are in order and both cuts have
an answer. -/
def slice? (text : List Char) (start stop : Nat) : Option (List Char) :=
  if start ≤ stop then
    (cutAt? text start).bind fun (_, b) => (cutAt? b (stop - start)).map (·.1)
  else none

/-- A cut at the end of a stretch at the front gives the stretch and what
follows it. -/
theorem cutAt?_byteLen (a b : List Char) : cutAt? (a ++ b) (byteLen a) = some (a, b) := by
  induction a with
  | nil =>
    cases b with
    | nil => rfl
    | cons c b => rfl
  | cons c a ih =>
    have hpos := c.utf8Size_pos
    have hbytes : byteLen (c :: a) = c.utf8Size + byteLen a := rfl
    obtain ⟨k, hk⟩ : ∃ k, byteLen (c :: a) = k + 1 := ⟨byteLen (c :: a) - 1, by omega⟩
    rw [List.cons_append, hk, cutAt?, if_pos (by omega),
      show k + 1 - c.utf8Size = byteLen a by omega, ih]
    rfl

/-- A slice from the end of one stretch to the end of the next one is the
next one. -/
theorem slice?_byteLen (a l b : List Char) :
    slice? (a ++ (l ++ b)) (byteLen a) (byteLen (a ++ l)) = some l := by
  rw [slice?, byteLen_append, if_pos (Nat.le_add_right _ _), cutAt?_byteLen, Option.bind_some]
  dsimp only
  rw [Nat.add_sub_cancel_left, cutAt?_byteLen, Option.map_some]

/-! ### Starts of lines -/

/-- The offsets just past the `\n`s of a text that starts at an offset. -/
def newlineEnds : Nat → List Char → List Nat
  | _, [] => []
  | offset, c :: rest =>
    if c = '\n' then (offset + c.utf8Size) :: newlineEnds (offset + c.utf8Size) rest
    else newlineEnds (offset + c.utf8Size) rest

/-- The offsets at which the lines of a text start. -/
def lineStarts (text : List Char) : List Nat := 0 :: newlineEnds 0 text

/-- The `\n`s of two texts one after the other are those of the first and
then those of the second, which starts where the first one ends. -/
theorem newlineEnds_append (offset : Nat) (a b : List Char) :
    newlineEnds offset (a ++ b) = newlineEnds offset a ++ newlineEnds (offset + byteLen a) b := by
  induction a generalizing offset with
  | nil => rfl
  | cons c a ih =>
    rw [List.cons_append, newlineEnds, newlineEnds, ih, byteLen, ← Nat.add_assoc]
    split <;> rfl

/-- A `\n` ends after the start of its text, and not past the end of it. -/
theorem newlineEnds_bounds (offset : Nat) (text : List Char) :
    ∀ e ∈ newlineEnds offset text, offset < e ∧ e ≤ offset + byteLen text := by
  induction text generalizing offset with
  | nil => exact fun e he => absurd he List.not_mem_nil
  | cons c text ih =>
    have hpos := c.utf8Size_pos
    have hrest : ∀ e ∈ newlineEnds (offset + c.utf8Size) text,
        offset < e ∧ e ≤ offset + byteLen (c :: text) := by
      intro e he
      have := ih _ e he
      rw [byteLen]
      omega
    rw [newlineEnds]
    split
    · refine List.forall_mem_cons.mpr ⟨?_, hrest⟩
      rw [byteLen]
      omega
    · exact hrest

/-- There are as many ends of `\n`s as there are `\n`s. -/
theorem length_newlineEnds (offset : Nat) (text : List Char) :
    (newlineEnds offset text).length = text.count '\n' := by
  induction text generalizing offset with
  | nil => rfl
  | cons c text ih =>
    rw [newlineEnds, List.count_cons]
    split
    · next hc => rw [List.length_cons, ih, if_pos (beq_iff_eq.mpr hc)]
    · next hc => rw [ih, if_neg (mt beq_iff_eq.mp hc), Nat.add_zero]

/-- The lines that start at or before the end of a stretch are those of the
stretch. -/
theorem takeWhile_lineStarts (a b : List Char) :
    (lineStarts (a ++ b)).takeWhile (· ≤ byteLen a) = lineStarts a := by
  have hwithin : ∀ e ∈ lineStarts a, decide (e ≤ byteLen a) = true := by
    refine List.forall_mem_cons.mpr ⟨decide_eq_true (Nat.zero_le _), fun e he => ?_⟩
    have := newlineEnds_bounds 0 a e he
    exact decide_eq_true (by omega)
  have hbeyond : (newlineEnds (byteLen a) b).takeWhile (· ≤ byteLen a) = [] := by
    have hbounds := newlineEnds_bounds (byteLen a) b
    cases hends : newlineEnds (byteLen a) b with
    | nil => rfl
    | cons e more =>
      have hlt := (hbounds e (hends ▸ List.mem_cons_self)).1
      exact List.takeWhile_cons_of_neg (by simpa using hlt)
  have hsplit : lineStarts (a ++ b) = lineStarts a ++ newlineEnds (byteLen a) b := by
    rw [lineStarts, newlineEnds_append, Nat.zero_add]
    rfl
  rw [hsplit, List.takeWhile_append_of_pos hwithin, hbeyond, List.append_nil]

/-- A text is a line without an end, or a text that ends with a line before
such a line. -/
theorem exists_lastLine (text : List Char) :
    '\n' ∉ text ∨ ∃ before l, text = before ++ '\n' :: l ∧ '\n' ∉ l := by
  induction text using lineInduction with
  | last l h => exact .inl h
  | more l rest h ih =>
    rcases ih with hrest | ⟨before, l', rfl, hl'⟩
    · exact .inr ⟨l, rest, rfl, hrest⟩
    · refine .inr ⟨l ++ '\n' :: before, l', ?_, hl'⟩
      rw [List.append_assoc, List.cons_append]

/-! ### The place of an offset by cutting -/

/-- An offset moved to the boundary at or before it, and from between `\r` and
`\n` to the `\r`. -/
def settle (text : List Char) (offset : Nat) : Nat :=
  let a := text.take (charsWithin text offset)
  if SplitsLineEnd a (text.drop (charsWithin text offset)) then byteLen a - 1 else byteLen a

/-- The place of an offset: the last line that starts at or before it, and
the number of characters between the two. -/
def placeBySlice? (text : List Char) (offset : Nat) : Option LineChr :=
  let stop := settle text offset
  let reached := (lineStarts text).takeWhile (· ≤ stop)
  reached.getLast?.bind fun start =>
    (slice? text start stop).map fun s => ⟨reached.length - 1, s.length⟩

/-- Settling an offset is to go to its place and back. -/
theorem settle_eq_offsetOf (text : List Char) (offset : Nat) :
    settle text offset = offsetOf text (lineChrOf text offset) := by
  obtain ⟨a, b, rfl, hfalls⟩ := exists_fallsAfter text offset
  rw [hfalls.offsetOf_lineChrOf, settle, hfalls.charsWithin_eq, List.take_left, List.drop_left]

/-- An offset that is moved keeps its place. -/
theorem lineChrOf_settle (text : List Char) (offset : Nat) :
    lineChrOf text (settle text offset) = lineChrOf text offset := by
  obtain ⟨hline, hchr⟩ := lineChrOf_isPlace text offset
  rw [settle_eq_offsetOf, lineChrOf_offsetOf, Nat.min_eq_left (Nat.le_sub_one_of_lt hline),
    Nat.min_eq_left hchr]

/-- On the first line: the characters before an offset are counted. -/
theorem lineChrOf_first {l b : List Char} (hl : '\n' ∉ l) (hsettled : ¬SplitsLineEnd l b) :
    lineChrOf (l ++ b) (byteLen l) = ⟨0, l.length⟩ := by
  rcases exists_firstLine b with hb | ⟨l', rest, hl', rfl⟩
  · rw [lineChrOf_last (by simp [hl, hb]), (fallsAfter_byteLen l b).charsWithin_eq,
      List.length_append, Nat.min_eq_left (Nat.le_add_right _ _)]
  · have hline : l ++ '\n' :: rest = l ++ ['\n'] ++ rest := (List.append_cons l '\n' rest)
    have hchars : charsWithin (l ++ l' ++ ['\n']) (byteLen l) = l.length := by
      rw [List.append_assoc]
      exact (fallsAfter_byteLen l (l' ++ ['\n'])).charsWithin_eq
    have hlt : byteLen l < byteLen (l ++ l' ++ ['\n']) := by
      rw [byteLen_append, byteLen_append, byteLen_newline]
      omega
    have hcontent : l.length ≤ (content (l ++ l' ++ ['\n'])).length := by
      -- Only a `\r` at the end of the line is no content of it.
      rw [content_newline]
      split
      · next hreturn =>
        cases l' with
        | nil =>
          rw [List.append_nil] at hreturn
          exact absurd ⟨hreturn, rfl⟩ hsettled
        | cons d l' =>
          rw [List.length_dropLast, List.length_append, List.length_cons]
          omega
      · rw [List.length_append]
        exact Nat.le_add_right _ _
    rw [← List.append_assoc, lineChrOf_more (by simp [hl, hl']), if_pos hlt, hchars,
      Nat.min_eq_left hcontent]

/-- On a later line: those since the last `\n` are counted. -/
theorem lineChrOf_chr_later (before : List Char) {l b : List Char} (hl : '\n' ∉ l)
    (hsettled : ¬SplitsLineEnd l b) :
    (lineChrOf (before ++ '\n' :: (l ++ b)) (byteLen (before ++ '\n' :: l))).chr = l.length := by
  have hbytes (x y : List Char) :
      byteLen (x ++ '\n' :: y) = byteLen (x ++ ['\n']) + byteLen y := by
    rw [← byteLen_append, List.append_assoc]
    rfl
  induction before using lineInduction with
  | last x hx =>
    rw [hbytes, lineChrOf_more hx, if_neg (by omega), Nat.add_sub_cancel_left,
      lineChrOf_first hl hsettled]
  | more x rest hx ih =>
    rw [List.append_assoc, List.append_assoc, List.cons_append, List.cons_append, hbytes,
      lineChrOf_more hx, if_neg (by omega), Nat.add_sub_cancel_left]
    exact ih

/-- The last line of a stretch: where it starts, and where it ends among the
places of a longer text. -/
theorem exists_lineStart (a : List Char) :
    ∃ before l, a = before ++ l ∧ (lineStarts a).getLast? = some (byteLen before)
      ∧ ∀ b, ¬SplitsLineEnd a b → (lineChrOf (a ++ b) (byteLen a)).chr = l.length := by
  rcases exists_lastLine a with ha | ⟨before, l, rfl, hl⟩
  · refine ⟨[], a, rfl, ?_, fun b hsettled => ?_⟩
    · have hnone : newlineEnds 0 a = [] := by
        rw [← List.length_eq_zero_iff, length_newlineEnds, List.count_eq_zero.mpr ha]
      rw [lineStarts, hnone]
      rfl
    · rw [lineChrOf_first ha hsettled]
  · refine ⟨before ++ ['\n'], l, List.append_cons before '\n' l, ?_, fun b hsettled => ?_⟩
    · have hnone : newlineEnds (0 + byteLen (before ++ ['\n'])) l = [] := by
        rw [← List.length_eq_zero_iff, length_newlineEnds, List.count_eq_zero.mpr hl]
      rw [List.append_cons, lineStarts, newlineEnds_append, hnone, List.append_nil,
        newlineEnds_append, ← List.cons_append, List.getLast?_append, byteLen_append]
      rw [Nat.zero_add]
      rfl
    · rw [List.append_assoc, List.cons_append]
      exact lineChrOf_chr_later before hl (mt splitsLineEnd_more.mpr hsettled)

/-- No cut fails on the way to the place of an offset. -/
theorem placeBySlice?_eq (text : List Char) (offset : Nat) :
    placeBySlice? text offset = some (lineChrOf text offset) := by
  obtain ⟨a, b, htext, hstop, hsettled⟩ : Settled text (settle text offset) :=
    settle_eq_offsetOf text offset ▸ settled_offsetOf text _
  have hplace : lineChrOf (a ++ b) (byteLen a) = lineChrOf text offset := by
    rw [← htext, ← hstop, lineChrOf_settle]
  have hline : (lineStarts a).length - 1 = (lineChrOf (a ++ b) (byteLen a)).line := by
    rw [lineChrOf_line_byteLen]
    exact length_newlineEnds 0 a
  obtain ⟨before, l, rfl, hstart, hchr⟩ := exists_lineStart a
  have hslice := slice?_byteLen before l b
  rw [← List.append_assoc] at hslice
  rw [← hplace, placeBySlice?, hstop, htext, takeWhile_lineStarts, hstart, Option.bind_some,
    hslice, Option.map_some, hline, ← hchr b hsettled]

/-! ### Cutting at the end of a line -/

/-- An offset after the first byte of a character and before its end. -/
def InsideCharacter (text : List Char) (offset : Nat) : Prop :=
  ∃ a c b, text = a ++ c :: b ∧ byteLen a < offset ∧ offset < byteLen a + c.utf8Size

/-- Just past a `\n` that stands at or after an offset. -/
def PastNewline (text : List Char) (offset e : Nat) : Prop :=
  ∃ a b, text = a ++ '\n' :: b ∧ offset ≤ byteLen a ∧ e = byteLen (a ++ ['\n'])

/-- Where the line of an offset ends: just past the first `\n` at or after the
offset, or at the end of the text if there is none. -/
def IsLineEnd (text : List Char) (offset e : Nat) : Prop :=
  IsLeast {e | PastNewline text offset e} e
    ∨ (∀ e, ¬PastNewline text offset e) ∧ e = byteLen text

variable {text : List Char} {offset : Nat}

/-- An offset has one line end only. -/
theorem IsLineEnd.unique {e e' : Nat} (h : IsLineEnd text offset e)
    (h' : IsLineEnd text offset e') : e = e' := by
  rcases h with h | ⟨hnone, rfl⟩
  · rcases h' with h' | ⟨hnone, _⟩
    · exact h.unique h'
    · exact absurd h.1 (hnone e)
  · rcases h' with h' | ⟨_, rfl⟩
    · exact absurd h'.1 (hnone e')
    · rfl

/-- A text cannot be cut after an offset inside of a character. -/
theorem InsideCharacter.truncateAtLineEnd_eq_none (h : InsideCharacter text offset) :
    truncateAtLineEnd text offset = none := by
  obtain ⟨a, c, b, rfl, hlt, hlt'⟩ := h
  obtain ⟨k, rfl⟩ : ∃ k, offset = byteLen a + (k + 1) := ⟨offset - byteLen a - 1, by omega⟩
  rw [truncateAtLineEnd_append, truncateAtLineEnd, if_neg (by omega)]
  rfl

/-- Past the end there is nothing to cut off. -/
theorem truncateAtLineEnd_of_ge (h : byteLen text ≤ offset) :
    truncateAtLineEnd text offset = some text := by
  obtain ⟨k, rfl⟩ := Nat.exists_eq_add_of_le h
  have happend := truncateAtLineEnd_append text [] k
  rw [List.append_nil] at happend
  rw [happend]
  cases k <;> simp [truncateAtLineEnd, firstLine]

/-- Past the end of a text the line ends with the text. -/
theorem isLineEnd_of_ge (h : byteLen text ≤ offset) : IsLineEnd text offset (byteLen text) := by
  refine .inr ⟨?_, rfl⟩
  rintro e ⟨a, b, rfl, hle, _⟩
  have hbytes : byteLen ('\n' :: b) = 1 + byteLen b := rfl
  rw [byteLen_append] at h
  omega

/-- The first line stands at the front of the text. -/
theorem firstLine_isPrefix (text : List Char) : firstLine text <+: text := by
  rcases exists_firstLine text with h | ⟨l, rest, hl, rfl⟩
  · exact (firstLine_of_not_mem h).symm ▸ List.prefix_rfl
  · rw [firstLine_append_newline hl, List.append_cons l '\n' rest]
    exact List.prefix_append _ _

/-- The line of a boundary ends where the first line of what follows ends. -/
theorem isLineEnd_byteLen (a b : List Char) :
    IsLineEnd (a ++ b) (byteLen a) (byteLen (a ++ firstLine b)) := by
  have hsplit : ∀ a' b', a ++ b = a' ++ '\n' :: b' → byteLen a ≤ byteLen a' →
      ∃ l, a' = a ++ l ∧ b = l ++ '\n' :: b' := by
    intro a' b' htext hle
    obtain ⟨l, rfl⟩ := isPrefix_of_byteLen_le ⟨b, rfl⟩ ⟨'\n' :: b', htext.symm⟩ hle
    rw [List.append_assoc] at htext
    exact ⟨l, rfl, List.append_cancel_left htext⟩
  rcases exists_firstLine b with hb | ⟨l, rest, hl, rfl⟩
  · rw [firstLine_of_not_mem hb]
    refine .inr ⟨?_, rfl⟩
    rintro e ⟨a', b', htext, hle, _⟩
    obtain ⟨l, _, rfl⟩ := hsplit a' b' htext hle
    exact hb List.mem_append_cons_self
  · rw [firstLine_append_newline hl]
    refine .inl ⟨⟨a ++ l, rest, ?_, ?_, ?_⟩, ?_⟩
    · rw [List.append_assoc]
    · rw [byteLen_append]
      exact Nat.le_add_right _ _
    · rw [List.append_assoc]
    · rintro e ⟨a', b', htext, hle, rfl⟩
      obtain ⟨l', rfl, hrest⟩ := hsplit a' b' htext hle
      -- There is no `\n` on the first line, so none comes sooner.
      rcases append_cons_eq_append hrest with ⟨b'', rfl, _⟩ | ⟨l'', rfl, _⟩
      · exact absurd List.mem_append_cons_self hl
      · simp only [byteLen_append]
        omega

/-- Where a cut at the end of a line has no answer, and where it is. -/
theorem truncateAtLineEnd_cases (text : List Char) (offset : Nat) :
    InsideCharacter text offset ∧ truncateAtLineEnd text offset = none
      ∨ ¬InsideCharacter text offset ∧ ∃ cut, truncateAtLineEnd text offset = some cut
        ∧ cut <+: text ∧ IsLineEnd text offset (byteLen cut) := by
  obtain ⟨a, b, rfl, hfalls⟩ := exists_fallsAfter text offset
  have hle := hfalls.le
  suffices h : InsideCharacter (a ++ b) offset ∨ ∃ cut, truncateAtLineEnd (a ++ b) offset = some cut
      ∧ cut <+: a ++ b ∧ IsLineEnd (a ++ b) offset (byteLen cut) by
    rcases h with h | ⟨cut, hcut, hfront, hend⟩
    · exact .inl ⟨h, h.truncateAtLineEnd_eq_none⟩
    · refine .inr ⟨fun hinside => ?_, cut, hcut, hfront, hend⟩
      rw [hinside.truncateAtLineEnd_eq_none] at hcut
      cases hcut
  cases b with
  | nil =>
    have hge : byteLen (a ++ []) ≤ offset := by rwa [List.append_nil]
    exact .inr ⟨_, truncateAtLineEnd_of_ge hge, List.prefix_rfl, isLineEnd_of_ge hge⟩
  | cons c b =>
    have hlt := hfalls.lt c rfl
    -- The offset is the end of a stretch, or it is inside of the next character.
    rcases Nat.eq_or_lt_of_le hle with rfl | hinside
    · exact .inr ⟨_, truncateAtLineEnd_byteLen a (c :: b),
        (List.prefix_append_right_inj a).mpr (firstLine_isPrefix _), isLineEnd_byteLen a (c :: b)⟩
    · exact .inl ⟨a, c, b, rfl, hinside, hlt⟩

/-- The offsets inside of characters are the only ones after which a text
cannot be cut. -/
theorem truncateAtLineEnd_eq_none_iff :
    truncateAtLineEnd text offset = none ↔ InsideCharacter text offset := by
  rcases truncateAtLineEnd_cases text offset with ⟨hinside, hnone⟩ | ⟨hnot, cut, hcut, _⟩
  · exact iff_of_true hnone hinside
  · refine iff_of_false ?_ hnot
    rw [hcut]
    exact Option.some_ne_none cut

/-- The end of a line is given exactly for the offsets that are not inside of a
character, and it is the first `\n` from there on or the end of the text. -/
theorem endOfLineAfter_eq_some_iff {e : Nat} :
    endOfLineAfter text offset = some e
      ↔ ¬InsideCharacter text offset ∧ IsLineEnd text offset e := by
  rw [endOfLineAfter]
  rcases truncateAtLineEnd_cases text offset with ⟨hinside, hnone⟩ | ⟨hnot, cut, hcut, _, hend⟩
  · rw [hnone]
    exact iff_of_false (fun h => by cases h) fun h => h.1 hinside
  · rw [hcut, Option.map_some, Option.some.injEq]
    refine ⟨?_, fun h => hend.unique h.2⟩
    rintro rfl
    exact ⟨hnot, hend⟩

/-- A text cut at the end of a line is what stands before this offset. -/
theorem truncateAtLineEnd_eq_some_iff {cut : List Char} :
    truncateAtLineEnd text offset = some cut
      ↔ cut <+: text ∧ endOfLineAfter text offset = some (byteLen cut) := by
  rw [endOfLineAfter]
  rcases truncateAtLineEnd_cases text offset with ⟨_, hnone⟩ | ⟨_, cut', hcut, hfront, _⟩
  · rw [hnone]
    exact iff_of_false (fun h => by cases h) fun h => (by cases h.2)
  · rw [hcut, Option.map_some, Option.some.injEq, Option.some.injEq]
    refine ⟨?_, fun h => eq_of_byteLen_eq hfront h.1 h.2⟩
    rintro rfl
    exact ⟨hfront, rfl⟩

/-- What can be asked about any offset, and what cannot. The place of an offset
is found by cutting and no cut fails. The end of its line, and the text up to
there, have an answer if and only if the offset is not inside of a character;
then the line ends just past the first `\n` at or after the offset, or with the
text. -/
theorem lineChrOf_found_and_endOfLineAfter_iff (text : List Char) (offset : Nat) :
    placeBySlice? text offset = some (lineChrOf text offset)
      ∧ (truncateAtLineEnd text offset = none ↔ InsideCharacter text offset)
      ∧ (endOfLineAfter text offset = none ↔ InsideCharacter text offset)
      ∧ (∀ e, endOfLineAfter text offset = some e
        ↔ ¬InsideCharacter text offset ∧ IsLineEnd text offset e)
      ∧ ∀ cut, truncateAtLineEnd text offset = some cut
        ↔ cut <+: text ∧ endOfLineAfter text offset = some (byteLen cut) := by
  refine ⟨placeBySlice?_eq text offset, truncateAtLineEnd_eq_none_iff, ?_,
    fun _ => endOfLineAfter_eq_some_iff, fun _ => truncateAtLineEnd_eq_some_iff⟩
  rw [endOfLineAfter, Option.map_eq_none_iff, truncateAtLineEnd_eq_none_iff]

/-- The offset 1 is inside of the `é`. Its place is that of the `é`, and its
line ends at 3, but there is no cut. -/
theorem endOfLineAfter_inside_character :
    let text := ['é', '\n', 'x']
    InsideCharacter text 1 ∧ lineChrOf text 1 = ⟨0, 0⟩ ∧ IsLineEnd text 1 3
      ∧ endOfLineAfter text 1 = none ∧ truncateAtLineEnd text 1 = none := by
  intro text
  refine ⟨⟨[], 'é', ['\n', 'x'], rfl, by decide, by decide⟩, by decide, .inl ⟨?_, ?_⟩,
    by decide, by decide⟩
  · exact ⟨['é'], ['x'], rfl, by decide, rfl⟩
  · rintro e ⟨a, b, htext, hle, rfl⟩
    have honce : ['é'] ++ '\n' :: ['x'] = a ++ '\n' :: b := htext
    obtain ⟨rfl, -⟩ := (List.append_cons_inj_of_notMem (by decide) (by decide)).mp honce
    exact Nat.le_refl _

end ConceptScript.Text

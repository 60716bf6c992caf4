import ConceptScript.Proofs.Text.LineOf

/-!
# `ConceptScript.Proofs.Text.RoundTrip`: places and offsets

A place and an offset are two ways to point into a text. Both conversions
have an answer for everything, so neither undoes the other exactly: there
and back again comes to the nearest place or offset of the text.

* `lineChrOf_offsetOf`: a place is moved to its line or the last one, and
  on it to the end of its content.
* `FallsAfter.offsetOf_lineChrOf`: an offset is moved to the end of the text
  or to the start of the character that it is in, and from between `\r` and
  `\n` to the `\r`. So an offset that stands between two characters, but not
  these two, comes back, and no other does (`settled_iff`).
* `lineChrOf_mono`, `offsetOf_mono`: both keep the order. Of places past
  the last line the order is lost, since their characters still count.

All go by induction on the lines of the text. A `\r` before the `\n` of a
line is where content and line differ by one character, which
`content_newline` says once.
-/

set_option autoImplicit false

namespace ConceptScript.Text

/-- Places are ordered by lines, and in a line by characters. -/
theorem LineChr.le_iff {p q : LineChr} :
    p ≤ q ↔ p.line < q.line ∨ p.line = q.line ∧ p.chr ≤ q.chr := by
  show p.le q = true ↔ _
  simp [LineChr.le]

/-! ### Lines and their content -/

/-- A line without `\n` is all content. -/
theorem content_of_not_mem {l : List Char} (h : '\n' ∉ l) : content l = l := by
  fun_induction content l with
  | case1 => rfl
  | case2 => simp at h
  | case3 => simp at h
  | case4 c rest _ _ ih => rw [ih (List.not_mem_of_not_mem_cons h)]

/-- The content of a line that has an end: a `\r` before the `\n` is no part
of it. -/
theorem content_newline (l : List Char) :
    content (l ++ ['\n']) = if l.getLast? = some '\r' then l.dropLast else l := by
  split
  · next h =>
    obtain ⟨l', rfl⟩ := List.getLast?_eq_some_iff.mp h
    rw [List.append_assoc, List.singleton_append, content_return_newline, List.dropLast_concat]
  · next h =>
    induction l with
    | nil => rfl
    | cons c l ih =>
      cases l with
      | nil =>
        have hc : c ≠ '\r' := fun hc => h (congrArg some hc)
        simp [content, hc]
      | cons d l =>
        have hlast : (d :: l).getLast? ≠ some '\r' := by rwa [List.getLast?_cons_cons] at h
        have hcons : content (c :: (d :: l ++ ['\n'])) = c :: content (d :: l ++ ['\n']) := by
          simp [content]
        rw [List.cons_append, hcons, ih hlast]

/-- A text without `\n` has one line. -/
theorem lineCount_last {l : List Char} (h : '\n' ∉ l) : lineCount l = 1 := by
  rw [lineCount, lines_of_not_mem h]
  rfl

/-- A `\n` is the end of one more line. -/
theorem lineCount_more {l : List Char} (h : '\n' ∉ l) (rest : List Char) :
    lineCount (l ++ '\n' :: rest) = lineCount rest + 1 := by
  rw [lineCount, lines_append_newline h]
  rfl

/-- Every text has a line. -/
theorem lineCount_pos (text : List Char) : 0 < lineCount text :=
  List.length_pos_iff.mpr (lines_ne_nil text)

/-- The only line of a text is as long as the text. -/
theorem lineLength_last {l : List Char} (h : '\n' ∉ l) (n : Nat) : lineLength l n = l.length := by
  rw [lineLength, lineCount_last h, lines_of_not_mem h, Nat.sub_self, Nat.min_zero]
  exact congrArg List.length (content_of_not_mem h)

/-- The length of the first line is counted without its line end. -/
theorem lineLength_zero {l : List Char} (h : '\n' ∉ l) (rest : List Char) :
    lineLength (l ++ '\n' :: rest) 0 = (content (l ++ ['\n'])).length := by
  rw [lineLength, Nat.zero_min, lines_append_newline h]
  rfl

/-- A later line is as long as the line before it is in the rest of the text. -/
theorem lineLength_succ {l : List Char} (h : '\n' ∉ l) (rest : List Char) (n : Nat) :
    lineLength (l ++ '\n' :: rest) (n + 1) = lineLength rest n := by
  have hpos := lineCount_pos rest
  have hmin : min (n + 1) (lineCount rest + 1 - 1) = min n (lineCount rest - 1) + 1 := by omega
  rw [lineLength, lineLength, lineCount_more h, hmin, lines_append_newline h]
  rfl

/-- In a text of one line a place is the number of characters before it, and
never past the last one. -/
theorem lineChrOf_last {l : List Char} (h : '\n' ∉ l) (offset : Nat) :
    lineChrOf l offset = ⟨0, min (charsWithin l offset) l.length⟩ := by
  rw [lineChrOf, lines_of_not_mem h, placeIn, content_of_not_mem h]

/-! ### Offsets and characters -/

/-- An offset falls after a stretch at the front of a text: it is the end of
the stretch, or in the next character, or past the end of the text if there
is none. -/
structure FallsAfter (a b : List Char) (offset : Nat) : Prop where
  le : byteLen a ≤ offset
  lt : ∀ c ∈ b.head?, offset < byteLen a + c.utf8Size

/-- Each offset falls after one stretch of a text. -/
theorem exists_fallsAfter (text : List Char) (offset : Nat) :
    ∃ a b, text = a ++ b ∧ FallsAfter a b offset := by
  induction text generalizing offset with
  | nil => exact ⟨[], [], rfl, Nat.zero_le _, fun _ hc => (by cases hc)⟩
  | cons c text ih =>
    rcases Nat.lt_or_ge offset c.utf8Size with hlt | hge
    · refine ⟨[], c :: text, rfl, Nat.zero_le _, fun d hd => ?_⟩
      cases hd
      exact Nat.lt_add_left 0 hlt
    · obtain ⟨a, b, rfl, hle, hlt⟩ := ih (offset - c.utf8Size)
      have hbytes : byteLen (c :: a) = c.utf8Size + byteLen a := rfl
      refine ⟨c :: a, b, rfl, by omega, fun d hd => ?_⟩
      have := hlt d hd
      omega

/-- The end of a stretch falls after it. -/
theorem fallsAfter_byteLen (a b : List Char) : FallsAfter a b (byteLen a) :=
  ⟨Nat.le_refl _, fun c _ => Nat.lt_add_of_pos_right c.utf8Size_pos⟩

/-- An offset that falls after a stretch is before the end of the text if
there is a character to fall into. -/
theorem FallsAfter.lt_byteLen {a b : List Char} {offset : Nat} (h : FallsAfter a b offset)
    (hb : b ≠ []) : offset < byteLen (a ++ b) := by
  cases b with
  | nil => exact absurd rfl hb
  | cons c b =>
    have hlt := h.lt c rfl
    have hbytes : byteLen (c :: b) = c.utf8Size + byteLen b := rfl
    rw [byteLen_append]
    omega

/-- Just the characters of the stretch end at or before an offset that falls
after it. -/
theorem FallsAfter.charsWithin_eq {a b : List Char} {offset : Nat} (h : FallsAfter a b offset) :
    charsWithin (a ++ b) offset = a.length := by
  induction a generalizing offset with
  | nil =>
    cases b with
    | nil => rfl
    | cons c b =>
      have hlt := h.lt c rfl
      rw [List.nil_append, charsWithin, if_neg (by simpa [byteLen] using hlt)]
      rfl
  | cons c a ih =>
    have hbytes : byteLen (c :: a) = c.utf8Size + byteLen a := rfl
    have hle := h.le
    have htail : FallsAfter a b (offset - c.utf8Size) := by
      refine ⟨by omega, fun d hd => ?_⟩
      have := h.lt d hd
      omega
    rw [List.cons_append, charsWithin, if_pos (by omega), ih htail, List.length_cons]

/-- More bytes hold no fewer characters. -/
theorem charsWithin_mono (s : List Char) {x y : Nat} (h : x ≤ y) :
    charsWithin s x ≤ charsWithin s y := by
  induction s generalizing x y with
  | nil => exact Nat.le_refl _
  | cons c s ih =>
    have hrest := ih (Nat.sub_le_sub_right h c.utf8Size)
    rw [charsWithin, charsWithin]
    split <;> split <;> omega

/-- More characters take no fewer bytes. -/
theorem byteLen_take_mono (s : List Char) {i j : Nat} (h : i ≤ j) :
    byteLen (s.take i) ≤ byteLen (s.take j) :=
  byteLen_le_of_isPrefix (List.take_prefix_take_left h)

/-- A stretch of the content of a line that has an end is shorter than the
line. -/
theorem byteLen_take_content_lt (l : List Char) (chr : Nat) :
    byteLen ((content (l ++ ['\n'])).take chr) < byteLen (l ++ ['\n']) := by
  have hle : byteLen ((content (l ++ ['\n'])).take chr) ≤ byteLen l :=
    byteLen_le_of_isPrefix ((List.take_prefix chr _).trans (content_newline_isPrefix l))
  rw [byteLen_append, byteLen_newline]
  omega

/-- Whether two stretches part a `\r` from its `\n` is decided after the last
line before the cut. -/
theorem splitsLineEnd_more {l a b : List Char} :
    SplitsLineEnd (l ++ '\n' :: a) b ↔ SplitsLineEnd a b := by
  refine and_congr_left fun _ => ?_
  cases a with
  | nil => simp
  | cons c a => simp [List.getLast?_append, List.getLast?_cons_cons]

/-! ### There and back again -/

/-- The place of the offset of a place. -/
theorem lineChrOf_offsetOf (text : List Char) (p : LineChr) :
    lineChrOf text (offsetOf text p) = ⟨min p.line (lineCount text - 1),
      min p.chr (lineLength text (min p.line (lineCount text - 1)))⟩ := by
  induction text using lineInduction generalizing p with
  | last l h =>
    -- The offset falls after so many characters of the line, or after all of them.
    obtain ⟨b, hb⟩ := List.take_prefix p.chr l
    have hchars : charsWithin l (byteLen (l.take p.chr)) = (l.take p.chr).length := by
      have hfalls := (fallsAfter_byteLen (l.take p.chr) b).charsWithin_eq
      rwa [hb] at hfalls
    rw [offsetOf_last h, content_of_not_mem h, lineChrOf_last h, hchars, lineCount_last h,
      lineLength_last h, List.length_take, Nat.sub_self, Nat.min_zero, Nat.min_assoc, Nat.min_self]
  | more l rest h ih =>
    obtain ⟨line, chr⟩ := p
    cases line with
    | zero =>
      obtain ⟨b, hb⟩ : (content (l ++ ['\n'])).take chr <+: l ++ ['\n'] :=
        (List.take_prefix chr _).trans (content_isPrefix _)
      have hchars := (fallsAfter_byteLen ((content (l ++ ['\n'])).take chr) b).charsWithin_eq
      rw [hb] at hchars
      rw [offsetOf_zero h, lineChrOf_more h, if_pos (byteLen_take_content_lt l chr), hchars,
        Nat.zero_min, lineLength_zero h, List.length_take, Nat.min_assoc, Nat.min_self]
    | succ n =>
      have hpos := lineCount_pos rest
      have hmin : min (n + 1) (lineCount rest + 1 - 1) = min n (lineCount rest - 1) + 1 := by omega
      rw [offsetOf_succ h, lineChrOf_more h, if_neg (by omega), Nat.add_sub_cancel_left, ih,
        lineCount_more h, hmin, lineLength_succ h]

/-- On a line that has an end: a stretch of the line is kept, but for a `\r`
before the `\n`. -/
theorem byteLen_take_content (a b : List Char) (h : '\n' ∉ b) :
    byteLen ((content (a ++ b ++ ['\n'])).take a.length)
      = if SplitsLineEnd a (b ++ ['\n']) then byteLen a - 1 else byteLen a := by
  rw [content_newline]
  cases b with
  | nil =>
    rw [List.append_nil]
    by_cases hreturn : a.getLast? = some '\r'
    · obtain ⟨a', rfl⟩ := List.getLast?_eq_some_iff.mp hreturn
      have hbytes : byteLen (a' ++ ['\r']) = byteLen a' + 1 := byteLen_append a' ['\r']
      rw [if_pos hreturn, if_pos ⟨hreturn, rfl⟩, List.dropLast_concat,
        List.take_of_length_le (by simp), hbytes, Nat.add_sub_cancel]
    · rw [if_neg hreturn, if_neg (fun hbetween => hreturn hbetween.1), List.take_length]
  | cons d b =>
    have hd : d ≠ '\n' := fun hd => h (hd ▸ List.mem_cons_self)
    have hkept : (if (a ++ d :: b).getLast? = some '\r' then (a ++ d :: b).dropLast
        else a ++ d :: b).take a.length = a := by
      split
      · rw [List.dropLast_append_cons, List.take_left]
      · rw [List.take_left]
    rw [hkept, if_neg (fun hbetween => hd (Option.some.inj hbetween.2))]

/-- The offset of the place of an offset that falls after a stretch. -/
theorem FallsAfter.offsetOf_lineChrOf {a b : List Char} {offset : Nat}
    (hfalls : FallsAfter a b offset) :
    offsetOf (a ++ b) (lineChrOf (a ++ b) offset)
      = if SplitsLineEnd a b then byteLen a - 1 else byteLen a := by
  generalize htext : a ++ b = text
  induction text using lineInduction generalizing a b offset with
  | last l h =>
    subst htext
    -- On the last line no `\n` follows that could be parted from its `\r`.
    have hsplits : ¬SplitsLineEnd a b := fun hsplits =>
      h (List.mem_append_right a (List.mem_of_mem_head? hsplits.2))
    rw [lineChrOf_last h, offsetOf_last h, content_of_not_mem h, hfalls.charsWithin_eq,
      List.length_append, Nat.min_eq_left (Nat.le_add_right _ _), List.take_left, if_neg hsplits]
  | more l rest h ih =>
    rcases append_cons_eq_append htext with ⟨a', rfl, rfl⟩ | ⟨b', rfl, rfl⟩
    · -- The stretch goes on after the first line, and so does the offset.
      have hbytes : byteLen (l ++ '\n' :: a') = byteLen (l ++ ['\n']) + byteLen a' := by
        rw [← byteLen_append, List.append_assoc]
        rfl
      have hle := hfalls.le
      have htail : FallsAfter a' b (offset - byteLen (l ++ ['\n'])) := by
        refine ⟨by omega, fun c hc => ?_⟩
        have := hfalls.lt c hc
        omega
      rw [lineChrOf_more h, if_neg (by omega), offsetOf_succ h, ih htail rfl, hbytes]
      by_cases hsplits : SplitsLineEnd a' b
      · have hpos := byteLen_pos (fun hnil => by simp [hnil, SplitsLineEnd] at hsplits : a' ≠ [])
        rw [if_pos hsplits, if_pos (splitsLineEnd_more.mpr hsplits)]
        omega
      · rw [if_neg hsplits, if_neg (mt splitsLineEnd_more.mp hsplits)]
    · -- The stretch ends on the first line.
      have hb' : '\n' ∉ b' := fun hmem => h (List.mem_append_right a hmem)
      have hline : FallsAfter a (b' ++ ['\n']) offset := by
        refine ⟨hfalls.le, fun c hc => hfalls.lt c ?_⟩
        cases b' <;> exact hc
      have hchars : charsWithin (a ++ b' ++ ['\n']) offset = a.length := by
        rw [List.append_assoc, hline.charsWithin_eq]
      have hlt : offset < byteLen (a ++ b' ++ ['\n']) := by
        rw [List.append_assoc]
        exact hline.lt_byteLen (by simp)
      rw [lineChrOf_more h, if_pos hlt, offsetOf_zero h, hchars, ← List.take_take,
        List.take_length, byteLen_take_content a b' hb']
      cases b' <;> rfl

/-- The offsets that come back are the settled ones. -/
theorem settled_iff {text : List Char} {offset : Nat} :
    Settled text offset ↔ offsetOf text (lineChrOf text offset) = offset := by
  constructor
  · rintro ⟨a, b, rfl, rfl, hsplits⟩
    exact (fallsAfter_byteLen a b).offsetOf_lineChrOf.trans (if_neg hsplits)
  · intro h
    exact h ▸ settled_offsetOf text (lineChrOf text offset)

/-- The place of an offset is a place of the text. -/
theorem lineChrOf_isPlace (text : List Char) (offset : Nat) :
    (lineChrOf text offset).line < lineCount text
      ∧ (lineChrOf text offset).chr ≤ lineLength text (lineChrOf text offset).line := by
  induction text using lineInduction generalizing offset with
  | last l h =>
    rw [lineChrOf_last h, lineCount_last h, lineLength_last h]
    exact ⟨Nat.zero_lt_one, Nat.min_le_right _ _⟩
  | more l rest h ih =>
    rw [lineChrOf_more h, lineCount_more h]
    split
    · rw [lineLength_zero h]
      exact ⟨Nat.succ_pos _, Nat.min_le_right _ _⟩
    · rw [lineLength_succ h]
      exact ⟨Nat.succ_lt_succ (ih _).1, (ih _).2⟩

/-! ### Order -/

/-- Offsets in order have places in order. Induction on the lines of the
text. -/
theorem lineChrOf_mono (text : List Char) {x y : Nat} (h : x ≤ y) :
    lineChrOf text x ≤ lineChrOf text y := by
  induction text using lineInduction generalizing x y with
  | last l hl =>
    have hchars := charsWithin_mono l h
    rw [lineChrOf_last hl, lineChrOf_last hl, LineChr.le_iff]
    exact .inr ⟨rfl, by dsimp only; omega⟩
  | more l rest hl ih =>
    have hchars := charsWithin_mono (l ++ ['\n']) h
    have hrest := LineChr.le_iff.mp (ih (Nat.sub_le_sub_right h (byteLen (l ++ ['\n']))))
    rw [lineChrOf_more hl, lineChrOf_more hl, LineChr.le_iff]
    split <;> split <;> dsimp only <;> omega

/-- Places in order, the later of them in a line that is there, have offsets
in order. -/
theorem offsetOf_mono (text : List Char) {p q : LineChr} (hq : q.line < lineCount text)
    (h : p ≤ q) : offsetOf text p ≤ offsetOf text q := by
  induction text using lineInduction generalizing p q with
  | last l hl =>
    rw [lineCount_last hl] at hq
    rw [offsetOf_last hl, offsetOf_last hl]
    have hle := LineChr.le_iff.mp h
    exact byteLen_take_mono _ (by omega)
  | more l rest hl ih =>
    rw [lineCount_more hl] at hq
    have hle := LineChr.le_iff.mp h
    obtain ⟨line, chr⟩ := p
    obtain ⟨line', chr'⟩ := q
    dsimp only at hle hq
    cases line with
    | zero =>
      rw [offsetOf_zero hl]
      cases line' with
      | zero =>
        rw [offsetOf_zero hl]
        exact byteLen_take_mono _ (by omega)
      | succ n' =>
        -- The line ends before the next one starts.
        have hlt := byteLen_take_content_lt l chr
        rw [offsetOf_succ hl]
        omega
    | succ n =>
      obtain ⟨n', rfl⟩ : ∃ n', line' = n' + 1 := ⟨line' - 1, by omega⟩
      have hrest : (⟨n, chr⟩ : LineChr) ≤ ⟨n', chr'⟩ := LineChr.le_iff.mpr (by dsimp only; omega)
      rw [offsetOf_succ hl, offsetOf_succ hl]
      exact Nat.add_le_add_left (ih (Nat.lt_of_succ_lt_succ hq) hrest) _

/-- Both conversions of a text there and back, and their order. -/
theorem places_and_offsets_roundTrip (text : List Char) :
    (∀ p, lineChrOf text (offsetOf text p) = ⟨min p.line (lineCount text - 1),
        min p.chr (lineLength text (min p.line (lineCount text - 1)))⟩)
      ∧ (∀ offset, ∃ a b, text = a ++ b ∧ FallsAfter a b offset
        ∧ offsetOf text (lineChrOf text offset)
          = if SplitsLineEnd a b then byteLen a - 1 else byteLen a)
      ∧ (∀ x y, x ≤ y → lineChrOf text x ≤ lineChrOf text y)
      ∧ ∀ p q, p.line < lineCount text → q.line < lineCount text → p ≤ q →
        offsetOf text p ≤ offsetOf text q := by
  refine ⟨lineChrOf_offsetOf text, fun offset => ?_, fun _ _ h => lineChrOf_mono text h,
    fun _ _ _ hq h => offsetOf_mono text hq h⟩
  obtain ⟨a, b, rfl, hfalls⟩ := exists_fallsAfter text offset
  exact ⟨a, b, rfl, hfalls, hfalls.offsetOf_lineChrOf⟩

/-- The offset 2 is in the `é`, and 4 is between `\r` and `\n`. The third
line is empty and the last. -/
theorem places_and_offsets_of_two_lines :
    let text := ['x', 'é', '\r', '\n', 'y', '\n']
    lineChrOf text (offsetOf text ⟨7, 3⟩) = ⟨2, 0⟩
      ∧ lineChrOf text (offsetOf text ⟨0, 9⟩) = ⟨0, 2⟩
      ∧ offsetOf text (lineChrOf text 2) = 1 ∧ offsetOf text (lineChrOf text 4) = 3
      ∧ lineChrOf text 4 ≤ lineChrOf text 5
      ∧ offsetOf text ⟨0, 9⟩ ≤ offsetOf text ⟨1, 0⟩ := by
  intro text
  obtain ⟨hplaces, _, hplace, hoffset⟩ := places_and_offsets_roundTrip text
  exact ⟨hplaces ⟨7, 3⟩, hplaces ⟨0, 9⟩, by decide, by decide, hplace 4 5 (by decide),
    hoffset ⟨0, 9⟩ ⟨1, 0⟩ (by decide) (by decide) (by decide)⟩

end ConceptScript.Text

import ConceptScript.Proofs.Text.LineCut

/-!
# `ConceptScript.Proofs.Text.LineOf`: lines by counting

An offset at the end of a stretch is on the line that the `\n`s of the
stretch tell: `lineChrOf_line_byteLen`. A `\r` alone tells none. So two such
offsets are on one line exactly if no `\n` stands between them
(`lineChrOf_line_eq_iff`).

`settled_offsetOf` says which offsets places have: each is the end of a
stretch, and none is between `\r` and `\n`.
-/

set_option autoImplicit false

namespace ConceptScript.Text

/-- Of two stretches at the front of a text the one with fewer bytes is at
the front of the other. -/
theorem isPrefix_of_byteLen_le {a b text : List Char} (ha : a <+: text) (hb : b <+: text)
    (hle : byteLen a ≤ byteLen b) : a <+: b := by
  rcases List.prefix_or_prefix_of_prefix ha hb with h | ⟨rest, rfl⟩
  · exact h
  · rw [byteLen_append] at hle
    cases rest with
    | nil => exact ⟨[], by simp⟩
    | cons c rest =>
      have := byteLen_pos (List.cons_ne_nil c rest)
      omega

/-- Stretches at the front of one text are the same if they are of one length
in bytes. -/
theorem eq_of_byteLen_eq {a b text : List Char} (ha : a <+: text) (hb : b <+: text)
    (h : byteLen a = byteLen b) : a = b :=
  (isPrefix_of_byteLen_le ha hb (Nat.le_of_eq h)).eq_of_length_le
    (isPrefix_of_byteLen_le hb ha (Nat.le_of_eq h.symm)).length_le

/-! ### Lines of offsets -/

/-- The line of an offset at the end of a stretch. -/
theorem lineChrOf_line_byteLen (a b : List Char) :
    (lineChrOf (a ++ b) (byteLen a)).line = a.count '\n' := by
  induction a using lineInduction with
  | last l h =>
    rw [List.count_eq_zero.mpr h]
    rcases exists_firstLine b with hb | ⟨l', rest, hl', rfl⟩
    · rw [lineChrOf, lines_of_not_mem (by simp [h, hb])]
      rfl
    · rw [← List.append_assoc, lineChrOf_more_line (by simp [h, hl']), if_pos]
      rw [byteLen_append, byteLen_append, byteLen_newline]
      omega
  | more l rest h ih =>
    have hlen : byteLen (l ++ '\n' :: rest) = byteLen (l ++ ['\n']) + byteLen rest := by
      rw [← byteLen_append, List.append_assoc]
      rfl
    rw [List.append_assoc, List.cons_append, lineChrOf_more_line h, if_neg (by omega), hlen,
      Nat.add_sub_cancel_left, ih, List.count_append, List.count_eq_zero.mpr h,
      List.count_cons_self, Nat.zero_add]

/-- The two ends of a stretch are in one line just if the stretch has no
`\n`. -/
theorem lineChrOf_line_eq_iff (a b c : List Char) :
    (lineChrOf (a ++ (b ++ c)) (byteLen a)).line
      = (lineChrOf (a ++ (b ++ c)) (byteLen (a ++ b))).line ↔ '\n' ∉ b := by
  rw [lineChrOf_line_byteLen, ← List.append_assoc, lineChrOf_line_byteLen, List.count_append,
    ← List.count_eq_zero]
  omega

/-- An offset between two characters of a text, or at one of its ends. -/
def OnBoundary (text : List Char) (offset : Nat) : Prop :=
  ∃ a b, text = a ++ b ∧ offset = byteLen a

/-- A later offset is on the same line or on a later one. -/
theorem OnBoundary.line_le {text : List Char} {x y : Nat} (hx : OnBoundary text x)
    (hy : OnBoundary text y) (hle : x ≤ y) :
    (lineChrOf text x).line ≤ (lineChrOf text y).line := by
  obtain ⟨a, b, hab, rfl⟩ := hx
  obtain ⟨a', b', hab', rfl⟩ := hy
  have hfront : a <+: a' := isPrefix_of_byteLen_le ⟨b, hab.symm⟩ ⟨b', hab'.symm⟩ hle
  have hline : (lineChrOf text (byteLen a)).line = a.count '\n' := by
    rw [hab, lineChrOf_line_byteLen]
  have hline' : (lineChrOf text (byteLen a')).line = a'.count '\n' := by
    rw [hab', lineChrOf_line_byteLen]
  rw [hline, hline']
  exact hfront.count_le '\n'

/-! ### Offsets of places -/

/-- The content of a line that ends with `\r\n` has neither of the two. -/
theorem content_return_newline (l : List Char) : content (l ++ ['\r', '\n']) = l := by
  induction l with
  | nil => rfl
  | cons c l ih =>
    have hcons : content (c :: (l ++ ['\r', '\n'])) = c :: content (l ++ ['\r', '\n']) := by
      rw [content.eq_def]
      split
      · next h => cases h
      · next h => simpa using congrArg List.length h
      · next h => simpa using congrArg List.length h
      · next h =>
        cases h
        rfl
    rw [List.cons_append, hcons, ih]

/-- A `\r` before the `\n` of a line is no content. -/
theorem length_content_lt {l : List Char} (h : l.getLast? = some '\r') :
    (content (l ++ ['\n'])).length < l.length := by
  obtain ⟨l', rfl⟩ := List.getLast?_eq_some_iff.mp h
  rw [List.append_assoc, List.singleton_append, content_return_newline, List.length_append,
    List.length_singleton]
  omega

/-- Two stretches part a `\r` from the `\n` after it. -/
def SplitsLineEnd (a b : List Char) : Prop := a.getLast? = some '\r' ∧ b.head? = some '\n'

instance (a b : List Char) : Decidable (SplitsLineEnd a b) :=
  inferInstanceAs (Decidable (_ ∧ _))

/-- An offset between two characters of a text that are no line end, or at
one of its ends. -/
def Settled (text : List Char) (offset : Nat) : Prop :=
  ∃ a b, text = a ++ b ∧ offset = byteLen a ∧ ¬SplitsLineEnd a b

/-- The end of a text is settled: no character follows it. -/
theorem settled_byteLen (text : List Char) : Settled text (byteLen text) :=
  ⟨text, [], (List.append_nil text).symm, rfl, fun hsplits => (by cases hsplits.2)⟩

/-- The offset of a place is the end of a stretch at the front of the text.
It is not between `\r` and `\n`. -/
theorem settled_offsetOf (text : List Char) (p : LineChr) : Settled text (offsetOf text p) := by
  induction text using lineInduction generalizing p with
  | last l h =>
    obtain ⟨b, hb⟩ := (List.take_prefix p.chr (content l)).trans (content_isPrefix l)
    refine ⟨(content l).take p.chr, b, hb.symm, offsetOf_last h p, fun hbetween => h ?_⟩
    rw [← hb]
    exact List.mem_append_right _ (List.mem_of_mem_head? hbetween.2)
  | more l rest h ih =>
    obtain ⟨line, chr⟩ := p
    cases line with
    | zero =>
      obtain ⟨b, hb⟩ := (List.take_prefix chr _).trans (content_newline_isPrefix l)
      refine ⟨(content (l ++ ['\n'])).take chr, b ++ '\n' :: rest, ?_, offsetOf_zero h rest chr, ?_⟩
      · rw [← List.append_assoc, hb]
      · rintro ⟨hreturn, hnewline⟩
        -- The stretch would be the line with its `\r`.
        have hnil : b = [] := by
          cases b with
          | nil => rfl
          | cons c b =>
            obtain rfl : c = '\n' := by simpa using hnewline
            exact absurd (hb ▸ List.mem_append_right _ List.mem_cons_self) h
        rw [hnil, List.append_nil] at hb
        rw [hb] at hreturn
        have hshort := length_content_lt hreturn
        have hlong := congrArg List.length hb
        rw [List.length_take] at hlong
        omega
    | succ n =>
      obtain ⟨a, b, hrest, hoffset, hbetween⟩ := ih ⟨n, chr⟩
      refine ⟨l ++ '\n' :: a, b, ?_, ?_, ?_⟩
      · rw [hrest, List.append_assoc, List.cons_append]
      · rw [offsetOf_succ h, hoffset, ← byteLen_append, List.append_assoc]
        rfl
      · rintro ⟨hreturn, hnewline⟩
        rcases List.eq_nil_or_concat a with rfl | ⟨a', c, rfl⟩
        · simp at hreturn
        · rw [List.concat_eq_append, ← List.cons_append, ← List.append_assoc,
            List.getLast?_concat] at hreturn
          refine hbetween ⟨?_, hnewline⟩
          rw [List.concat_eq_append, List.getLast?_concat, hreturn]

end ConceptScript.Text

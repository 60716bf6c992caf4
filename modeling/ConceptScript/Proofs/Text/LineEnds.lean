import ConceptScript.Proofs.Text.LineCut

/-!
# `ConceptScript.Proofs.Text.LineEnds`: texts with longer line ends

`crlf text` is a text with `\r\n` in place of each `\n`. All offsets after
the first line move, and `crlfShift text` says where to. Places do not
move, if the text has no `\r` of its own:

* `offsetOf_crlf`: the offset of a place is the moved offset.
* `lineChrOf_crlf`: the place of a moved offset is that of the offset.
* `throughLine_crlf`: the text through a line has longer line ends too.

What uses offsets only by comparing them does not see such a move. That is
all that a `Shift` is known by: it keeps the order of offsets and the start
of the text. What does not use offsets at all sees no `Moving` either, which
need not keep their order.
-/

set_option autoImplicit false

namespace ConceptScript.Text

/-! ### Moving offsets -/

/-- A way to move offsets that keeps the start of a text. -/
structure Moving where
  move : Nat → Nat
  zero : move 0 = 0

/-- A way to move offsets that keeps their order and the start of a text. -/
structure Shift extends Moving where
  lt_iff : ∀ {a b : Nat}, move a < move b ↔ a < b

instance : Coe Shift Moving := ⟨Shift.toMoving⟩

/-- Moved offsets are in the order that they were in before. A shift keeps
what is strictly before, and so what is not. -/
theorem Shift.le_iff (s : Shift) {a b : Nat} : s.move a ≤ s.move b ↔ a ≤ b := by
  rw [← Nat.not_lt, ← Nat.not_lt, s.lt_iff]

/-! ### Longer line ends -/

/-- A text with `\r\n` in place of each `\n`. -/
def crlf (text : List Char) : List Char :=
  text.flatMap fun c => if c = '\n' then ['\r', '\n'] else [c]

/-- Longer line ends are put into two texts one by one, since each `\n` is
replaced by itself. -/
theorem crlf_append (a b : List Char) : crlf (a ++ b) = crlf a ++ crlf b := List.flatMap_append

/-- A text without `\n` stays as it is. -/
theorem crlf_of_not_mem {l : List Char} (h : '\n' ∉ l) : crlf l = l := by
  induction l with
  | nil => rfl
  | cons c rest ih =>
    obtain ⟨hc, hrest⟩ := List.ne_and_not_mem_of_not_mem_cons h
    rw [crlf, List.flatMap_cons, if_neg (Ne.symm hc), ← crlf, ih hrest]
    rfl

/-- The first line of a text gets a `\r` before its end. -/
theorem crlf_append_newline {l : List Char} (h : '\n' ∉ l) (rest : List Char) :
    crlf (l ++ '\n' :: rest) = (l ++ ['\r']) ++ '\n' :: crlf rest := by
  rw [crlf_append, crlf_of_not_mem h, crlf, List.flatMap_cons, if_pos rfl, ← crlf]
  simp

/-- A `\r` at the end of a line brings no `\n` into it. -/
theorem not_mem_append_return {l : List Char} (h : '\n' ∉ l) : '\n' ∉ l ++ ['\r'] := by
  simp [h]

/-- A character is no longer than what stands in its place. -/
theorem utf8Size_le_crlf (c : Char) : c.utf8Size ≤ byteLen (crlf [c]) := by
  by_cases hc : c = '\n'
  · subst hc
    decide
  · rw [crlf_of_not_mem (by simpa using Ne.symm hc)]
    simp [byteLen]

/-- Where an offset of a text is moved to by longer line ends. -/
def crlfOffset : List Char → Nat → Nat
  | [], offset => offset
  | c :: rest, offset =>
    if offset < c.utf8Size then offset
    else byteLen (crlf [c]) + crlfOffset rest (offset - c.utf8Size)

/-- The start of a text stays where it is. -/
theorem crlfOffset_zero (text : List Char) : crlfOffset text 0 = 0 := by
  cases text with
  | nil => rfl
  | cons c rest => rw [crlfOffset, if_pos c.utf8Size_pos]

/-- Longer line ends keep the order of offsets. -/
theorem crlfOffset_lt_iff (text : List Char) {a b : Nat} :
    crlfOffset text a < crlfOffset text b ↔ a < b := by
  induction text generalizing a b with
  | nil => rfl
  | cons c rest ih =>
    have hsize := utf8Size_le_crlf c
    have hrest := ih (a := a - c.utf8Size) (b := b - c.utf8Size)
    rw [crlfOffset, crlfOffset]
    split <;> split <;> omega

/-- How longer line ends move the offsets of a text. -/
def crlfShift (text : List Char) : Shift where
  move := crlfOffset text
  zero := crlfOffset_zero text
  lt_iff := crlfOffset_lt_iff text

/-- Offsets after a stretch at the front of a text. -/
theorem crlfOffset_append (a b : List Char) (offset : Nat) :
    crlfOffset (a ++ b) (byteLen a + offset) = byteLen (crlf a) + crlfOffset b offset := by
  induction a with
  | nil =>
    show crlfOffset b (0 + offset) = 0 + _
    rw [Nat.zero_add, Nat.zero_add]
  | cons c rest ih =>
    have hbytes : byteLen (c :: rest) = c.utf8Size + byteLen rest := rfl
    have hcrlf : byteLen (crlf (c :: rest)) = byteLen (crlf [c]) + byteLen (crlf rest) := by
      rw [← byteLen_append, ← crlf_append]
      rfl
    rw [List.cons_append, crlfOffset, if_neg (by omega), hcrlf, Nat.add_assoc, ← ih]
    congr 2
    omega

/-- The end of a stretch at the front moves to where the stretch ends with
longer line ends. -/
theorem crlfOffset_byteLen (a b : List Char) :
    crlfOffset (a ++ b) (byteLen a) = byteLen (crlf a) := by
  have h := crlfOffset_append a b 0
  rwa [crlfOffset_zero] at h

/-- Offsets up to the end of the first line stay. -/
theorem crlfOffset_of_le {l : List Char} (h : '\n' ∉ l) (rest : List Char) {offset : Nat}
    (hle : offset ≤ byteLen l) : crlfOffset (l ++ rest) offset = offset := by
  induction l generalizing offset with
  | nil =>
    obtain rfl : offset = 0 := Nat.le_zero.mp hle
    exact crlfOffset_zero _
  | cons c l ih =>
    obtain ⟨hc, hl⟩ := List.ne_and_not_mem_of_not_mem_cons h
    have hbytes : byteLen (c :: l) = c.utf8Size + byteLen l := rfl
    have hone : byteLen (crlf [c]) = c.utf8Size := by
      rw [crlf_of_not_mem (by simpa using hc)]
      rfl
    rw [List.cons_append, crlfOffset]
    split
    · rfl
    · rw [ih hl (by omega), hone]
      omega

/-- On a line without an end all offsets stay. -/
theorem crlfOffset_of_not_mem {l : List Char} (h : '\n' ∉ l) (offset : Nat) :
    crlfOffset l offset = offset := by
  rcases Nat.le_total offset (byteLen l) with hle | hle
  · simpa using crlfOffset_of_le h [] hle
  · obtain ⟨past, rfl⟩ := Nat.exists_eq_add_of_le hle
    have hpast := crlfOffset_append l [] past
    rwa [List.append_nil, crlf_of_not_mem h] at hpast

/-! ### Places stay -/

/-- The content of a line begins with all that is no part of its end. -/
theorem content_append {l : List Char} (h : '\n' ∉ l) (hreturn : '\r' ∉ l) (b : List Char) :
    content (l ++ b) = l ++ content b := by
  induction l with
  | nil => rfl
  | cons c l ih =>
    obtain ⟨hc, hl⟩ := List.ne_and_not_mem_of_not_mem_cons h
    obtain ⟨hc', hl'⟩ := List.ne_and_not_mem_of_not_mem_cons hreturn
    have hcons : content (c :: (l ++ b)) = c :: content (l ++ b) := by
      simp [content, hc.symm, hc'.symm]
    rw [List.cons_append, hcons, ih hl hl', List.cons_append]

/-- A line has the same content with either end. -/
theorem content_return {l : List Char} (h : '\n' ∉ l) (hreturn : '\r' ∉ l) :
    content (l ++ ['\n']) = l ∧ content (l ++ ['\r'] ++ ['\n']) = l := by
  constructor
  · rw [content_append h hreturn]
    exact List.append_nil l
  · rw [List.append_assoc, content_append h hreturn]
    exact List.append_nil l

/-- A place has the moved offset. -/
theorem offsetOf_crlf {text : List Char} (hreturn : '\r' ∉ text) (p : LineChr) :
    offsetOf (crlf text) p = (crlfShift text).move (offsetOf text p) := by
  show _ = crlfOffset text _
  induction text using lineInduction generalizing p with
  | last l h => rw [crlf_of_not_mem h, crlfOffset_of_not_mem h]
  | more l rest h ih =>
    obtain ⟨hl, hrest⟩ : '\r' ∉ l ∧ '\r' ∉ rest := by simpa using hreturn
    obtain ⟨hcontent, hcontent'⟩ := content_return h hl
    obtain ⟨line, chr⟩ := p
    rw [crlf_append_newline h]
    cases line with
    | zero =>
      -- The place is in the content of the line or at its end.
      have hle : byteLen (l.take chr) ≤ byteLen l := byteLen_le_of_isPrefix (List.take_prefix chr l)
      rw [offsetOf_zero (not_mem_append_return h), offsetOf_zero h, hcontent, hcontent',
        crlfOffset_of_le h _ hle]
    | succ n =>
      have hend : crlf (l ++ ['\n']) = l ++ ['\r'] ++ ['\n'] := crlf_append_newline h []
      rw [offsetOf_succ (not_mem_append_return h), offsetOf_succ h, ih hrest,
        List.append_cons l '\n' rest, crlfOffset_append, hend]

/-- The characters that end within some bytes at the front of a text do not
depend on what follows. -/
theorem charsWithin_append_of_le {l : List Char} (b : List Char) {offset : Nat}
    (h : offset ≤ byteLen l) : charsWithin (l ++ b) offset = charsWithin l offset := by
  induction l generalizing offset with
  | nil =>
    obtain rfl : offset = 0 := Nat.le_zero.mp h
    cases b with
    | nil => rfl
    | cons c b =>
      show (if c.utf8Size ≤ 0 then charsWithin b (0 - c.utf8Size) + 1 else 0) = 0
      rw [if_neg (Nat.not_le_of_lt c.utf8Size_pos)]
  | cons c l ih =>
    have hbytes : byteLen (c :: l) = c.utf8Size + byteLen l := rfl
    rw [List.cons_append, charsWithin, charsWithin, ih (by omega)]

/-- The place of a moved offset is the place of the offset. -/
theorem lineChrOf_crlf {text : List Char} (hreturn : '\r' ∉ text) (offset : Nat) :
    lineChrOf (crlf text) ((crlfShift text).move offset) = lineChrOf text offset := by
  show lineChrOf _ (crlfOffset text offset) = _
  induction text using lineInduction generalizing offset with
  | last l h => rw [crlf_of_not_mem h, crlfOffset_of_not_mem h]
  | more l rest h ih =>
    obtain ⟨hl, hrest⟩ : '\r' ∉ l ∧ '\r' ∉ rest := by simpa using hreturn
    obtain ⟨hcontent, hcontent'⟩ := content_return h hl
    have hend : crlf (l ++ ['\n']) = l ++ ['\r'] ++ ['\n'] := crlf_append_newline h []
    have hlen : byteLen (l ++ ['\n']) = byteLen l + 1 := byteLen_append l ['\n']
    have hlen' : byteLen (l ++ ['\r'] ++ ['\n']) = byteLen l + 2 := by
      rw [List.append_assoc]
      exact byteLen_append l ['\r', '\n']
    rw [crlf_append_newline h, lineChrOf_more (not_mem_append_return h), lineChrOf_more h, hcontent,
      hcontent']
    rcases Nat.lt_or_ge offset (byteLen (l ++ ['\n'])) with hlt | hge
    · -- The offset is on the first line, where nothing moves.
      have hle : offset ≤ byteLen l := by omega
      rw [crlfOffset_of_le h _ hle, if_pos (by omega), if_pos hlt, List.append_assoc,
        charsWithin_append_of_le _ hle, charsWithin_append_of_le _ hle]
    · obtain ⟨past, rfl⟩ := Nat.exists_eq_add_of_le hge
      rw [List.append_cons l '\n' rest, crlfOffset_append, hend, if_neg (by omega),
        if_neg (by omega), Nat.add_sub_cancel_left, Nat.add_sub_cancel_left, ih hrest]

/-- A text through a line gets longer line ends with the text. -/
theorem throughLine_crlf (text : List Char) (n : Nat) :
    throughLine (crlf text) n = crlf (throughLine text n) := by
  induction text using lineInduction generalizing n with
  | last l h => rw [crlf_of_not_mem h, throughLine_last h, crlf_of_not_mem h]
  | more l rest h ih =>
    rw [crlf_append_newline h]
    cases n with
    | zero =>
      rw [throughLine_zero (not_mem_append_return h), throughLine_zero h]
      exact (crlf_append_newline h []).symm
    | succ n =>
      rw [throughLine_succ (not_mem_append_return h), throughLine_succ h, ih,
        crlf_append_newline h]

end ConceptScript.Text

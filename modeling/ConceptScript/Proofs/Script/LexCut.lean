import Mathlib.Data.List.TakeWhile
import ConceptScript.Script.Lexeme
import ConceptScript.Proofs.Text.LineCut

/-!
# `ConceptScript.Proofs.Script.LexCut`: lexemes of a text cut after a line

A text is cut after a line, and both parts are lexed. Lexemes other than
quoted strings and references stay on their line, so cutting between lines
leaves them alone. A quoted string or a reference can go on over lines;
one that goes on over the cut is not closed before it.

So the lexemes of the cut text are the first lexemes of the whole text, up
to one that is cut through and is not closed: `lexFrom_append`.
-/

set_option autoImplicit false

namespace ConceptScript.Script

open ConceptScript.Text

/-- Kinds of lexemes that can go on over the end of a line. -/
def LexemeKind.isStretch : LexemeKind → Bool
  | .quoted _ _ => true
  | .reference _ => true
  | _ => false

/-- Kinds of lexemes that the script ends inside. -/
def LexemeKind.isOpen : LexemeKind → Bool
  | .quoted _ closed => !closed
  | .reference closed => !closed
  | _ => false

/-- A kind of lexemes, but for the script ending inside. -/
def LexemeKind.opened : LexemeKind → LexemeKind
  | .quoted q _ => .quoted q false
  | .reference _ => .reference false
  | kind => kind

/-- A kind that can go on over a line end is open where the script ends
inside. -/
theorem LexemeKind.isOpen_opened {kind : LexemeKind} (h : kind.isStretch = true) :
    kind.opened.isOpen = true := by
  cases kind <;> first | rfl | cases h

/-! ### Texts of whole lines -/

/-- A text that is empty or ends with the end of a line. -/
def EndsLine (s : List Char) : Prop := ∀ c ∈ s.getLast?, c = '\n'

/-- A text with `\n` at its end ends a line. -/
theorem endsLine_newline (s : List Char) : EndsLine (s ++ ['\n']) := by
  intro c hc
  rw [List.getLast?_concat] at hc
  exact (Option.mem_some_iff.mp hc).symm

/-- The rear of whole lines ends a line or is empty. -/
theorem EndsLine.of_append {s s' : List Char} (h : EndsLine (s ++ s')) : EndsLine s' := by
  intro c hc
  refine h c ?_
  rw [List.getLast?_append, Option.mem_def.mp hc]
  rfl

/-- The rest of whole lines ends a line or is empty. -/
theorem EndsLine.of_cons {c : Char} {s : List Char} (h : EndsLine (c :: s)) : EndsLine s :=
  EndsLine.of_append (s := [c]) h

/-- Whole lines after whole lines are whole lines. -/
theorem EndsLine.append {s s' : List Char} (h : EndsLine s) (h' : EndsLine s') :
    EndsLine (s ++ s') := by
  intro c hc
  rw [List.getLast?_append] at hc
  rcases Option.or_eq_some_iff.mp hc with hc | ⟨_, hc⟩
  · exact h' c hc
  · exact h c hc

/-- Whole lines have a `\n`, unless there are none. -/
theorem EndsLine.mem {s : List Char} (h : EndsLine s) (hs : s ≠ []) : '\n' ∈ s := by
  have hlast := h (s.getLast hs) (List.getLast?_eq_some_getLast hs)
  exact hlast ▸ List.getLast_mem hs

/-- What has a certain property at the front of a text of whole lines ends
inside it, if an end of line has not that property. -/
theorem takeWhile_append_of_mem {p : Char → Bool} {s : List Char} {c : Char} (hc : c ∈ s)
    (hp : p c = false) (b : List Char) :
    (s ++ b).takeWhile p = s.takeWhile p ∧ (s ++ b).dropWhile p = s.dropWhile p ++ b := by
  induction s with
  | nil => exact absurd hc List.not_mem_nil
  | cons d s ih =>
    rw [List.cons_append, List.takeWhile_cons, List.takeWhile_cons, List.dropWhile_cons,
      List.dropWhile_cons]
    cases hd : p d with
    | false => exact ⟨rfl, rfl⟩
    | true =>
      have hmem : c ∈ s := by
        rcases List.mem_cons.mp hc with rfl | hmem
        · rw [hp] at hd
          cases hd
        · exact hmem
      obtain ⟨htake, hdrop⟩ := ih hmem
      simp only [if_true, htake, hdrop, and_self]

/-! ### One lexeme -/

/-- A quoted string that is closed within whole lines ends there; one that
is not takes all of them and goes on. -/
theorem splitQuoted_append_right {q : Char} (hq : q ≠ '\n') {s : List Char} (hs : EndsLine s)
    (b : List Char) :
    splitQuoted q (s ++ b) =
      if (splitQuoted q s).2.1 then ((splitQuoted q s).1, true, (splitQuoted q s).2.2 ++ b)
      else (s ++ (splitQuoted q b).1, (splitQuoted q b).2) := by
  fun_induction splitQuoted q s with
  | case1 => rfl
  | case2 c =>
    -- The last character is the end of a line, and no quote.
    have hc : c ≠ q := by
      rw [hs c rfl]
      exact hq.symm
    have hopen : (c == q) = false := beq_eq_false_iff_ne.mpr hc
    cases b with
    | nil => simp [splitQuoted, hopen]
    | cons d b => simp [splitQuoted, hc, hopen]
  | case3 rest taken closed left hsplit ih =>
    have ih := ih hs.of_cons.of_cons
    rw [hsplit] at ih
    rw [List.cons_append, List.cons_append, splitQuoted, if_pos rfl, if_pos rfl, ih]
    cases closed <;> rfl
  | case4 d rest hd =>
    rw [List.cons_append, List.cons_append, splitQuoted, if_pos rfl, if_neg hd]
    rfl
  | case5 c d rest hc taken closed left hsplit ih =>
    have ih := ih hs.of_cons
    rw [hsplit] at ih
    rw [List.cons_append, List.cons_append, splitQuoted, if_neg hc, ← List.cons_append, ih]
    cases closed <;> rfl

/-- A quoted string that is not closed within a text takes all of it. -/
theorem splitQuoted_rest_of_open {q : Char} {s : List Char} (h : (splitQuoted q s).2.1 = false) :
    (splitQuoted q s).2.2 = [] := by
  fun_induction splitQuoted q s with
  | case1 => rfl
  | case2 => rfl
  | case3 rest taken closed left hsplit ih =>
    rw [hsplit] at ih
    exact ih h
  | case4 => cases h
  | case5 c d rest hc taken closed left hsplit ih =>
    rw [hsplit] at ih
    exact ih h

/-- Splitting a text takes at least one character of it. -/
theorem splitQuoted_fst_ne_nil {q : Char} {s : List Char} (h : s ≠ []) :
    (splitQuoted q s).1 ≠ [] := by
  fun_induction splitQuoted q s with
  | case1 => exact absurd rfl h
  | _ => exact List.cons_ne_nil _ _

/-- A lexeme at the front of whole lines that goes on over their end: it
takes all of them without being closed, and more of what follows. -/
structure Crosses (s : List Char) (before after : Cut) : Prop where
  rest : before.rest = []
  isStretch : after.kind.isStretch = true
  kind : before.kind = after.kind.opened
  text : ∃ more, more ≠ [] ∧ after.text = s ++ more

/-- A string in whole lines is cut off in the same way when more text
follows, or it takes all of these lines and goes on over their end. -/
theorem cutQuoted_append_right (q : Quote) {rest : List Char} (h : EndsLine rest) {b : List Char}
    (hb : b ≠ []) :
    (cutQuoted q (rest ++ b) = { cutQuoted q rest with rest := (cutQuoted q rest).rest ++ b }) ∨
      Crosses (q.char :: rest) (cutQuoted q rest) (cutQuoted q (rest ++ b)) := by
  have hq : q.char ≠ '\n' := by cases q <;> decide
  have hsplit := splitQuoted_append_right hq h b
  unfold cutQuoted
  cases hclosed : (splitQuoted q.char rest).2.1 with
  | true =>
    -- The string is closed in these lines, so what follows does not matter.
    rw [hclosed, if_pos rfl] at hsplit
    refine .inl ?_
    rw [hsplit]
    show _ = (⟨.quoted q (splitQuoted q.char rest).2.1, _, _⟩ : Cut)
    rw [hclosed]
  | false =>
    -- No quote closes it, so all of these lines are part of it.
    rw [hclosed, if_neg Bool.false_ne_true] at hsplit
    refine .inr ⟨splitQuoted_rest_of_open hclosed, rfl, ?_, ?_⟩
    · show LexemeKind.quoted q (splitQuoted q.char rest).2.1 = .quoted q false
      rw [hclosed]
    · rw [hsplit]
      exact ⟨_, splitQuoted_fst_ne_nil hb, rfl⟩

/-- The same of a reference. -/
theorem cutReference_append_right (rest : List Char) {b : List Char} (hb : b ≠ []) :
    (cutReference (rest ++ b) = { cutReference rest with rest := (cutReference rest).rest ++ b }) ∨
      Crosses ('<' :: rest) (cutReference rest) (cutReference (rest ++ b)) := by
  by_cases hclosed : '>' ∈ rest
  · obtain ⟨htake, hdrop⟩ := takeWhile_append_of_mem (p := (· != '>')) hclosed (by decide) b
    refine .inl ?_
    unfold cutReference
    rw [htake, hdrop]
    cases hleft : rest.dropWhile (· != '>') with
    | nil =>
      have hnone := List.dropWhile_eq_nil_iff.mp hleft '>' hclosed
      exact absurd hnone (by decide)
    | cons close left => rfl
  · have hall : ∀ c ∈ rest, (c != '>') = true := by
      intro c hc
      rw [bne_iff_ne]
      rintro rfl
      exact hclosed hc
    have hopen : rest.dropWhile (· != '>') = [] := List.dropWhile_eq_nil_iff.mpr hall
    have hbefore : cutReference rest = ⟨.reference false, '<' :: rest, []⟩ := by
      rw [cutReference, hopen]
    refine .inr ?_
    rw [hbefore, cutReference, List.dropWhile_append_of_pos hall, List.takeWhile_append_of_pos hall]
    -- Whether or not the reference is closed after the cut, it takes something of what follows.
    cases hafter : b.dropWhile (· != '>') with
    | nil => exact ⟨rfl, rfl, rfl, b, hb, rfl⟩
    | cons close left =>
      refine ⟨rfl, rfl, rfl, b.takeWhile (· != '>') ++ [close], ?_, ?_⟩
      · exact List.append_ne_nil_of_right_ne_nil _ (List.cons_ne_nil close [])
      · show '<' :: (rest ++ _ ++ [close]) = _
        rw [List.append_assoc]
        rfl

/-- A lexeme at the front of whole lines is the same whatever follows the
lines, or it is one that crosses their end. -/
theorem cutLexeme_append_right {c : Char} {rest : List Char} (hblank : isBlank c = false)
    (h : EndsLine (c :: rest)) {b : List Char} (hb : b ≠ []) :
    (cutLexeme c (rest ++ b) = { cutLexeme c rest with rest := (cutLexeme c rest).rest ++ b }) ∨
      Crosses (c :: rest) (cutLexeme c rest) (cutLexeme c (rest ++ b)) := by
  -- A line ends after the first character, since that is not blank.
  have hrest : rest ≠ [] := by
    rintro rfl
    rw [h c rfl] at hblank
    cases hblank
  have hnewline : '\n' ∈ rest := h.of_cons.mem hrest
  unfold cutLexeme
  split
  · obtain ⟨htake, hdrop⟩ := takeWhile_append_of_mem (p := isWordChar) hnewline (by decide) b
    rw [htake, hdrop]
    exact .inl rfl
  split
  · next hc =>
    subst hc
    exact cutQuoted_append_right .single h.of_cons hb
  split
  · next hc =>
    subst hc
    exact cutQuoted_append_right .double h.of_cons hb
  split
  · next hc =>
    subst hc
    exact cutReference_append_right rest hb
  have hhead : (rest ++ b).head? = rest.head? := by
    rw [List.head?_append, Option.or_of_isSome (List.isSome_head?.mpr hrest)]
  rw [hhead]
  split
  · obtain ⟨htake, hdrop⟩ := takeWhile_append_of_mem (p := staysOnLine) hnewline (by decide) b
    rw [htake, hdrop]
    exact .inl rfl
  · exact .inl rfl

/-! ### All lexemes -/

/-- A text that does not start with white space is the lexeme at its front
and the lexemes of the rest. -/
theorem lexFrom_cons {offset : Nat} {c : Char} {rest : List Char} (h : isBlank c = false) :
    lexFrom offset (c :: rest) =
      ⟨(cutLexeme c rest).kind, (cutLexeme c rest).text, offset,
          offset + byteLen (cutLexeme c rest).text⟩ ::
        lexFrom (offset + byteLen (cutLexeme c rest).text) (cutLexeme c rest).rest := by
  rw [lexFrom, if_neg (Bool.eq_false_iff.mp h)]

/-- A lexeme that starts before an offset and stops after it. -/
def Lexeme.Crosses (offset : Nat) (l : Lexeme) : Prop := l.start < offset ∧ offset < l.stop

/-- What a cut at an offset leaves of a lexeme that goes on over it: an
open string or reference from the start of the lexeme to the cut. -/
structure CutThrough (offset : Nat) (l u : Lexeme) : Prop where
  crosses : l.Crosses offset
  isStretch : l.kind.isStretch = true
  kind : u.kind = l.kind.opened
  start : u.start = l.start
  stop : u.stop = offset
  text : u.text <+: l.text

/-- What a cut leaves of a lexeme is open. -/
theorem CutThrough.isOpen {offset : Nat} {l u : Lexeme} (h : CutThrough offset l u) :
    u.kind.isOpen = true := by
  rw [h.kind]
  exact LexemeKind.isOpen_opened h.isStretch

/-- The lexemes of whole lines come first in a longer text, up to one that
crosses the end of the lines. -/
theorem lexFrom_append {a b : List Char} (offset : Nat) (ha : EndsLine a) (hb : b ≠ []) :
    lexFrom offset (a ++ b) = lexFrom offset a ++ lexFrom (offset + byteLen a) b ∨
      ∃ ls u l ls', lexFrom offset a = ls ++ [u] ∧ lexFrom offset (a ++ b) = ls ++ l :: ls'
        ∧ CutThrough (offset + byteLen a) l u := by
  -- At each place there is a blank, or a lexeme that stays in the lines or
  -- crosses their end.
  fun_induction lexFrom offset a with
  | case1 offset => exact .inl rfl
  | case2 offset c rest hblank ih =>
    have hlen : offset + byteLen (c :: rest) = offset + c.utf8Size + byteLen rest := by
      show offset + (c.utf8Size + byteLen rest) = _
      omega
    rw [hlen, List.cons_append, lexFrom, if_pos hblank]
    exact ih ha.of_cons
  | case3 offset c rest hblank cut stop ih =>
    have happend := cutLexeme_append c rest
    have hblank := Bool.eq_false_iff.mpr hblank
    rcases cutLexeme_append_right hblank ha hb with hsame | hcross
    · have hends : EndsLine cut.rest := EndsLine.of_append (s := cut.text) (happend ▸ ha)
      have hlen : stop + byteLen cut.rest = offset + byteLen (c :: rest) := by
        rw [← happend, byteLen_append, ← Nat.add_assoc]
      have hcons : lexFrom offset (c :: (rest ++ b)) =
          ⟨cut.kind, cut.text, offset, stop⟩ :: lexFrom stop (cut.rest ++ b) := by
        rw [lexFrom_cons hblank, hsame]
      rw [List.cons_append, hcons, ← hlen]
      rcases ih hends with hall | ⟨ls, u, l, ls', hls, hls', hcut⟩
      · exact .inl (congrArg (_ :: ·) hall)
      · exact .inr ⟨_ :: ls, u, l, ls', congrArg (_ :: ·) hls, congrArg (_ :: ·) hls', hcut⟩
    · -- Nothing is left of the lines for another lexeme.
      have hopen : lexFrom stop cut.rest = [] := by
        rw [show cut.rest = [] from hcross.rest, lexFrom]
      have hcons : lexFrom offset (c :: rest ++ b) = _ := lexFrom_cons hblank
      have htaken : cut.text = c :: rest := by
        rw [← happend, show cut.rest = [] from hcross.rest, List.append_nil]
      obtain ⟨more, hmore, htext⟩ := hcross.text
      refine .inr ⟨[], _, _, _, congrArg (_ :: ·) hopen, hcons, ⟨?_, ?_⟩, hcross.isStretch,
        hcross.kind, rfl, ?_, ?_⟩
      · exact Nat.lt_add_of_pos_right (byteLen_pos (List.cons_ne_nil c rest))
      · have hpos := byteLen_pos hmore
        show offset + byteLen (c :: rest) < offset + byteLen (cutLexeme c (rest ++ b)).text
        rw [htext, byteLen_append]
        omega
      · exact congrArg (offset + byteLen ·) htaken
      · show cut.text <+: (cutLexeme c (rest ++ b)).text
        rw [htext, htaken]
        exact List.prefix_append _ _

/-- A lexeme is what is cut off where it starts. -/
theorem exists_cutLexeme_of_mem {offset : Nat} {text : List Char} {l : Lexeme}
    (h : l ∈ lexFrom offset text) : ∃ a c rest, text = a ++ c :: rest ∧ isBlank c = false
      ∧ l = ⟨(cutLexeme c rest).kind, (cutLexeme c rest).text, offset + byteLen a,
        offset + byteLen a + byteLen (cutLexeme c rest).text⟩ := by
  fun_induction lexFrom offset text with
  | case1 => exact absurd h List.not_mem_nil
  | case2 offset c rest hblank ih =>
    obtain ⟨a, d, left, rfl, hd, rfl⟩ := ih h
    refine ⟨c :: a, d, left, rfl, hd, ?_⟩
    rw [byteLen, ← Nat.add_assoc]
  | case3 offset c rest hblank cut stop ih =>
    rcases List.mem_cons.mp h with rfl | hmem
    · exact ⟨[], c, rest, rfl, Bool.eq_false_iff.mpr hblank, rfl⟩
    · obtain ⟨a, d, left, hrest, hd, rfl⟩ := ih hmem
      refine ⟨cut.text ++ a, d, left, ?_, hd, ?_⟩
      · rw [List.append_assoc, ← hrest]
        exact (cutLexeme_append c rest).symm
      · rw [byteLen_append, ← Nat.add_assoc]

/-- A word is made of the characters of words. -/
theorem isWordChar_of_cutLexeme {c : Char} {rest : List Char}
    (h : (cutLexeme c rest).kind = .word) : ∀ d ∈ (cutLexeme c rest).text, isWordChar d = true := by
  -- Only the first kind of cut is a word.
  unfold cutLexeme at h ⊢
  split at h
  · next hc =>
    rw [if_pos hc]
    exact List.forall_mem_cons.mpr ⟨hc, fun d hd => List.mem_takeWhile_imp hd⟩
  split at h
  · cases h
  split at h
  · cases h
  split at h
  · unfold cutReference at h
    split at h <;> cases h
  split at h <;> cases h

/-- The characters of a word are letters, numbers and underscores. -/
theorem isWordChar_of_word {offset : Nat} {text : List Char} {l : Lexeme}
    (h : l ∈ lexFrom offset text) (hword : l.kind = .word) : ∀ c ∈ l.text, isWordChar c = true := by
  obtain ⟨a, c, rest, _, _, rfl⟩ := exists_cutLexeme_of_mem h
  exact isWordChar_of_cutLexeme hword

end ConceptScript.Script

import ConceptScript.Proofs.Script.LexPrefix
import ConceptScript.Proofs.Script.Moved
import ConceptScript.Proofs.Script.StreamCut
import ConceptScript.Script.StoredTexts

/-!
# `ConceptScript.Proofs.Script.LexLineEnds`: lexing texts with longer line ends

In an `Unbroken` text no lexeme goes on over a line end, and lines end with
`\n` alone. With `\r\n` in place of `\n` it has the same lexemes at moved
offsets (`lex_crlf`), so it has the same tokens at moved offsets
(`tokenize_crlf`) and the same comments (`comments_crlf`). A syntax error
is about the same places (`inText_crlf`).

Each lexeme but quoted strings and references stops before a `\r` as it
does before a `\n`. Those two go on over either, so for them it matters
that they stay on a line.
-/

set_option autoImplicit false

namespace ConceptScript.Script

open ConceptScript.Text
open ConceptScript.Files (FilePath)

/-! ### One lexeme -/

/-- A character that is no `\n` stays. -/
theorem crlf_cons_of_ne {c : Char} (h : c ≠ '\n') (rest : List Char) :
    crlf (c :: rest) = c :: crlf rest := by
  rw [crlf, List.flatMap_cons, if_neg h]
  rfl

/-- A `\n` gets a `\r` in front of it. -/
theorem crlf_newline (rest : List Char) : crlf ('\n' :: rest) = '\r' :: '\n' :: crlf rest := rfl

/-- What stands first in a text stays there, unless it ends a line. -/
theorem exists_crlf_cons (c : Char) (rest : List Char) :
    ∃ first more, crlf (c :: rest) = first :: more ∧ (first = c ∨ first = '\r') := by
  by_cases hc : c = '\n'
  · subst hc
    exact ⟨'\r', _, crlf_newline rest, .inr rfl⟩
  · exact ⟨c, _, crlf_cons_of_ne hc rest, .inl rfl⟩

/-- Longer line ends do not change whether a text starts with a certain
character, but for the two of line ends. -/
theorem head?_crlf {c : Char} (h : c ≠ '\n') (hreturn : c ≠ '\r') (text : List Char) :
    (crlf text).head? = some c ↔ text.head? = some c := by
  cases text with
  | nil => rfl
  | cons d rest =>
    by_cases hd : d = '\n'
    · subst hd
      simp [crlf_newline, h.symm, hreturn.symm]
    · simp [crlf_cons_of_ne hd]

/-- A stretch at the front that stays on its line is the same with longer
line ends, if it stops before a `\r` where it stops before a `\n`. -/
theorem takeWhile_crlf {p : Char → Bool} (hp : p '\n' = false → p '\r' = false) {text : List Char}
    (h : '\n' ∉ text.takeWhile p) :
    (crlf text).takeWhile p = text.takeWhile p
      ∧ (crlf text).dropWhile p = crlf (text.dropWhile p) := by
  induction text with
  | nil => exact ⟨rfl, rfl⟩
  | cons c rest ih =>
    by_cases hc : c = '\n'
    · -- The stretch ends here, since it would go on over the line end.
      subst hc
      have hnewline : p '\n' = false := by
        by_contra hmem
        rw [Bool.not_eq_false] at hmem
        exact h (by simp [hmem])
      simp [crlf_newline, hnewline, hp hnewline]
    · rw [crlf_cons_of_ne hc]
      cases hpc : p c with
      | false => simp [hpc, crlf_cons_of_ne hc]
      | true =>
        rw [List.takeWhile_cons, hpc, if_pos rfl] at h
        obtain ⟨htake, hdrop⟩ := ih (List.not_mem_of_not_mem_cons h)
        simp [hpc, htake, hdrop]

/-- A text that is split before the end of its line is split in the same way
with longer line ends. -/
theorem splitQuoted_crlf {q : Char} (hq : q ≠ '\r') {rest : List Char}
    (h : '\n' ∉ (splitQuoted q rest).1) :
    splitQuoted q (crlf rest)
      = ((splitQuoted q rest).1, (splitQuoted q rest).2.1, crlf (splitQuoted q rest).2.2) := by
  fun_induction splitQuoted q rest with
  | case1 => rfl
  | case2 c =>
    rw [crlf_of_not_mem h]
    rfl
  | case3 rest taken closed left hsplit ih =>
    obtain ⟨hne, htaken⟩ := List.ne_and_not_mem_of_not_mem_cons h
    rw [hsplit] at ih
    rw [crlf_cons_of_ne hne.symm, crlf_cons_of_ne hne.symm, splitQuoted, if_pos rfl, if_pos rfl,
      ih (List.not_mem_of_not_mem_cons htaken)]
  | case4 d rest hd =>
    -- The string ends before the second character, and before a `\r` too.
    obtain ⟨first, more, hfirst, hcases⟩ := exists_crlf_cons d rest
    have hfirst' : first ≠ q := by
      rcases hcases with rfl | rfl
      · exact hd
      · exact hq.symm
    obtain ⟨hne, _⟩ := List.ne_and_not_mem_of_not_mem_cons h
    rw [crlf_cons_of_ne hne.symm, hfirst, splitQuoted, if_pos rfl, if_neg hfirst']
  | case5 c d rest hc taken closed left hsplit ih =>
    obtain ⟨hne, htaken⟩ := List.ne_and_not_mem_of_not_mem_cons h
    obtain ⟨first, more, hfirst, _⟩ := exists_crlf_cons d rest
    rw [hsplit] at ih
    have ih := ih htaken
    rw [hfirst] at ih
    rw [crlf_cons_of_ne hne.symm, hfirst, splitQuoted, if_neg hc, ih]

/-- A string that stays on its line is cut off in the same way with longer
line ends. -/
theorem cutQuoted_crlf (q : Quote) {rest : List Char} (h : '\n' ∉ (cutQuoted q rest).text) :
    cutQuoted q (crlf rest) = { cutQuoted q rest with rest := crlf (cutQuoted q rest).rest } := by
  have hq : q.char ≠ '\r' := by cases q <;> decide
  rw [cutQuoted, splitQuoted_crlf hq (List.not_mem_of_not_mem_cons h)]
  rfl

/-- A reference that stays on its line is cut off in the same way with longer
line ends. -/
theorem cutReference_crlf {rest : List Char} (h : '\n' ∉ (cutReference rest).text) :
    cutReference (crlf rest) = { cutReference rest with rest := crlf (cutReference rest).rest } := by
  have hstays : '\n' ∉ rest.takeWhile (· != '>') := by
    intro hmem
    refine h ?_
    unfold cutReference
    split
    · exact List.mem_cons_of_mem _ (List.takeWhile_subset _ hmem)
    · exact List.mem_cons_of_mem _ (List.mem_append_left _ hmem)
  obtain ⟨htake, hdrop⟩ := takeWhile_crlf (p := (· != '>')) (fun hp => by simp at hp) hstays
  unfold cutReference at h ⊢
  rw [htake, hdrop]
  cases hleft : rest.dropWhile (· != '>') with
  | nil =>
    -- The reference is not closed, so nothing but it follows.
    rw [hleft] at h
    rw [crlf_of_not_mem (List.not_mem_of_not_mem_cons h)]
    rfl
  | cons close left =>
    rw [hleft] at h
    have hclose : close ≠ '\n' := by
      rintro rfl
      exact h (by simp)
    rw [crlf_cons_of_ne hclose]

/-- A lexeme that stays on its line is the same with longer line ends. -/
theorem cutLexeme_crlf {c : Char} {rest : List Char} (h : '\n' ∉ (cutLexeme c rest).text) :
    cutLexeme c (crlf rest)
      = { cutLexeme c rest with rest := crlf (cutLexeme c rest).rest } := by
  -- Whether a slash starts a comment is seen from the next character, which is no line end.
  have hhead : (crlf rest).head? = some '/' ↔ rest.head? = some '/' :=
    head?_crlf (by decide) (by decide) rest
  unfold cutLexeme at h ⊢
  simp only [hhead]
  split
  · next hc =>
    rw [if_pos hc] at h
    obtain ⟨htake, hdrop⟩ := takeWhile_crlf (p := isWordChar) (fun _ => by decide)
      (List.not_mem_of_not_mem_cons h)
    rw [htake, hdrop]
  rw [if_neg ‹_›] at h
  split
  · next hc =>
    rw [if_pos hc] at h
    exact cutQuoted_crlf .single h
  rw [if_neg ‹_›] at h
  split
  · next hc =>
    rw [if_pos hc] at h
    exact cutQuoted_crlf .double h
  rw [if_neg ‹_›] at h
  split
  · next hc =>
    rw [if_pos hc] at h
    exact cutReference_crlf h
  rw [if_neg ‹_›] at h
  split
  · next hc =>
    rw [if_pos hc] at h
    obtain ⟨htake, hdrop⟩ := takeWhile_crlf (p := staysOnLine) (fun _ => by decide)
      (List.not_mem_of_not_mem_cons h)
    rw [htake, hdrop]
  · rfl

/-- Lexemes other than strings and references stay on their line. -/
theorem not_mem_cutLexeme {c : Char} {rest : List Char} (hblank : isBlank c = false)
    (h : (cutLexeme c rest).kind.isStretch = false) : '\n' ∉ (cutLexeme c rest).text := by
  have hc : '\n' ≠ c := by
    rintro rfl
    cases hblank
  -- What is taken after the first character has a property that a line end has not.
  have hstops : ∀ p : Char → Bool, p '\n' = false → '\n' ∉ c :: rest.takeWhile p := by
    intro p hp hmem
    rw [List.mem_takeWhile_imp ((List.mem_cons.mp hmem).resolve_left hc)] at hp
    cases hp
  unfold cutLexeme at h ⊢
  split
  · exact hstops isWordChar (by decide)
  rw [if_neg ‹_›] at h
  split
  · next hquote =>
    rw [if_pos hquote] at h
    cases h
  rw [if_neg ‹_›] at h
  split
  · next hquote =>
    rw [if_pos hquote] at h
    cases h
  rw [if_neg ‹_›] at h
  split
  · next hopening =>
    rw [if_pos hopening] at h
    unfold cutReference at h
    split at h <;> cases h
  split
  · exact hstops staysOnLine (by decide)
  · simpa using hc

/-! ### All lexemes -/

/-- A lexeme with its offsets moved. -/
def Lexeme.moved (s : Moving) (l : Lexeme) : Lexeme :=
  { l with start := s.move l.start, stop := s.move l.stop }

/-- The lexemes of a text whose lexemes stay on their lines, at moved
offsets. -/
theorem lexFrom_crlf {s : Shift} {offset offset' : Nat} {text : List Char}
    (hmove : ∀ past, s.move (offset + past) = offset' + crlfOffset text past)
    (h : ∀ l ∈ lexFrom offset text, l.kind.isStretch = true → '\n' ∉ l.text) :
    lexFrom offset' (crlf text) = (lexFrom offset text).map (·.moved s) := by
  fun_induction lexFrom offset text generalizing offset' with
  | case1 => exact lexFrom.eq_1 offset'
  | case2 offset c rest hblank ih =>
    -- A blank character stays blank, whether or not it is a line end.
    have hblanks : ∀ d ∈ crlf [c], isBlank d = true := by
      intro d hd
      by_cases hc : c = '\n'
      · have hends : d = '\r' ∨ d = '\n' := by simpa [hc, crlf] using hd
        rcases hends with rfl | rfl <;> rfl
      · rw [crlf_cons_of_ne hc, crlf_of_not_mem List.not_mem_nil, List.mem_singleton] at hd
        exact hd ▸ hblank
    have hcons : crlf (c :: rest) = crlf [c] ++ crlf rest := crlf_append [c] rest
    rw [hcons, lexFrom_blank_append hblanks]
    refine ih (fun past => ?_) h
    rw [Nat.add_assoc, hmove, ← List.singleton_append, Nat.add_assoc]
    exact congrArg (offset' + ·) (crlfOffset_append [c] rest past)
  | case3 offset c rest hblank cut stop =>
    rename_i ih
    obtain ⟨hfirst, hrest⟩ := List.forall_mem_cons.mp h
    have hblank := Bool.eq_false_iff.mpr hblank
    -- Strings and references stay on their lines by assumption, and the others always do.
    have hstays : '\n' ∉ cut.text := by
      cases hkind : cut.kind.isStretch with
      | true => exact hfirst hkind
      | false => exact not_mem_cutLexeme hblank hkind
    have hc : c ≠ '\n' := by
      rintro rfl
      cases hblank
    have happend : cut.text ++ cut.rest = c :: rest := cutLexeme_append c rest
    -- The text of the lexeme has no line end, so the offsets in it move by a fixed distance.
    have hlater : ∀ past, s.move (stop + past)
        = offset' + byteLen cut.text + crlfOffset cut.rest past := by
      intro past
      have hpast := crlfOffset_append cut.text cut.rest past
      rw [happend, crlf_of_not_mem hstays] at hpast
      rw [Nat.add_assoc, hmove, hpast, Nat.add_assoc]
    have hstart : s.move offset = offset' := by
      have h0 := hmove 0
      rwa [crlfOffset_zero] at h0
    have hstop : s.move stop = offset' + byteLen cut.text := by
      have h0 := hlater 0
      rwa [crlfOffset_zero] at h0
    rw [crlf_cons_of_ne hc, lexFrom_cons hblank, cutLexeme_crlf hstays, ih hlater hrest,
      List.map_cons, Lexeme.moved, hstart, hstop]

/-- A text whose lines end with `\n` alone, in which no string or reference
goes on over the end of a line. -/
structure Unbroken (text : List Char) : Prop where
  noReturn : '\r' ∉ text
  onOneLine : ∀ l ∈ lex text, l.kind.isStretch = true → '\n' ∉ l.text

/-- The first lines of an unbroken text are unbroken. -/
theorem Unbroken.of_append {a b : List Char} (h : Unbroken (a ++ b)) (ha : EndsLine a ∨ b = []) :
    Unbroken a := by
  refine ⟨fun hmem => h.noReturn (List.mem_append_left b hmem), fun l hl hstretch => ?_⟩
  rcases lex_append ha with hwhole | ⟨ls, u, l', ls', hcut, hwhole, hthrough⟩
  · exact h.onOneLine l (hwhole ▸ List.mem_append_left _ hl) hstretch
  · rw [hcut] at hl
    rcases List.mem_append.mp hl with hl | hl
    · exact h.onOneLine l (hwhole ▸ List.mem_append_left _ hl) hstretch
    · -- One that is cut through is the front of one that stays on its line.
      obtain rfl := List.mem_singleton.mp hl
      have hmem : l' ∈ lex (a ++ b) := hwhole ▸ List.mem_append_right _ List.mem_cons_self
      exact fun hline => h.onOneLine l' hmem hthrough.isStretch (hthrough.text.mem hline)

variable {text : List Char}

/-- An unbroken text has the same lexemes with longer line ends, at moved
offsets. -/
theorem lex_crlf (h : Unbroken text) :
    lex (crlf text) = (lex text).map (·.moved (crlfShift text)) := by
  refine lexFrom_crlf (fun past => ?_) h.onOneLine
  rw [Nat.zero_add, Nat.zero_add]
  rfl

/-- An unbroken text has the same comments with longer line ends, at moved
offsets. -/
theorem comments_crlf (h : Unbroken text) :
    comments (crlf text) = (comments text).map (·.moved (crlfShift text)) := by
  rw [comments, comments, lex_crlf h, List.filter_map, List.map_map, List.map_map]
  rfl

/-! ### Tokens -/

/-- A syntax error at moved offsets. Its places are the same. -/
def SyntaxError.moved (s : Moving) (e : SyntaxError) : SyntaxError :=
  { e with fault := e.fault.moved s, start := s.move e.start, stop := s.move e.stop }

/-- A fault has the same places with longer line ends. -/
theorem inText_crlf (hreturn : '\r' ∉ text) (fault : Fault) (start stop : Nat) :
    SyntaxError.inText (crlf text) (fault.moved (crlfShift text)) ((crlfShift text).move start)
        ((crlfShift text).move stop)
      = (SyntaxError.inText text fault start stop).moved (crlfShift text) := by
  rw [SyntaxError.inText, lineChrOf_crlf hreturn, lineChrOf_crlf hreturn]
  rfl

/-- How a stream of moved tokens ends. -/
def StreamEnd.moved (s : Moving) : StreamEnd → StreamEnd
  | .faulty e => .faulty (e.moved s)
  | ending => ending

/-- A stream of moved tokens. -/
def TokenStream.moved (s : Moving) (stream : TokenStream) : TokenStream :=
  ⟨stream.tokens.map (·.moved s), stream.ending.moved s⟩

/-- A stream of moved tokens fails where the stream does, with the error
moved. -/
theorem TokenStream.error_moved (s : Moving) (stream : TokenStream) :
    (stream.moved s).error = stream.error.map (·.moved s) := by
  obtain ⟨tokens, ending⟩ := stream
  cases ending <;> rfl

/-- What becomes of a moved lexeme. -/
def Converted.moved (s : Moving) : Converted → Converted
  | .token t => .token (t.moved s)
  | .skipped => .skipped
  | .stopped ending => .stopped (ending.moved s)

/-- External texts that may depend on the script that asks for them, but
not on what is written in it. -/
def IgnoresText (texts : ExternalTexts) : Prop :=
  ∀ source text path, texts { source with text } path = texts source path

/-- External texts that depend on the path alone do not depend on the script. -/
theorem FixedByPath.ignoresText {texts : ExternalTexts} (h : FixedByPath texts) :
    IgnoresText texts := fun source text path => h { source with text } source path

/-- Files are found by where a script is stored, whatever is written in it. -/
theorem ignoresText_storedTexts (store : Files.Store) : IgnoresText (storedTexts store) :=
  fun _ _ _ => rfl

variable {texts : ExternalTexts}

/-- A moved lexeme comes to the same token, moved, or to the same failure.
What is looked at is the lexeme and, for errors, its place. -/
theorem convert_crlf (hignores : IgnoresText texts) (hreturn : '\r' ∉ text) (name : String)
    (path : Option FilePath) (l : Lexeme) :
    convert texts ⟨name, path, crlf text⟩ (l.moved (crlfShift text))
      = (convert texts ⟨name, path, text⟩ l).moved (crlfShift text) := by
  -- A failure tells where the lexeme is, and these places stay.
  have hfault : ∀ fault : Fault, fault.moved (crlfShift text) = fault →
      Converted.stopped (.faulty (.inText (crlf text) fault ((crlfShift text).move l.start)
          ((crlfShift text).move l.stop)))
        = (Converted.stopped (.faulty (.inText text fault l.start l.stop))).moved
          (crlfShift text) := by
    intro fault hfixed
    have h := inText_crlf hreturn fault l.start l.stop
    rw [hfixed] at h
    rw [h]
    rfl
  -- Only a reference asks for an external text, and the answer does not depend on the script.
  have hreader := hignores ⟨name, path, text⟩ (crlf text)
  unfold convert Lexeme.moved
  dsimp only
  split
  · rfl
  · rfl
  · rfl
  · rfl
  · exact hfault _ rfl
  · dsimp only at hreader
    rw [hreader]
    split
    · rfl
    · exact hfault _ rfl
    · rfl
  · exact hfault _ rfl

/-- Moved lexemes come to the moved stream of tokens. Induction on the
lexemes. -/
theorem convertAll_crlf (hignores : IgnoresText texts) (hreturn : '\r' ∉ text) (name : String)
    (path : Option FilePath) (ls : List Lexeme) :
    convertAll texts ⟨name, path, crlf text⟩ (ls.map (·.moved (crlfShift text)))
      = ((convertAll texts ⟨name, path, text⟩ ls).1.map (·.moved (crlfShift text)),
        (convertAll texts ⟨name, path, text⟩ ls).2.moved (crlfShift text)) := by
  induction ls with
  | nil => rfl
  | cons l rest ih =>
    rw [List.map_cons, convertAll, convertAll, convert_crlf hignores hreturn]
    cases convert texts ⟨name, path, text⟩ l with
    | token t =>
      simp only [Converted.moved, ih]
      rfl
    | skipped => exact ih
    | stopped ending => rfl

/-- The tokens of an unbroken text with longer line ends. -/
theorem tokenize_crlf (hignores : IgnoresText texts) (h : Unbroken text) (name : String)
    (path : Option FilePath) :
    tokenize texts ⟨name, path, crlf text⟩
      = (tokenize texts ⟨name, path, text⟩).moved (crlfShift text) := by
  have hend : byteLen (crlf text) = (crlfShift text).move (byteLen text) := by
    have h := crlfOffset_byteLen text []
    rw [List.append_nil] at h
    exact h.symm
  unfold tokenize
  dsimp only
  rw [lex_crlf h, convertAll_crlf hignores h.noReturn, hend]
  cases convertAll texts ⟨name, path, text⟩ (lex text) with
  | mk tokens ending =>
    cases ending <;> simp [StreamEnd.moved, TokenStream.moved]

end ConceptScript.Script

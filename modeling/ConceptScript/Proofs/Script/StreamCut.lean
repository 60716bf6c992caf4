import ConceptScript.Proofs.Script.LexCut
import ConceptScript.Proofs.Script.Tokens

/-!
# `ConceptScript.Proofs.Script.StreamCut`: tokens of a text cut after a line

A text is cut after the line of a cursor. The cut text has the tokens that
the whole text has up to the cut, followed by its end: `tokenize_cut`. The
tokens of the whole text that are not among those are `Beyond` the cursor.
They need not start after it, since a quoted string that starts at the
cursor may be cut through.

This needs external texts to depend on the path alone, because the two
scripts that ask for them differ. And no quoted string or reference may
start before the cursor and be cut through.
-/

set_option autoImplicit false

namespace ConceptScript.Script

open ConceptScript.Text
open ConceptScript.Files (FilePath)

/-- External texts that depend on nothing but the path asked for. -/
def FixedByPath (texts : ExternalTexts) : Prop :=
  ∀ source source' path, texts source path = texts source' path

/-- A token that a cursor has not reached: it does not start before the
cursor and stops after it, and a word starts after it. -/
structure Token.Beyond (target : Nat) (t : Token) : Prop where
  start : target ≤ t.start
  stop : target < t.stop
  word : t.kind = .word → target < t.start

/-- A token as it comes from a script: not the end, and a word that is
spelled with the characters of words. -/
structure Token.Plain (t : Token) : Prop where
  isEnd : t.isEnd = false
  word : t.kind = .word → ∀ c ∈ t.value.toList, isWordChar c = true

variable {texts : ExternalTexts} {source source' : Source}

/-! ### Single lexemes -/

/-- A stream that is stopped is not complete. -/
theorem ending_ne_complete_of_convert {l : Lexeme} {ending : StreamEnd}
    (h : convert texts source l = .stopped ending) : ending ≠ .complete := by
  unfold convert at h
  dsimp only at h
  (repeat' split at h) <;> cases h <;> exact fun h => (by cases h)

/-- The fault of a lexeme is in the stretch of the lexeme. -/
theorem exists_inText_of_convert {l : Lexeme} {e : SyntaxError}
    (h : convert texts source l = .stopped (.faulty e)) :
    ∃ fault, e = .inText source.text fault l.start l.stop := by
  unfold convert at h
  dsimp only at h
  (repeat' split at h) <;> cases h <;> exact ⟨_, rfl⟩

/-- A crash comes from asking for the text that a closed reference names. -/
theorem crash_of_convert {l : Lexeme} {message : String}
    (h : convert texts source l = .stopped (.crashed message)) :
    l.kind = .reference true
      ∧ texts source (String.ofList (withoutEnds l.text)) = .crash message := by
  unfold convert at h
  dsimp only at h
  (repeat' split at h) <;> cases h
  next hkind _ hcrash => exact ⟨hkind, hcrash⟩

/-- A lexeme that is open stops the stream. -/
theorem convert_of_isOpen (texts : ExternalTexts) (source : Source) {l : Lexeme}
    (h : l.kind.isOpen = true) :
    ∃ ending, convert texts source l = .stopped ending := by
  unfold convert
  dsimp only
  split <;> simp_all [LexemeKind.isOpen]

/-- What becomes of a lexeme does not depend on the script, but for the
error if it stops the stream. -/
theorem convert_of_fixed (hfixed : FixedByPath texts) (source source' : Source) (l : Lexeme) :
    (∃ c, convert texts source l = c ∧ convert texts source' l = c) ∨
      ∃ ending ending', convert texts source l = .stopped ending
        ∧ convert texts source' l = .stopped ending' := by
  unfold convert
  dsimp only
  split
  · exact .inl ⟨_, rfl, rfl⟩
  · exact .inl ⟨_, rfl, rfl⟩
  · exact .inl ⟨_, rfl, rfl⟩
  · exact .inl ⟨_, rfl, rfl⟩
  · exact .inr ⟨_, _, rfl, rfl⟩
  · rw [hfixed source' source]
    split
    · exact .inl ⟨_, rfl, rfl⟩
    · exact .inr ⟨_, _, rfl, rfl⟩
    · exact .inl ⟨_, rfl, rfl⟩
  · exact .inr ⟨_, _, rfl, rfl⟩

/-! ### Lists of lexemes -/

/-- Each token comes from a lexeme. -/
theorem exists_of_mem_convertAll {ls : List Lexeme} {t : Token}
    (h : t ∈ (convertAll texts source ls).1) : ∃ l ∈ ls, convert texts source l = .token t := by
  induction ls with
  | nil => exact absurd h List.not_mem_nil
  | cons l rest ih =>
    have hrest : t ∈ (convertAll texts source rest).1 →
        ∃ l' ∈ l :: rest, convert texts source l' = .token t := by
      intro hmem
      obtain ⟨l', hl', hconvert⟩ := ih hmem
      exact ⟨l', List.mem_cons_of_mem _ hl', hconvert⟩
    unfold convertAll at h
    split at h
    · exact hrest h
    · exact absurd h List.not_mem_nil
    · next t' hconvert =>
      rcases List.mem_cons.mp h with rfl | hmem
      · exact ⟨l, List.mem_cons_self, hconvert⟩
      · exact hrest hmem

/-- If the lexemes in front are all converted, the others are converted after
them. -/
theorem convertAll_append_of_complete {ls : List Lexeme}
    (h : (convertAll texts source ls).2 = .complete) (ls' : List Lexeme) :
    convertAll texts source (ls ++ ls') =
      ((convertAll texts source ls).1 ++ (convertAll texts source ls').1,
        (convertAll texts source ls').2) := by
  induction ls with
  | nil => rfl
  | cons l rest ih =>
    rw [List.cons_append, convertAll]
    rw [convertAll] at h ⊢
    cases hconvert : convert texts source l with
    | skipped =>
      rw [hconvert] at h
      exact ih h
    | stopped ending =>
      rw [hconvert] at h
      exact absurd h (ending_ne_complete_of_convert hconvert)
    | token t =>
      rw [hconvert] at h
      show (t :: (convertAll texts source (rest ++ ls')).1,
        (convertAll texts source (rest ++ ls')).2) = _
      rw [ih h]
      rfl

/-- If one of the lexemes in front stops the stream, those after it play no
part. -/
theorem convertAll_append_of_stopped {ls : List Lexeme}
    (h : (convertAll texts source ls).2 ≠ .complete) (ls' : List Lexeme) :
    convertAll texts source (ls ++ ls') = convertAll texts source ls := by
  induction ls with
  | nil => exact absurd rfl h
  | cons l rest ih =>
    rw [List.cons_append, convertAll]
    rw [convertAll] at h ⊢
    cases hconvert : convert texts source l with
    | skipped =>
      rw [hconvert] at h
      exact ih h
    | stopped ending => rfl
    | token t =>
      rw [hconvert] at h
      show (t :: (convertAll texts source (rest ++ ls')).1,
        (convertAll texts source (rest ++ ls')).2) = _
      rw [ih h]

/-- Two scripts with the same lexemes have the same tokens and both come to
their end, or neither does. -/
theorem convertAll_of_fixed (hfixed : FixedByPath texts) (source source' : Source)
    (ls : List Lexeme) :
    (convertAll texts source ls).1 = (convertAll texts source' ls).1
      ∧ ((convertAll texts source ls).2 = .complete ↔
        (convertAll texts source' ls).2 = .complete) := by
  induction ls with
  | nil => exact ⟨rfl, .rfl⟩
  | cons l rest ih =>
    rw [convertAll, convertAll]
    rcases convert_of_fixed hfixed source source' l with
      ⟨c, hc, hc'⟩ | ⟨ending, ending', hending, hending'⟩
    · rw [hc, hc']
      cases c with
      | skipped => exact ih
      | stopped ending => exact ⟨rfl, .rfl⟩
      | token t => exact ⟨congrArg (t :: ·) ih.1, ih.2⟩
    · rw [hending, hending']
      exact ⟨rfl, iff_of_false (ending_ne_complete_of_convert hending)
        (ending_ne_complete_of_convert hending')⟩

/-! ### Scripts -/

/-- A script without crashes has the tokens of its lexemes, up to where the
stream is stopped, and then one end at the end of its text. -/
theorem tokenize_tokens_of_calm
    (hcalm : ∀ message, (tokenize texts source).ending ≠ .crashed message) :
    (tokenize texts source).tokens =
      (convertAll texts source (lex source.text)).1 ++ [.endAt (byteLen source.text)] := by
  unfold tokenize at hcalm ⊢
  split at hcalm
  · next message _ => exact absurd rfl (hcalm message)
  · next hconverted => rw [hconverted]

/-- The same if reading external texts never crashes. -/
theorem tokenize_tokens (hcalm : NeverCrashes texts) (source : Source) :
    (tokenize texts source).tokens =
      (convertAll texts source (lex source.text)).1 ++ [.endAt (byteLen source.text)] :=
  tokenize_tokens_of_calm (ending_tokenize hcalm source)

/-- Behind what the lexemes of a script make there is at most its end. -/
theorem exists_tokens_append (texts : ExternalTexts) (source : Source) :
    ∃ ending ⊆ [Token.endAt (byteLen source.text)],
      (tokenize texts source).tokens = (convertAll texts source (lex source.text)).1 ++ ending := by
  unfold tokenize
  split
  · next hconverted =>
    rw [hconverted]
    exact ⟨[], List.nil_subset _, (List.append_nil _).symm⟩
  · next hconverted =>
    rw [hconverted]
    exact ⟨_, List.Subset.refl _, rfl⟩

/-- The tokens of a script stand for lexemes, but for its end. -/
theorem exists_lexeme_of_mem_tokens {t : Token} (ht : t ∈ (tokenize texts source).tokens) :
    t = .endAt (byteLen source.text) ∨ ∃ l ∈ lex source.text, convert texts source l = .token t := by
  obtain ⟨ending, hending, htokens⟩ := exists_tokens_append texts source
  rw [htokens] at ht
  rcases List.mem_append.mp ht with ht | ht
  · exact .inr (exists_of_mem_convertAll ht)
  · exact .inl (List.mem_singleton.mp (hending ht))

/-- A stream has an error just if it is stopped by this error. -/
theorem TokenStream.error_eq_some_iff {stream : TokenStream} {e : SyntaxError} :
    stream.error = some e ↔ stream.ending = .faulty e := by
  unfold TokenStream.error
  split <;> simp_all

/-- A token that a lexeme of a text is converted to is plain. -/
theorem plain_of_mem_convertAll (text : List Char) {ls : List Lexeme} (hls : ls ⊆ lex text)
    {t : Token} (h : t ∈ (convertAll texts source ls).1) : t.Plain := by
  obtain ⟨l, hl, hconvert⟩ := exists_of_mem_convertAll h
  have hkeeps := keeps_of_convert hconvert
  refine ⟨hkeeps.isEnd, fun hword => ?_⟩
  obtain ⟨hkind, hvalue⟩ := hkeeps.word hword
  rw [hvalue, String.toList_ofList]
  exact isWordChar_of_word (hls hl) hkind

/-- The tokens of lexemes that a cursor has not reached. -/
theorem beyond_of_mem_convertAll {ls : List Lexeme} {target : Nat}
    (hls : ∀ l ∈ ls, target ≤ l.start ∧ target < l.stop ∧ (l.kind = .word → target < l.start))
    {t : Token} (h : t ∈ (convertAll texts source ls).1) : t.Beyond target := by
  obtain ⟨l, hl, hconvert⟩ := exists_of_mem_convertAll h
  have hkeeps := keeps_of_convert hconvert
  obtain ⟨hstart', hstop', hword⟩ := hls l hl
  refine ⟨hkeeps.start ▸ hstart', hkeeps.stop ▸ hstop', fun hkind => ?_⟩
  rw [hkeeps.start]
  exact hword (hkeeps.word hkind).1

/-- The tokens of lexemes that stop the stream or are followed by others. -/
theorem tokens_append (hfixed : FixedByPath texts) (source source' : Source)
    (ls ls' : List Lexeme) :
    ∃ post ⊆ (convertAll texts source' ls').1,
      (convertAll texts source' (ls ++ ls')).1 = (convertAll texts source ls).1 ++ post := by
  obtain ⟨htokens, _⟩ := convertAll_of_fixed hfixed source source' ls
  -- A stream that stops among the first lexemes has no tokens of the others.
  by_cases hcomplete : (convertAll texts source' ls).2 = .complete
  · rw [convertAll_append_of_complete hcomplete, htokens]
    exact ⟨_, List.Subset.refl _, rfl⟩
  · rw [convertAll_append_of_stopped hcomplete, htokens]
    exact ⟨[], List.nil_subset _, (List.append_nil _).symm⟩

/-- The lexemes of a text cut after a line with a cursor: those of the
whole text up to the cut, and what is cut through makes no token. The
other lexemes of the whole text are beyond the cursor. -/
theorem lex_cut {a b : List Char} {target : Nat} (ha : EndsLine a) (hb : b ≠ [])
    (htarget : target < byteLen a)
    (hstretch : ∀ l ∈ lex (a ++ b), l.kind.isStretch = true → l.start < target →
      l.stop ≤ byteLen a) :
    ∃ ls lost ls', lex a = ls ++ lost ∧ lex (a ++ b) = ls ++ ls'
      ∧ (∀ l ∈ lost, l.kind.isOpen = true)
      ∧ ∀ l ∈ ls', target ≤ l.start ∧ target < l.stop ∧ (l.kind = .word → target < l.start) := by
  rcases lexFrom_append 0 ha hb with hall | ⟨ls, u, l, ls', hcut, hwhole, hthrough⟩
  · refine ⟨lex a, [], _, (List.append_nil _).symm, hall, fun _ h => absurd h List.not_mem_nil, ?_⟩
    intro l hmem
    -- Nothing is cut through, and what follows starts at the cut.
    obtain ⟨hstart, hlength⟩ := (spread_lexFrom (0 + byteLen a) b).bounds l hmem
    omega
  · refine ⟨ls, [u], l :: ls', hcut, hwhole, List.forall_mem_singleton.mpr hthrough.isOpen, ?_⟩
    have hl := hthrough.isStretch
    have hstop := hthrough.crosses.2
    have hspread := spread_lexFrom 0 (a ++ b)
    rw [hwhole] at hspread
    obtain ⟨offset, hspread⟩ := hspread.of_append
    cases hspread with
    | cons _ hlength htail =>
      -- The lexeme that is cut through is too long to start before the cursor.
      have hmem : l ∈ lex (a ++ b) := by
        rw [lex, hwhole]
        exact List.mem_append_right _ List.mem_cons_self
      have hstart : target ≤ l.start := by
        by_contra hlt
        have hle := hstretch l hmem hl (Nat.not_le.mp hlt)
        omega
      refine List.forall_mem_cons.mpr ⟨⟨hstart, by omega, fun hword => ?_⟩, fun l' hmem => ?_⟩
      · rw [hword] at hl
        cases hl
      · obtain ⟨hstart', hlength'⟩ := htail.bounds l' hmem
        omega

/-- The tokens of a text cut after a line with a cursor, and those of the
whole text. -/
theorem tokenize_cut (hcalm : NeverCrashes texts) (hfixed : FixedByPath texts) (name : String)
    (path : Option FilePath) {a b : List Char} {target : Nat} (ha : EndsLine a) (hb : b ≠ [])
    (htarget : target < byteLen a)
    (hstretch : ∀ l ∈ lex (a ++ b), l.kind.isStretch = true → l.start < target →
      l.stop ≤ byteLen a) :
    ∃ pre post last, (tokenize texts ⟨name, path, a⟩).tokens = pre ++ [last]
      ∧ (tokenize texts ⟨name, path, a ++ b⟩).tokens = pre ++ post ∧ last.isEnd = true
      ∧ (∀ t ∈ pre, t.Plain) ∧ ∀ t ∈ post, t.Beyond target := by
  obtain ⟨ls, lost, ls', hcut, hwhole, hlost, hbeyond⟩ := lex_cut ha hb htarget hstretch
  obtain ⟨cutPost, hcutPost, hcutTokens⟩ :=
    tokens_append hfixed ⟨name, path, a⟩ ⟨name, path, a⟩ ls lost
  obtain ⟨post, hpost, htokens⟩ :=
    tokens_append hfixed ⟨name, path, a⟩ ⟨name, path, a ++ b⟩ ls ls'
  -- An open lexeme stops the stream and makes no token.
  have hnone : cutPost = [] := by
    rw [List.eq_nil_iff_forall_not_mem]
    intro t ht
    obtain ⟨l, hl, hconvert⟩ := exists_of_mem_convertAll (hcutPost ht)
    obtain ⟨ending, hending⟩ := convert_of_isOpen texts ⟨name, path, a⟩ (hlost l hl)
    cases hending.symm.trans hconvert
  refine ⟨(convertAll texts ⟨name, path, a⟩ ls).1, post ++ [.endAt (byteLen (a ++ b))],
    .endAt (byteLen a), ?_, ?_, rfl, ?_, ?_⟩
  · rw [tokenize_tokens hcalm, hcut, hcutTokens, hnone, List.append_nil]
  · rw [tokenize_tokens hcalm, hwhole, htokens, List.append_assoc]
  · exact fun t ht => plain_of_mem_convertAll a (hcut ▸ List.subset_append_left _ _) ht
  · refine List.forall_mem_append.mpr ⟨fun t ht => ?_, List.forall_mem_singleton.mpr ?_⟩
    · exact beyond_of_mem_convertAll hbeyond (hpost ht)
    · have hend : target < byteLen (a ++ b) := by
        rw [byteLen_append]
        omega
      exact ⟨Nat.le_of_lt hend, hend, fun _ => hend⟩

end ConceptScript.Script

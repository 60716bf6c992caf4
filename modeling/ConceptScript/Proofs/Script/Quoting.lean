import ConceptScript.Proofs.Script.LexemeEnds

/-!
# `ConceptScript.Proofs.Script.Quoting`: strings and what they hold

A text is put in quotes with each quote in it written twice
(`Quote.enclose`). Reading this gives the text back, whatever it holds and
whatever follows, unless that is one more quote:

* `lexFrom_enclose`: what is in quotes is one lexeme, and a closed one. It
  is the longest match (`longest_doubled`), and there is only one.
* `undouble_doubled`: of two quotes in a row one is kept.

The other way round, a closed string of a script holds some text and is
this text in quotes (`text_eq_enclose`). So a text has one form in quotes,
and `quoted_strings_roundTrip` says all of this for scripts.
-/

set_option autoImplicit false

namespace ConceptScript.Script

open ConceptScript.Text
open ConceptScript.Files (FilePath)
open scoped Computability

/-- A text with each quote in it written twice. -/
def doubled (q : Char) (s : List Char) : List Char :=
  s.flatMap fun c => if c = q then [q, q] else [c]

/-- A text in quotes. -/
def Quote.enclose (q : Quote) (s : List Char) : List Char :=
  q.char :: doubled q.char s ++ [q.char]

section

variable {q c : Char} {s rest : List Char}

/-- A quote is written twice. -/
theorem doubled_cons_self (q : Char) (s : List Char) :
    doubled q (q :: s) = q :: q :: doubled q s := by
  rw [doubled, List.flatMap_cons, if_pos rfl]
  rfl

/-- Another character is written once. -/
theorem doubled_cons (h : c ≠ q) (s : List Char) : doubled q (c :: s) = c :: doubled q s := by
  rw [doubled, List.flatMap_cons, if_neg h]
  rfl

/-! ### What quotes hold -/

/-- Two quotes are one quote of the text. -/
theorem undouble_cons_self (q : Char) (s : List Char) :
    undouble q (q :: q :: s) = q :: undouble q s := by
  rw [undouble, if_pos ⟨rfl, rfl⟩]

/-- Another character stands for itself. -/
theorem undouble_cons (h : c ≠ q) (s : List Char) : undouble q (c :: s) = c :: undouble q s := by
  cases s with
  | nil => rfl
  | cons d s => rw [undouble, if_neg fun hboth => h hboth.1]

/-- Writing quotes twice is undone by reading two as one. -/
theorem undouble_doubled (q : Char) (s : List Char) : undouble q (doubled q s) = s := by
  induction s with
  | nil => rfl
  | cons c s ih =>
    by_cases hc : c = q
    · subst hc
      rw [doubled_cons_self, undouble_cons_self, ih]
    · rw [doubled_cons hc, undouble_cons hc, ih]

/-- Between quotes there are no single ones, so doubling brings back what
was there. -/
theorem doubled_undouble (h : s ∈ inQuotes q) : doubled q (undouble q s) = s := by
  induction hn : s.length using Nat.strongRecOn generalizing s with
  | ind n ih =>
    subst hn
    rcases mem_inQuotes.mp h with rfl | ⟨c, t, hc, ht, rfl⟩ | ⟨t, ht, rfl⟩
    · rfl
    · rw [undouble_cons hc, doubled_cons hc, ih t.length (Nat.lt_succ_self _) ht rfl]
    · have hshorter : t.length < (q :: q :: t).length := Nat.lt_add_of_pos_right (Nat.zero_lt_two)
      rw [undouble_cons_self, doubled_cons_self, ih t.length hshorter ht rfl]

/-! ### Where quotes end -/

/-- The quotes in a text come in pairs, so the first one that can close the
string is the one behind the text. -/
theorem longest_doubled (h : rest.head? ≠ some q) (s : List Char) :
    Longest (afterQuote q) (doubled q s ++ q :: rest) true (doubled q s ++ [q]) := by
  induction s with
  | nil => exact longest_afterQuote_closing h
  | cons c s ih =>
    by_cases hc : c = q
    · subst hc
      rw [doubled_cons_self]
      exact ih.doubled_afterQuote
    · rw [doubled_cons hc]
      exact ih.cons_afterQuote hc

/-- A text whose quotes are written twice is split at the quote after it, if
no other one follows that. -/
theorem splitQuoted_doubled (h : rest.head? ≠ some q) (s : List Char) :
    splitQuoted q (doubled q s ++ q :: rest) = (doubled q s ++ [q], true, rest) := by
  obtain ⟨hclosed, htaken⟩ := (longest_splitQuoted q _).unique (longest_doubled h s)
  have happend := splitQuoted_append q (doubled q s ++ q :: rest)
  rw [htaken] at happend
  have hleft := List.append_cancel_left (happend.trans (List.append_cons _ _ _))
  exact Prod.ext htaken (Prod.ext hclosed hleft)

end

variable {q : Quote} {rest : List Char}

/-- A quote starts a string. -/
theorem cutLexeme_quote (q : Quote) (rest : List Char) :
    cutLexeme q.char rest = cutQuoted q rest := by
  cases q <;> rfl

/-- A text in quotes is cut off as one closed string. -/
theorem cutLexeme_enclose (h : rest.head? ≠ some q.char) (s : List Char) :
    cutLexeme q.char (doubled q.char s ++ q.char :: rest)
      = ⟨.quoted q true, q.enclose s, rest⟩ := by
  rw [cutLexeme_quote, cutQuoted, splitQuoted_doubled h]
  rfl

/-- A quote is no white space. -/
theorem isBlank_quote (q : Quote) : isBlank q.char = false := by
  cases q <;> decide

/-- A text in quotes is one lexeme, if no other quote follows. -/
theorem lexFrom_enclose (h : rest.head? ≠ some q.char) (offset : Nat) (s : List Char) :
    lexFrom offset (q.enclose s ++ rest) =
      ⟨.quoted q true, q.enclose s, offset, offset + byteLen (q.enclose s)⟩
        :: lexFrom (offset + byteLen (q.enclose s)) rest := by
  have htext : q.enclose s ++ rest = q.char :: (doubled q.char s ++ q.char :: rest) := by
    rw [Quote.enclose, List.cons_append, List.cons_append, List.append_assoc]
    rfl
  rw [htext, lexFrom_cons (isBlank_quote q), cutLexeme_enclose h]

/-- Between the quotes of a text in quotes is the text with its quotes
written twice. -/
theorem withoutEnds_enclose (q : Quote) (s : List Char) :
    withoutEnds (q.enclose s) = doubled q.char s := withoutEnds_delimited _ _ _

/-- The token for a text in quotes holds the text. -/
theorem convert_enclose (texts : ExternalTexts) (source : Source) (q : Quote) (s : List Char)
    (start stop : Nat) :
    convert texts source ⟨.quoted q true, q.enclose s, start, stop⟩ =
      .token ⟨.quoted q, String.ofList s, start, stop⟩ := by
  simp only [convert, withoutEnds_enclose, undouble_doubled]

/-! ### Scripts -/

/-- The first lexeme makes the first token, if it makes one. -/
theorem head?_tokens {texts : ExternalTexts} {source : Source} {l : Lexeme} {ls : List Lexeme}
    {t : Token} (hlex : lex source.text = l :: ls) (hconvert : convert texts source l = .token t) :
    (tokenize texts source).tokens.head? = some t := by
  obtain ⟨ending, _, htokens⟩ := exists_tokens_append texts source
  rw [htokens, hlex, convertAll, hconvert]
  rfl

/-- A closed string of a script is what it holds, in quotes. -/
theorem text_eq_enclose {text : List Char} {l : Lexeme} (h : l ∈ lex text)
    (hkind : l.kind = .quoted q true) :
    l.text = q.enclose (undouble q.char (withoutEnds l.text)) := by
  have hmem := text_mem_pattern h
  rw [hkind] at hmem
  obtain ⟨_, ht, htext⟩ := mem_singleton_mul.mp hmem
  obtain ⟨inner, hinner, rfl⟩ := mem_mul_singleton.mp ht
  have hends : withoutEnds l.text = inner := htext ▸ withoutEnds_delimited q.char q.char inner
  rw [hends, Quote.enclose, doubled_undouble hinner, htext]
  rfl

/-- A token of a string stands for a closed one. -/
theorem value_of_convert {texts : ExternalTexts} {source : Source} {l : Lexeme} {t : Token}
    (h : convert texts source l = .token t) (hkind : t.kind = .quoted q) :
    l.kind = .quoted q true ∧ t.value.toList = undouble q.char (withoutEnds l.text) := by
  unfold convert at h
  dsimp only at h
  (repeat' split at h) <;> cases h <;> cases hkind
  next hquoted => exact ⟨hquoted, String.toList_ofList⟩

/-- Strings are written and read back. A text in quotes, with each quote in
it doubled, is a closed string at the front of every script that does not
go on with this quote, and the token for it holds the text. The other way
round, a closed string in a script is the text that its token holds, in
quotes: so is each lexeme, and so is the stretch of each token. -/
theorem quoted_strings_roundTrip (texts : ExternalTexts) (q : Quote) :
    (∀ (s rest : List Char) (name : String) (path : Option FilePath),
      rest.head? ≠ some q.char →
        let source : Source := ⟨name, path, q.enclose s ++ rest⟩
        let stop := byteLen (q.enclose s)
        (lex source.text).head? = some ⟨.quoted q true, q.enclose s, 0, stop⟩
          ∧ (tokenize texts source).tokens.head? = some ⟨.quoted q, String.ofList s, 0, stop⟩)
      ∧ ∀ source,
        (∀ l ∈ lex source.text, l.kind = .quoted q true → ∃ v, l.text = q.enclose v
          ∧ convert texts source l = .token ⟨.quoted q, String.ofList v, l.start, l.stop⟩)
        ∧ ∀ t ∈ (tokenize texts source).tokens, t.kind = .quoted q → ∃ before after,
          source.text = before ++ q.enclose t.value.toList ++ after
            ∧ t.start = byteLen before
            ∧ t.stop = t.start + byteLen (q.enclose t.value.toList) := by
  refine ⟨fun s rest name path hrest => ?_, fun source => ⟨fun l hl hkind => ?_, ?_⟩⟩
  · have hlex : lex (q.enclose s ++ rest)
        = ⟨.quoted q true, q.enclose s, 0, byteLen (q.enclose s)⟩
          :: lexFrom (byteLen (q.enclose s)) rest := by
      rw [lex, lexFrom_enclose hrest, Nat.zero_add]
    exact ⟨by rw [hlex]; rfl, head?_tokens hlex (convert_enclose texts _ q s 0 _)⟩
  · have htext := text_eq_enclose hl hkind
    refine ⟨_, htext, ?_⟩
    obtain ⟨kind, text, start, stop⟩ := l
    subst hkind
    rfl
  · intro t ht hkind
    rcases exists_lexeme_of_mem_tokens ht with rfl | ⟨l, hl, hconvert⟩
    · cases hkind
    · obtain ⟨hlkind, hvalue⟩ := value_of_convert hconvert hkind
      obtain ⟨before, after, htext, hstart, hstop⟩ := ((tiles_lex source.text).isSlice l hl).slice
      have hkeeps := keeps_of_convert hconvert
      -- The token is at the place of its lexeme, whose text is what the token holds in quotes.
      rw [text_eq_enclose hl hlkind, ← hvalue] at htext hstop
      refine ⟨before, after, htext, ?_, ?_⟩
      · rw [hkeeps.start, hstart, Nat.zero_add]
      · rw [hkeeps.stop, hkeeps.start, hstop]

/-- A text with quotes at both its ends and on two lines, in front of a word.
It is written, and what is written is read. -/
theorem quoted_roundTrip_of_quotes :
    let texts : ExternalTexts := fun _ _ => .unavailable "none"
    let s := ['\'', '\'', 'é', '\n', '\'']
    let source : Source := ⟨"script", none, Quote.single.enclose s ++ " a".toList⟩
    let l : Lexeme := ⟨.quoted .single true, Quote.single.enclose s, 0, 11⟩
    let t : Token := ⟨.quoted .single, String.ofList s, 0, 11⟩
    " a".toList.head? ≠ some Quote.single.char
      ∧ (lex source.text).head? = some l ∧ (tokenize texts source).tokens.head? = some t
      ∧ (∃ v, l.text = Quote.single.enclose v
        ∧ convert texts source l = .token ⟨.quoted .single, String.ofList v, 0, 11⟩)
      ∧ ∃ before after, source.text = before ++ Quote.single.enclose t.value.toList ++ after
        ∧ 0 = byteLen before ∧ 11 = 0 + byteLen (Quote.single.enclose t.value.toList) := by
  intro texts s source l t
  obtain ⟨hwritten, hread⟩ := quoted_strings_roundTrip texts .single
  obtain ⟨hlexemes, htokens⟩ := hread source
  have hrest : " a".toList.head? ≠ some Quote.single.char := by decide
  obtain ⟨hlex, htoken⟩ := hwritten s " a".toList "script" none hrest
  exact ⟨hrest, hlex, htoken, hlexemes l (List.mem_of_mem_head? hlex) rfl,
    htokens t (List.mem_of_mem_head? htoken) rfl⟩

end ConceptScript.Script

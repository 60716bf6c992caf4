import ConceptScript.Proofs.Script.Contents
import ConceptScript.Proofs.Script.Moved
import ConceptScript.Proofs.Script.Quoting

/-!
# `ConceptScript.Proofs.Script.Layout`: layout carries no meaning

A script can be written again with other white space and without its
comments: its other lexemes in the same order, with some white space
between them (`Spaced`). `parse_spaced` says that this is the same script.

* `lexFrom_append_blank`: a closed lexeme in front of white space is one
  lexeme of the same kind, whatever stood behind it before. So the new text
  has the same lexemes (`lexFrom_spaced`).
* `convertAll_alike`: they become the same tokens at other offsets.
* Reading does not look at offsets, so it may as well be done with all of
  them at the start (`Moving.toStart`). There nothing is left by which the
  two streams differ.
-/

set_option autoImplicit false

namespace ConceptScript.Script

open ConceptScript.Text

/-! ### Spaced pieces -/

/-- A text of some pieces with white space between them. There may be white
space at its ends too. -/
inductive Spaced : List (List Char) → List Char → Prop
  | nil : Spaced [] []
  | blank {pieces : List (List Char)} {c : Char} {text : List Char} (hc : isBlank c = true)
      (rest : Spaced pieces text) : Spaced pieces (c :: text)
  | piece (p : List Char) {pieces : List (List Char)} {text : List Char}
      (apart : ∀ c ∈ text.head?, isBlank c = true) (rest : Spaced pieces text) :
      Spaced (p :: pieces) (p ++ text)

/-! ### Lexemes -/

section

variable {text rest : List Char} {l : Lexeme}

/-- Where white space or the end of the text comes, nothing but white space
comes. -/
theorem head?_ne_of_blank (h : ∀ c ∈ rest.head?, isBlank c = true) {c : Char}
    (hc : isBlank c = false) : rest.head? ≠ some c := by
  intro hhead
  rw [h c hhead] at hc
  cases hc

/-- Characters of a class in front of white space are all that there are of
it, if white space is not of the class. -/
theorem takeWhile_append_blank {p : Char → Bool} {s : List Char} (hs : ∀ c ∈ s, p c = true)
    (hp : ∀ c, isBlank c = true → p c = false) (h : ∀ c ∈ rest.head?, isBlank c = true) :
    (s ++ rest).takeWhile p = s ∧ (s ++ rest).dropWhile p = rest := by
  rw [List.takeWhile_append_of_pos hs, List.dropWhile_append_of_pos hs]
  cases rest with
  | nil => exact ⟨List.append_nil s, rfl⟩
  | cons c rest =>
    have hc : p c = false := hp c (h c rfl)
    rw [List.takeWhile_cons, List.dropWhile_cons, hc]
    exact ⟨List.append_nil s, rfl⟩

/-- A word is cut off as a whole where white space follows, or nothing. -/
theorem cutLexeme_word {c : Char} {t : List Char} (hword : ∀ d ∈ c :: t, isWordChar d = true)
    (h : ∀ d ∈ rest.head?, isBlank d = true) :
    cutLexeme c (t ++ rest) = ⟨.word, c :: t, rest⟩ := by
  obtain ⟨hc, ht⟩ := List.forall_mem_cons.mp hword
  obtain ⟨htake, hdrop⟩ := takeWhile_append_blank ht (fun _ => isWordChar_of_isBlank) h
  rw [cutLexeme, if_pos hc, htake, hdrop]

/-- A reference is cut off at its first `>`. -/
theorem cutLexeme_reference {path : List Char} (hpath : ∀ c ∈ path, (c != '>') = true)
    (rest : List Char) :
    cutLexeme '<' (path ++ '>' :: rest) = ⟨.reference true, '<' :: (path ++ ['>']), rest⟩ := by
  have htake : (path ++ '>' :: rest).takeWhile (· != '>') = path := by
    simp [List.takeWhile_append_of_pos hpath]
  have hdrop : (path ++ '>' :: rest).dropWhile (· != '>') = '>' :: rest := by
    simp [List.dropWhile_append_of_pos hpath]
  show cutReference (path ++ '>' :: rest) = _
  rw [cutReference, hdrop, htake]

/-- A special character is cut off by itself, if it is not the start of a
comment. -/
theorem cutLexeme_special {c : Char} (hc : isSpecial c = true) (h : rest.head? ≠ some '/') :
    cutLexeme c rest = ⟨.special, [c], rest⟩ := by
  simp only [isSpecial, Bool.and_eq_true, Bool.not_eq_true', bne_iff_ne] at hc
  obtain ⟨⟨⟨⟨_, hword⟩, hsingle⟩, hdouble⟩, hopening⟩ := hc
  rw [cutLexeme, if_neg (Bool.eq_false_iff.mp hword), if_neg hsingle, if_neg hdouble,
    if_neg hopening, if_neg fun hslashes => h hslashes.2]

/-- A closed lexeme that is no comment is cut off in front of white space,
whatever stood behind it before. -/
theorem cutLexeme_append_blank (hl : l ∈ lex text) (hclosed : l.isUnclosed = false)
    (hcomment : l.isComment = false) (h : ∀ c ∈ rest.head?, isBlank c = true) {c : Char}
    {t : List Char} (htext : l.text = c :: t) :
    cutLexeme c (t ++ rest) = ⟨l.kind, c :: t, rest⟩ := by
  have hmem := text_mem_pattern hl
  cases hkind : l.kind with
  | comment => simp [Lexeme.isComment, hkind] at hcomment
  | word => exact cutLexeme_word (htext ▸ isWordChar_of_word hl hkind) h
  | quoted q closed =>
    obtain rfl : closed = true := by simpa [Lexeme.isUnclosed, hkind] using hclosed
    obtain ⟨v, hv⟩ : ∃ v, l.text = q.enclose v := ⟨_, text_eq_enclose hl hkind⟩
    obtain ⟨rfl, rfl⟩ := List.cons.inj (htext.symm.trans hv)
    show cutLexeme q.char (doubled q.char v ++ [q.char] ++ rest) = _
    rw [List.append_assoc]
    exact cutLexeme_enclose (head?_ne_of_blank h (isBlank_quote q)) _
  | reference closed =>
    obtain rfl : closed = true := by simpa [Lexeme.isUnclosed, hkind] using hclosed
    rw [hkind, htext] at hmem
    obtain ⟨_, ht, hopened⟩ := mem_singleton_mul.mp hmem
    obtain ⟨path, hpath, rfl⟩ := mem_mul_singleton.mp ht
    obtain ⟨rfl, rfl⟩ := List.cons.inj hopened
    show cutLexeme '<' (path ++ ['>'] ++ rest) = _
    rw [List.append_assoc]
    exact cutLexeme_reference (mem_star_oneOf.mp hpath) rest
  | special =>
    -- Only a second `/` could make more of it, and white space is none.
    rw [hkind, htext] at hmem
    obtain ⟨d, hd, hone⟩ := hmem
    obtain ⟨rfl, rfl⟩ := List.cons.inj hone
    exact cutLexeme_special hd (head?_ne_of_blank h rfl)

/-- A lexeme of a text is cut off in the same way where white space follows
it. Comments are left out, for they would take in white space. -/
theorem lexFrom_append_blank (hl : l ∈ lex text) (hclosed : l.isUnclosed = false)
    (hcomment : l.isComment = false) (h : ∀ c ∈ rest.head?, isBlank c = true) (offset : Nat) :
    lexFrom offset (l.text ++ rest)
      = ⟨l.kind, l.text, offset, offset + byteLen l.text⟩
        :: lexFrom (offset + byteLen l.text) rest := by
  obtain ⟨c, hhead, hblank⟩ := head?_text hl
  obtain ⟨t, htext⟩ : ∃ t, l.text = c :: t := List.head?_eq_some_iff.mp hhead
  have hcut := cutLexeme_append_blank hl hclosed hcomment h htext
  rw [htext, List.cons_append, lexFrom_cons hblank, hcut]

end

/-- What a lexeme is, without where it stands. -/
def Lexeme.piece (l : Lexeme) : LexemeKind × List Char := (l.kind, l.text)

/-- Closed lexemes with white space between them are the lexemes of the text
that they make. -/
theorem lexFrom_spaced {text : List Char} {ls : List Lexeme} {spaced : List Char}
    (hls : ∀ l ∈ ls, l ∈ lex text ∧ l.isUnclosed = false ∧ l.isComment = false)
    (h : Spaced (ls.map (·.text)) spaced) (offset : Nat) :
    (lexFrom offset spaced).map (·.piece) = ls.map (·.piece) := by
  -- By the pieces and the white space between them, for all offsets: the
  -- lexemes need not have come one after the other in the old text.
  generalize hpieces : ls.map (·.text) = pieces at h
  induction h generalizing ls offset with
  | nil =>
    obtain rfl := List.map_eq_nil_iff.mp hpieces
    rw [lexFrom]
  | blank hc _ ih =>
    rw [lexFrom, if_pos hc]
    exact ih hls _ hpieces
  | piece p apart _ ih =>
    obtain ⟨l, others, rfl, rfl, hothers⟩ := List.map_eq_cons_iff.mp hpieces
    obtain ⟨⟨hl, hclosed, hcomment⟩, hrest⟩ := List.forall_mem_cons.mp hls
    rw [lexFrom_append_blank hl hclosed hcomment apart, List.map_cons, ih hrest _ hothers]
    rfl

/-! ### Tokens -/

/-- All offsets moved to the start. -/
def Moving.toStart : Moving := ⟨fun _ => 0, rfl⟩

/-- Two ends of a stream for the same reason, wherever it is found. -/
inductive StreamEnd.Alike : StreamEnd → StreamEnd → Prop
  | complete : StreamEnd.Alike .complete .complete
  | faulty {e e' : SyntaxError} (fault : e'.fault = e.fault) :
      StreamEnd.Alike (.faulty e) (.faulty e')
  | crashed {message : String} : StreamEnd.Alike (.crashed message) (.crashed message)

/-- Two lexemes come to the same, wherever they stand. -/
inductive Converted.Alike : Converted → Converted → Prop
  | token {t t' : Token} (moved : t'.moved Moving.toStart = t.moved Moving.toStart) :
      Converted.Alike (.token t) (.token t')
  | skipped : Converted.Alike .skipped .skipped
  | stopped {ending ending' : StreamEnd} (endings : ending.Alike ending') :
      Converted.Alike (.stopped ending) (.stopped ending')

section

variable {texts : ExternalTexts} {source source' : Source}

/-- Lexemes with the same text come to the same, if external texts are read
alike. -/
theorem convert_alike (hreader : ∀ path, texts source' path = texts source path) {l l' : Lexeme}
    (h : l'.piece = l.piece) : (convert texts source l).Alike (convert texts source' l') := by
  obtain ⟨hkind, htext⟩ := Prod.mk.inj h
  unfold convert
  dsimp only
  rw [hkind, htext]
  split
  · exact .skipped
  · exact .token rfl
  · exact .token rfl
  · exact .token rfl
  · exact .stopped (.faulty rfl)
  · rw [hreader]
    split
    · exact .token rfl
    · exact .stopped (.faulty rfl)
    · exact .stopped .crashed
  · exact .stopped (.faulty rfl)

/-- Lexemes that are the same up to comments and offsets become tokens that
are the same up to offsets. -/
theorem convertAll_alike (hreader : ∀ path, texts source' path = texts source path)
    {ls ls' : List Lexeme}
    (h : ls'.map (·.piece) = (ls.filter (!·.isComment)).map (·.piece)) :
    (convertAll texts source' ls').1.map (·.moved Moving.toStart)
        = (convertAll texts source ls).1.map (·.moved Moving.toStart)
      ∧ (convertAll texts source ls).2.Alike (convertAll texts source' ls').2 := by
  induction ls generalizing ls' with
  | nil =>
    obtain rfl := List.map_eq_nil_iff.mp h
    exact ⟨rfl, .complete⟩
  | cons l rest ih =>
    cases hcomment : l.isComment with
    | true =>
      -- A comment leaves no token, and the other text has none in its place.
      rw [List.filter_cons_of_neg (by rw [hcomment]; decide)] at h
      rw [convertAll, convert_eq_skipped_iff.mpr hcomment]
      exact ih h
    | false =>
      rw [List.filter_cons_of_pos (by rw [hcomment]; rfl)] at h
      obtain ⟨l', rest', rfl, hpiece, hrest⟩ := List.map_eq_cons_iff.mp h
      obtain ⟨htokens, hending⟩ := ih hrest
      have halike := convert_alike hreader hpiece
      rw [convertAll, convertAll]
      generalize convert texts source l = x at halike
      generalize convert texts source' l' = x' at halike
      cases halike with
      | token moved => exact ⟨congrArg₂ List.cons moved htokens, hending⟩
      | skipped => exact ⟨htokens, hending⟩
      | stopped endings => exact ⟨rfl, endings⟩

/-- A script with the same lexemes up to comments and offsets has the same
tokens up to offsets, and is stopped by the same fault if by any. -/
theorem tokenize_alike (hreader : ∀ path, texts source' path = texts source path)
    (h : (lex source'.text).map (·.piece)
      = ((lex source.text).filter (!·.isComment)).map (·.piece)) :
    (tokenize texts source').tokens.map (·.moved Moving.toStart)
        = (tokenize texts source).tokens.map (·.moved Moving.toStart)
      ∧ (tokenize texts source).ending.Alike (tokenize texts source').ending := by
  obtain ⟨htokens, hending⟩ := convertAll_alike hreader h
  unfold tokenize
  generalize convertAll texts source (lex source.text) = x at htokens hending
  generalize convertAll texts source' (lex source'.text) = x' at htokens hending
  obtain ⟨tokens, ending⟩ := x
  obtain ⟨tokens', ending'⟩ := x'
  cases hending with
  | crashed => exact ⟨htokens, .crashed⟩
  | complete =>
    refine ⟨?_, .complete⟩
    rw [List.map_append, List.map_append, htokens]
    rfl
  | faulty fault =>
    refine ⟨?_, .faulty fault⟩
    rw [List.map_append, List.map_append, htokens]
    rfl

end

/-! ### Reading -/

/-- Results that are the same at moved tokens have the same values, or
failures with the same code at the same token. -/
theorem sameResult_of_moved {s : Moving} {α : Type} {x x' : Except Failure α}
    (h : x'.mapError (·.moved s) = x.mapError (·.moved s)) :
    SameResult Failure.Matches Eq x x' := by
  cases x with
  | ok a =>
    cases x' with
    | ok a' => exact .ok (Except.ok.inj h).symm
    | error f' => cases h
  | error f =>
    cases x' with
    | ok a' => cases h
    | error f' =>
      have hmoved : f'.moved s = f.moved s := Except.error.inj h
      have hindex : (f'.moved s).index = (f.moved s).index := congrArg Failure.index hmoved
      have hcode : (f'.fault.moved s).code = (f.fault.moved s).code :=
        congrArg (·.fault.code) hmoved
      rw [Fault.code_moved, Fault.code_moved] at hcode
      exact .error ⟨hindex, hcode⟩

/-- Tokens that are the same up to offsets are read alike. -/
theorem parse_alike (m : Model) {s : Moving} {tokens tokens' : List Token}
    (h : tokens'.map (·.moved s) = tokens.map (·.moved s)) :
    SameResult Failure.Matches Eq (parse m tokens).result (parse m tokens').result := by
  refine sameResult_of_moved (s := s) ?_
  calc ((parse m tokens').moved s).result
      = (parse m (tokens'.map (·.moved s))).result := by rw [parse_moved]
    _ = (parse m (tokens.map (·.moved s))).result := by rw [h]
    _ = ((parse m tokens).moved s).result := by rw [parse_moved]

/-- A script is written again without its comments and with other white space
between its lexemes. If each string and reference in it is closed, the new
script has the same lexemes, and the same tokens for a reader that answers
both scripts alike. Both give the same concepts, or fail with the same code
at the same token. -/
theorem parse_spaced (m : Model) (texts : ExternalTexts) (source source' : Source)
    (hreader : ∀ path, texts source' path = texts source path)
    (hclosed : ∀ l ∈ lex source.text, l.isUnclosed = false)
    (hspaced : Spaced (((lex source.text).filter (!·.isComment)).map (·.text)) source'.text) :
    let stream := tokenize texts source
    let stream' := tokenize texts source'
    (lex source'.text).map (fun l => (l.kind, l.text))
        = ((lex source.text).filter (!·.isComment)).map (fun l => (l.kind, l.text))
      ∧ stream'.tokens.map (fun t => (t.kind, t.value))
        = stream.tokens.map (fun t => (t.kind, t.value))
      ∧ stream.ending.Alike stream'.ending
      ∧ SameResult Failure.Matches Eq (parse m stream.tokens).result
        (parse m stream'.tokens).result := by
  intro stream stream'
  have hlexemes : (lex source'.text).map (·.piece)
      = ((lex source.text).filter (!·.isComment)).map (·.piece) := by
    -- Comments are left out and nothing is open, so each lexeme can be cut off where white space
    -- follows.
    have hls : ∀ l ∈ (lex source.text).filter (!·.isComment),
        l ∈ lex source.text ∧ l.isUnclosed = false ∧ l.isComment = false := by
      intro l hl
      obtain ⟨hmem, hcomment⟩ := List.mem_filter.mp hl
      exact ⟨hmem, hclosed l hmem, by simpa using hcomment⟩
    exact lexFrom_spaced hls hspaced 0
  obtain ⟨htokens, hending⟩ := tokenize_alike hreader hlexemes
  have hcontents := congrArg (List.map fun t : Token => (t.kind, t.value)) htokens
  rw [List.map_map, List.map_map] at hcontents
  exact ⟨hlexemes, hcontents, hending, parse_alike m htokens⟩

/-- A module with a comment behind its keyword, on one line again. -/
theorem parse_spaced_of_comment :
    let texts : ExternalTexts := fun _ _ => .unavailable "none"
    let source : Source := ⟨"before", none, "module//c\n'A';".toList⟩
    let source' : Source := ⟨"after", none, "module 'A'\t;".toList⟩
    (∀ path, texts source' path = texts source path)
      ∧ (∀ l ∈ lex source.text, l.isUnclosed = false)
      ∧ Spaced (((lex source.text).filter (!·.isComment)).map (·.text)) source'.text
      ∧ (parse moduleModel (tokenize texts source).tokens).result = .ok [.mk 0 [.text "A"]]
      ∧ SameResult Failure.Matches Eq (parse moduleModel (tokenize texts source).tokens).result
        (parse moduleModel (tokenize texts source').tokens).result := by
  intro texts source source'
  have hlex : lex source.text = [⟨.word, "module".toList, 0, 6⟩, ⟨.comment, "//c".toList, 6, 9⟩,
      ⟨.quoted .single true, "'A'".toList, 10, 13⟩, ⟨.special, [';'], 13, 14⟩] := by
    decide +kernel
  have hclosed : ∀ l ∈ lex source.text, l.isUnclosed = false := by
    rw [hlex]
    decide
  have hspaced :
      Spaced (((lex source.text).filter (!·.isComment)).map (·.text)) source'.text := by
    rw [hlex]
    exact .piece "module".toList (by rintro _ ⟨⟩; rfl) (.blank rfl
      (.piece "'A'".toList (by rintro _ ⟨⟩; rfl) (.blank rfl
        (.piece [';'] (by rintro _ ⟨⟩) .nil))))
  have htokens : (tokenize texts source).tokens = [⟨.word, "module", 0, 6⟩,
      ⟨.quoted .single, "A", 10, 13⟩, ⟨.special, ";", 13, 14⟩, .endAt 14] := by
    decide +kernel
  have hread : (parse moduleModel (tokenize texts source).tokens).result
      = .ok [.mk 0 [.text "A"]] := by
    rw [htokens, parse, parseFrom_of_ok rfl rfl rfl, parseFrom_of_atEnd rfl]
    rfl
  refine ⟨fun _ => rfl, hclosed, hspaced, hread, ?_⟩
  exact (parse_spaced moduleModel texts source source' (fun _ => rfl) hclosed hspaced).2.2.2

end ConceptScript.Script

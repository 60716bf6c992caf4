import Mathlib.Data.List.Pairwise
import ConceptScript.Proofs.Script.LongestMatch
import ConceptScript.Proofs.Script.StreamCut

/-!
# `ConceptScript.Proofs.Script.Tiling`: nothing of a script is lost

The lexemes of a script are stretches of it in order, and only white space
is between them (`Tiles`). This follows from the patterns alone: it holds
of any text of which the longest matches are cut off one after another
(`LongestMatches.tiles`). A string or a reference that is not closed would
be longer with one more character, so it reaches the end of the script.

Tokens and comments come from two scans that leave out different lexemes.
`tokenize_tiles` puts them together again: merged by where they start they
stand for all lexemes (`merge_standsFor`), up to the one that stops the
stream if there is one (`convertAll_split`).
-/

set_option autoImplicit false

namespace ConceptScript.Script

open ConceptScript.Text
open scoped Computability

/-! ### Lexemes -/

/-- A lexeme is a stretch of a text that starts at an offset, and is not
empty. -/
structure Lexeme.IsSlice (offset : Nat) (text : List Char) (l : Lexeme) : Prop where
  length : l.start < l.stop
  slice : ∃ a b, text = a ++ l.text ++ b ∧ l.start = offset + byteLen a
    ∧ l.stop = l.start + byteLen l.text

/-- Lexemes that cover a text that starts at an offset, but for white
space: none reaches into the next one. One that is not closed comes last
and reaches the end of the text. -/
structure Tiles (offset : Nat) (text : List Char) (ls : List Lexeme) : Prop where
  isSlice : ∀ l ∈ ls, l.IsSlice offset text
  apart : ls.Pairwise fun l l' => l.stop ≤ l'.start
  blank : ∀ a c b, text = a ++ c :: b →
    (∀ l ∈ ls, ¬(l.start ≤ offset + byteLen a ∧ offset + byteLen a < l.stop)) → isBlank c = true
  unclosed : ∀ l ∈ ls, l.isUnclosed = true →
    ls.getLast? = some l ∧ l.stop = offset + byteLen text

variable {offset : Nat} {s rest : List Char} {ls : List Lexeme}

/-- A stretch of the rear of a text is a stretch of the text. -/
theorem Lexeme.IsSlice.of_append {l : Lexeme} (h : l.IsSlice (offset + byteLen s) rest) :
    l.IsSlice offset (s ++ rest) := by
  obtain ⟨a, b, rfl, hstart, hstop⟩ := h.slice
  refine ⟨h.length, s ++ a, b, ?_, ?_, hstop⟩
  · simp only [List.append_assoc]
  · rw [hstart, byteLen_append, Nat.add_assoc]

/-- A stretch of a text does not reach past its end. -/
theorem Lexeme.IsSlice.stop_le {text : List Char} {l : Lexeme} (h : l.IsSlice offset text) :
    l.stop ≤ offset + byteLen text := by
  obtain ⟨a, b, rfl, hstart, hstop⟩ := h.slice
  rw [byteLen_append, byteLen_append]
  omega

/-- Lexemes that cover a text start in it. -/
theorem Tiles.start_ge (h : Tiles offset rest ls) : ∀ l ∈ ls, offset ≤ l.start := by
  intro l hl
  obtain ⟨a, b, _, hstart, _⟩ := (h.isSlice l hl).slice
  omega

/-- An empty text needs no lexeme to be covered. -/
theorem Tiles.nil : Tiles offset [] [] where
  isSlice _ hl := absurd hl List.not_mem_nil
  apart := .nil
  blank a c b h := absurd h.symm (List.append_ne_nil_of_right_ne_nil a (List.cons_ne_nil c b))
  unclosed _ hl := absurd hl List.not_mem_nil

/-- White space in front leaves a text covered. -/
theorem Tiles.after_blank (hs : ∀ c ∈ s, isBlank c = true)
    (h : Tiles (offset + byteLen s) rest ls) : Tiles offset (s ++ rest) ls where
  isSlice l hl := (h.isSlice l hl).of_append
  apart := h.apart
  blank a c b htext hout := by
    rcases append_cons_eq_append htext with ⟨b', rfl, -⟩ | ⟨a', rfl, hrest⟩
    · exact hs c (List.mem_append_right _ List.mem_cons_self)
    · rw [byteLen_append, ← Nat.add_assoc] at hout
      exact h.blank a' c b hrest hout
  unclosed l hl hopen := by
    rw [byteLen_append, ← Nat.add_assoc]
    exact h.unclosed l hl hopen

/-- A lexeme in front covers its own text. If it is open, it has to be the
last. -/
theorem Tiles.after_lexeme {kind : LexemeKind} (hs : s ≠ [])
    (hrest : kind.isOpen = true → rest = []) (h : Tiles (offset + byteLen s) rest ls) :
    Tiles offset (s ++ rest) (⟨kind, s, offset, offset + byteLen s⟩ :: ls) where
  isSlice := by
    refine List.forall_mem_cons.mpr ⟨⟨?_, [], rest, rfl, rfl, rfl⟩, fun l hl => ?_⟩
    · exact Nat.lt_add_of_pos_right (byteLen_pos hs)
    · exact (h.isSlice l hl).of_append
  apart := List.pairwise_cons.mpr ⟨h.start_ge, h.apart⟩
  blank a c b htext hout := by
    obtain ⟨hfirst, hothers⟩ := List.forall_mem_cons.mp hout
    rcases append_cons_eq_append htext with ⟨b', rfl, -⟩ | ⟨a', rfl, hrest⟩
    · -- The first lexeme covers this character.
      have hpos := byteLen_pos (List.cons_ne_nil c b')
      refine absurd ⟨Nat.le_add_right _ _, ?_⟩ hfirst
      show offset + byteLen a < offset + byteLen (a ++ c :: b')
      rw [byteLen_append]
      omega
    · rw [byteLen_append, ← Nat.add_assoc] at hothers
      exact h.blank a' c b hrest hothers
  unclosed := by
    refine List.forall_mem_cons.mpr ⟨fun hopen => ?_, fun l hl hopen => ?_⟩
    · obtain rfl := hrest hopen
      -- There is no text left for another one.
      have hnone : ls = [] := by
        rw [List.eq_nil_iff_forall_not_mem]
        intro l hl
        obtain ⟨a, b, htext, _, hstop⟩ := (h.isSlice l hl).slice
        have htext : l.text = [] := by simp_all
        have hlength := (h.isSlice l hl).length
        rw [hstop, htext] at hlength
        exact absurd hlength (Nat.lt_irrefl _)
      subst hnone
      exact ⟨rfl, by rw [List.append_nil]⟩
    · obtain ⟨hlast, hstop⟩ := h.unclosed l hl hopen
      refine ⟨?_, ?_⟩
      · rw [List.getLast?_cons, hlast]
        rfl
      · rw [hstop, byteLen_append, Nat.add_assoc]

/-- A string or a reference that is not closed goes on to the end of the
text: one more character would make it longer, closed or not. -/
theorem Longest.rest_of_isOpen {kind : LexemeKind}
    (h : Longest pattern (s ++ rest) (some kind) s) (hopen : kind.isOpen = true) : rest = [] := by
  cases rest with
  | nil => rfl
  | cons c rest =>
    -- With one more character the match would be longer, which the longest one excludes.
    have hlonger : ∀ kind', s ++ [c] ∉ pattern (some kind') := by
      intro kind' hmem
      have hfront : s ++ [c] <+: s ++ c :: rest := ⟨rest, by rw [List.append_assoc]; rfl⟩
      rcases h.longest (some kind') _ hfront hmem with hlt | ⟨_, heq⟩
      · rw [List.length_append] at hlt
        omega
      · rw [List.length_append, List.length_singleton] at heq
        omega
    rcases kind with _ | _ | ⟨q, closed⟩ | closed | _
    · cases hopen
    · cases hopen
    · obtain rfl : closed = false := by simpa [LexemeKind.isOpen] using hopen
      obtain ⟨t, ht, rfl⟩ := mem_singleton_mul.mp h.mem
      -- A quote closes the string, and any other character goes on with it.
      by_cases hc : c = q.char
      · refine absurd (mem_singleton_mul.mpr ⟨t ++ [c], ?_, rfl⟩) (hlonger (.quoted q true))
        exact mem_mul_singleton.mpr ⟨t, ht, by rw [hc]⟩
      · refine absurd (mem_singleton_mul.mpr ⟨t ++ [c], ?_, rfl⟩) (hlonger (.quoted q false))
        have hone : [c] ∈ oneOf (· != q.char) + {[q.char, q.char]} :=
          .inl ⟨c, bne_iff_ne.mpr hc, rfl⟩
        have hle : inQuotes q.char * _ ≤ inQuotes q.char := kstar_mul_le_kstar
        exact hle (Language.append_mem_mul ht hone)
    · obtain rfl : closed = false := by simpa [LexemeKind.isOpen] using hopen
      obtain ⟨t, ht, rfl⟩ := mem_singleton_mul.mp h.mem
      -- The same of a reference.
      by_cases hc : c = '>'
      · refine absurd (mem_singleton_mul.mpr ⟨t ++ [c], ?_, rfl⟩) (hlonger (.reference true))
        exact mem_mul_singleton.mpr ⟨t, ht, by rw [hc]⟩
      · refine absurd (mem_singleton_mul.mpr ⟨t ++ [c], ?_, rfl⟩) (hlonger (.reference false))
        refine mem_star_oneOf.mpr (List.forall_mem_append.mpr ⟨mem_star_oneOf.mp ht, ?_⟩)
        exact List.forall_mem_singleton.mpr (bne_iff_ne.mpr hc)
    · cases hopen

/-- The longest matches of the patterns tile the text. -/
theorem LongestMatches.tiles {text : List Char} (h : LongestMatches offset text ls) :
    Tiles offset text ls := by
  induction h with
  | nil => exact .nil
  | blank longest _ ih =>
    obtain ⟨c, t, hc, ht, rfl⟩ := mem_oneOf_mul.mp longest.mem
    exact ih.after_blank (List.forall_mem_cons.mpr ⟨hc, mem_star_oneOf.mp ht⟩)
  | lexeme longest _ ih =>
    obtain ⟨c, t, rfl, _⟩ := leadKind_of_pattern longest.mem
    exact ih.after_lexeme (List.cons_ne_nil c t) longest.rest_of_isOpen

/-- The lexemes of a script cover it, but for white space. -/
theorem tiles_lex (text : List Char) : Tiles 0 text (lex text) :=
  (longestMatches_lexFrom 0 text).tiles

/-! ### Tokens -/

variable {texts : ExternalTexts} {source : Source}

/-- A token that stands for a lexeme: it takes the same place, and is the
comment or what the lexeme is converted to. -/
structure Token.StandsFor (texts : ExternalTexts) (source : Source) (t : Token) (l : Lexeme) :
    Prop where
  start : t.start = l.start
  stop : t.stop = l.stop
  comment : l.isComment = true → t.kind = .comment ∧ t.value = String.ofList l.text
  other : l.isComment = false → convert texts source l = .token t

/-- The comments among some lexemes. -/
def commentsOf (ls : List Lexeme) : List Token :=
  (ls.filter Lexeme.isComment).map fun l => ⟨.comment, String.ofList l.text, l.start, l.stop⟩

/-- Tokens before others in the text. -/
def Token.startsBefore (t u : Token) : Bool := t.start ≤ u.start

/-- If the first list starts before the second one, its first token comes
first. -/
theorem merge_cons_left {t : Token} {ts us : List Token} (h : ∀ u ∈ us, t.start ≤ u.start) :
    (t :: ts).merge us Token.startsBefore = t :: ts.merge us Token.startsBefore := by
  cases us with
  | nil => rw [List.merge_right, List.merge_right]
  | cons u us =>
    have hle : t.startsBefore u = true := decide_eq_true (h u List.mem_cons_self)
    rw [List.cons_merge_cons, if_pos hle]

/-- If the second list starts strictly before the first one, its first token
comes first. -/
theorem merge_cons_right {u : Token} {ts us : List Token} (h : ∀ t ∈ ts, u.start < t.start) :
    ts.merge (u :: us) Token.startsBefore = u :: ts.merge us Token.startsBefore := by
  cases ts with
  | nil => rw [List.nil_merge, List.nil_merge]
  | cons t ts =>
    have hnot : t.startsBefore u = false :=
      decide_eq_false (Nat.not_le_of_lt (h t List.mem_cons_self))
    rw [List.cons_merge_cons, if_neg (Bool.eq_false_iff.mp hnot)]

/-- Each member of the first list has one in the second. -/
theorem forall₂_exists_of_mem {α β : Type} {R : α → β → Prop} {as : List α} {bs : List β} {a : α}
    (h : List.Forall₂ R as bs) (ha : a ∈ as) : ∃ b ∈ bs, R a b := by
  induction h with
  | nil => exact absurd ha List.not_mem_nil
  | cons hab _ ih =>
    rcases List.mem_cons.mp ha with rfl | ha
    · exact ⟨_, List.mem_cons_self, hab⟩
    · obtain ⟨b, hb, hr⟩ := ih ha
      exact ⟨b, List.mem_cons_of_mem _ hb, hr⟩

/-- A token stands for the lexeme that was converted to it. -/
theorem Token.StandsFor.of_convert {t : Token} {l : Lexeme}
    (h : convert texts source l = .token t) : t.StandsFor texts source l := by
  refine ⟨(keeps_of_convert h).start, (keeps_of_convert h).stop, fun hcomment => ?_, fun _ => h⟩
  rw [convert, beq_iff_eq.mp hcomment] at h
  cases h

/-- Only comments are skipped. -/
theorem convert_eq_skipped_iff {l : Lexeme} :
    convert texts source l = .skipped ↔ l.isComment = true := by
  unfold convert Lexeme.isComment
  dsimp only
  split <;> simp_all
  split <;> simp

/-- Tokens that stand for all but the comments, and the comments, make up
all lexemes again. -/
theorem merge_standsFor {ts : List Token}
    (h : List.Forall₂ (Token.StandsFor texts source) ts (ls.filter (!·.isComment)))
    (hstarts : ls.Pairwise fun l l' => l.start < l'.start) :
    List.Forall₂ (Token.StandsFor texts source) (ts.merge (commentsOf ls) Token.startsBefore)
      ls := by
  induction ls generalizing ts with
  | nil =>
    obtain rfl := List.forall₂_nil_right_iff.mp h
    rw [List.nil_merge]
    exact .nil
  | cons l ls ih =>
    obtain ⟨hfirst, hstarts⟩ := List.pairwise_cons.mp hstarts
    cases hcomment : l.isComment with
    | true =>
      rw [List.filter_cons_of_neg (by rw [hcomment]; decide)] at h
      have hcomments : commentsOf (l :: ls) =
          ⟨.comment, String.ofList l.text, l.start, l.stop⟩ :: commentsOf ls := by
        rw [commentsOf, List.filter_cons_of_pos hcomment]
        rfl
      -- The comment comes before all tokens, which stand for later lexemes.
      rw [hcomments, merge_cons_right]
      · exact .cons ⟨rfl, rfl, fun _ => ⟨rfl, rfl⟩, fun hother => (by simp_all)⟩ (ih h hstarts)
      · intro t ht
        obtain ⟨l', hl', hstands⟩ := forall₂_exists_of_mem h ht
        rw [hstands.start]
        exact hfirst l' (List.mem_of_mem_filter hl')
    | false =>
      rw [List.filter_cons_of_pos (by rw [hcomment]; rfl)] at h
      have hcomments : commentsOf (l :: ls) = commentsOf ls := by
        rw [commentsOf, List.filter_cons_of_neg (by rw [hcomment]; decide)]
        rfl
      obtain ⟨t, ts, hstands, htail, rfl⟩ := List.forall₂_cons_right_iff.mp h
      rw [hcomments, merge_cons_left]
      · exact .cons hstands (ih htail hstarts)
      · intro u hu
        obtain ⟨l', hl', rfl⟩ := List.mem_map.mp hu
        rw [hstands.start]
        exact Nat.le_of_lt (hfirst l' (List.mem_of_mem_filter hl'))

/-- The tokens are those of the first lexemes, without the comments. What
is left begins with a lexeme that stops the stream, if there is anything. -/
theorem convertAll_split (texts : ExternalTexts) (source : Source) (ls : List Lexeme) :
    ∃ before after, ls = before ++ after
      ∧ List.Forall₂ (Token.StandsFor texts source) (convertAll texts source ls).1
        (before.filter (!·.isComment))
      ∧ ((convertAll texts source ls).2 = .complete ∧ after = [] ∨
        ∃ l rest, after = l :: rest
          ∧ convert texts source l = .stopped (convertAll texts source ls).2) := by
  induction ls with
  | nil => exact ⟨[], [], rfl, .nil, .inl ⟨rfl, rfl⟩⟩
  | cons l ls ih =>
    obtain ⟨before, after, rfl, htokens, hafter⟩ := ih
    rw [convertAll]
    cases hconvert : convert texts source l with
    | skipped =>
      refine ⟨l :: before, after, rfl, ?_, hafter⟩
      rw [List.filter_cons_of_neg (by rw [convert_eq_skipped_iff.mp hconvert]; decide)]
      exact htokens
    | stopped ending => exact ⟨[], l :: (before ++ after), rfl, .nil, .inr ⟨l, _, rfl, hconvert⟩⟩
    | token t =>
      -- A lexeme that comes to a token is no comment, since comments are skipped.
      have hother : l.isComment = false := by
        rw [← Bool.not_eq_true]
        intro hcomment
        cases (convert_eq_skipped_iff.mpr hcomment).symm.trans hconvert
      refine ⟨l :: before, after, rfl, ?_, hafter⟩
      rw [List.filter_cons_of_pos (by rw [hother]; rfl)]
      exact .cons (.of_convert hconvert) htokens

/-- Lexemes for which there are tokens do not stop the stream. -/
theorem convertAll_append_of_standsFor {ts : List Token} {before : List Lexeme}
    (h : List.Forall₂ (Token.StandsFor texts source) ts (before.filter (!·.isComment)))
    (after : List Lexeme) : convertAll texts source (before ++ after)
      = (ts ++ (convertAll texts source after).1, (convertAll texts source after).2) := by
  induction before generalizing ts with
  | nil =>
    obtain rfl := List.forall₂_nil_right_iff.mp h
    rfl
  | cons l before ih =>
    rw [List.cons_append, convertAll]
    cases hcomment : l.isComment with
    | true =>
      rw [List.filter_cons_of_neg (by rw [hcomment]; decide)] at h
      rw [convert_eq_skipped_iff.mpr hcomment]
      exact ih h
    | false =>
      rw [List.filter_cons_of_pos (by rw [hcomment]; rfl)] at h
      obtain ⟨t, others, hstands, hothers, rfl⟩ := List.forall₂_cons_right_iff.mp h
      rw [hstands.other hcomment, ih hothers]
      rfl

/-- The stream of a script ends as the conversion of its lexemes does. -/
theorem tokenize_ending (texts : ExternalTexts) (source : Source) :
    (tokenize texts source).ending = (convertAll texts source (lex source.text)).2 := by
  unfold tokenize
  split
  · next hconverted => rw [hconverted]
  · next hconverted => rw [hconverted]

/-- A stream that ends with a fault has it from one of the lexemes. -/
theorem exists_lexeme_of_faulty {e : SyntaxError}
    (h : (tokenize texts source).ending = .faulty e) :
    ∃ l ∈ lex source.text, convert texts source l = .stopped (.faulty e) := by
  obtain ⟨before, after, hls, _, hending⟩ := convertAll_split texts source (lex source.text)
  rw [← tokenize_ending, h] at hending
  rcases hending with ⟨hcomplete, _⟩ | ⟨l, rest, rfl, hstopped⟩
  · cases hcomplete
  · exact ⟨l, hls ▸ List.mem_append_right _ List.mem_cons_self, hstopped⟩

/-- Lexemes that cover a text start one after the other: none is empty. -/
theorem Tiles.starts_increase {text : List Char} (h : Tiles offset text ls) :
    ls.Pairwise fun l l' => l.start < l'.start :=
  h.apart.imp_of_mem fun hl _ hapart => Nat.lt_of_lt_of_le (h.isSlice _ hl).length hapart

/-- A lexeme that starts before another one stops does not stop after it. -/
theorem Tiles.stop_le_of_start_lt {text : List Char} (h : Tiles offset text ls) {l l' : Lexeme}
    (hl : l ∈ ls) (hl' : l' ∈ ls) (hlt : l'.start < l.stop) : l'.stop ≤ l.stop := by
  have hlength := (h.isSlice l hl).length
  obtain ⟨before, after, rfl⟩ := List.append_of_mem hl
  obtain ⟨_, hapart, hbefore⟩ := List.pairwise_append.mp h.apart
  rcases List.mem_append.mp hl' with hmem | hmem
  · have hle : l'.stop ≤ l.start := hbefore l' hmem l List.mem_cons_self
    omega
  rcases List.mem_cons.mp hmem with rfl | hmem
  · exact Nat.le_refl _
  · have hle : l.stop ≤ l'.start := (List.pairwise_cons.mp hapart).1 l' hmem
    omega

/-- The lexemes of a script are the longest matches of the patterns, and
tile it. Where external texts are read without a crash, its tokens and its
comments, merged by where they start, stand for all lexemes. With a fault
the tokens stand for those before the faulty one. The end of the script
comes last. -/
theorem tokenize_tiles (h : NeverCrashes texts) (source : Source) :
    (∀ ls, LongestMatches 0 source.text ls ↔ lex source.text = ls)
      ∧ Tiles 0 source.text (lex source.text)
      ∧ ∃ ts, (tokenize texts source).tokens = ts ++ [.endAt (byteLen source.text)]
        ∧ (∀ t ∈ ts, t.isEnd = false)
        ∧ match (tokenize texts source).ending with
          | .complete => List.Forall₂ (Token.StandsFor texts source)
              (ts.merge (comments source.text) Token.startsBefore) (lex source.text)
          | .faulty e => ∃ before l after, lex source.text = before ++ l :: after
              ∧ convert texts source l = .stopped (.faulty e)
              ∧ List.Forall₂ (Token.StandsFor texts source) ts (before.filter (!·.isComment))
          | .crashed _ => False := by
  have htiles := tiles_lex source.text
  refine ⟨fun ls => longestMatches_iff, htiles, _, tokenize_tokens h source, ?_, ?_⟩
  · intro t ht
    obtain ⟨l, _, hconvert⟩ := exists_of_mem_convertAll ht
    exact (keeps_of_convert hconvert).isEnd
  · rw [tokenize_ending texts source]
    obtain ⟨before, after, hls, htokens, hending⟩ := convertAll_split texts source (lex source.text)
    have hcalm := ending_convertAll h source (lex source.text)
    cases hend : (convertAll texts source (lex source.text)).2 with
    | complete =>
      -- No lexeme stops the stream, so the first ones are all of them.
      rw [hend] at hending
      rcases hending with ⟨_, rfl⟩ | ⟨l, _, _, hstopped⟩
      · rw [List.append_nil] at hls
        rw [← hls] at htokens
        exact merge_standsFor htokens htiles.starts_increase
      · exact absurd rfl (ending_ne_complete_of_convert hstopped)
    | faulty e =>
      -- The lexeme that stops the stream is the faulty one.
      rw [hend] at hending
      rcases hending with ⟨hcomplete, _⟩ | ⟨l, rest, rfl, hstopped⟩
      · cases hcomplete
      · exact ⟨before, l, rest, hls, hstopped, htokens⟩
    | crashed message => exact hcalm message hend

/-- A comment between two words comes back to its place. -/
theorem tokenize_tiles_around_comment :
    let source : Source := ⟨"script", none, ['a', '/', '/', 'b', '\n', 'c']⟩
    let texts : ExternalTexts := fun _ _ => .unavailable "none"
    ∃ ts, (tokenize texts source).tokens = ts ++ [.endAt 6]
      ∧ List.Forall₂ (Token.StandsFor texts source)
        (ts.merge (comments source.text) Token.startsBefore)
        [⟨.word, ['a'], 0, 1⟩, ⟨.comment, ['/', '/', 'b'], 1, 4⟩, ⟨.word, ['c'], 5, 6⟩] := by
  intro source texts
  have hlex : lex source.text = [⟨.word, ['a'], 0, 1⟩, ⟨.comment, ['/', '/', 'b'], 1, 4⟩,
      ⟨.word, ['c'], 5, 6⟩] := by decide +kernel
  have hreader : NeverCrashes texts := fun _ _ _ h => (by cases h)
  have hcomplete : (tokenize texts source).ending = .complete := by
    rw [tokenize, hlex]
    rfl
  obtain ⟨_, _, ts, htokens, _, hstand⟩ := tokenize_tiles hreader source
  rw [hcomplete, hlex] at hstand
  exact ⟨ts, htokens, hstand⟩

end ConceptScript.Script

import ConceptScript.Project.Directive
import ConceptScript.Proofs.Script.LexLineEnds
import ConceptScript.Proofs.Script.Tiling
import ConceptScript.Proofs.Text.RoundTrip

/-!
# `ConceptScript.Proofs.Project.Directive`: directives and comments

A script names its project by a directive on a line of its own. The lines
are looked at one by one, whatever the script has there. So a line of the
form can be found that is no comment.

* `directivePath?_eq_some_iff`: the lines that name a path are those that
  begin with a `Directive`, after blanks.
* `rootPath?_eq_some_iff`: the path of a script is that of its first
  directive (`Directive.StandsIn`).
* `rootPath?_and_inComment_iff`: this directive is in a comment unless a
  string or reference of several lines is around it, or a `\r` within it
  ends the comment before.

A lexeme that is around the `//` of a directive but does not start there
starts on a line before. Only strings and references go on from one line to
the next.
-/

set_option autoImplicit false

namespace ConceptScript.Project

open ConceptScript.Text
open ConceptScript.Script
open ConceptScript.Files (FilePath)

/-! ### Lines that name a path -/

/-- What follows a beginning is what is left of a text when the beginning is
taken away. -/
theorem after?_eq_some_iff {beginning s rest : List Char} :
    after? beginning s = some rest ↔ s = beginning ++ rest := by
  induction beginning generalizing s with
  | nil => simp [after?]
  | cons c beginning ih =>
    cases s with
    | nil => simp [after?]
    | cons d s =>
      by_cases hc : c = d
      · simp [after?, hc, ih]
      · simp [after?, hc, Ne.symm hc]

/-- Blanks before a text that starts with none are what is trimmed. -/
theorem trimStart_append {blanks s : List Char} (hblanks : ∀ c ∈ blanks, isBlank c = true)
    (hs : ∀ c ∈ s.head?, isBlank c = false) : trimStart (blanks ++ s) = s := by
  rw [trimStart, List.dropWhile_append_of_pos hblanks]
  cases s with
  | nil => rfl
  | cons c s => rw [List.dropWhile_cons, hs c rfl, if_neg Bool.false_ne_true]

/-- What trimming takes from a text is blanks in front of it. -/
theorem exists_trimStart (s : List Char) :
    ∃ blanks, (∀ c ∈ blanks, isBlank c = true) ∧ s = blanks ++ trimStart s :=
  ⟨s.takeWhile isBlank, fun _ hc => List.mem_takeWhile_imp hc,
    List.takeWhile_append_dropWhile.symm⟩

/-- The opening of a directive starts with `<`, so blanks before it end
there. -/
theorem head?_opening : opening.head? = some '<' := rfl

/-- A directive in its parts: the blanks after `//`, the value between the
quotes, and the blanks after it. -/
structure Directive where
  gap : List Char
  value : List Char
  margin : List Char
  gap_blank : ∀ c ∈ gap, isBlank c = true
  value_unquoted : '"' ∉ value
  value_named : trim value ≠ []
  margin_blank : ∀ c ∈ margin, isBlank c = true

namespace Directive

/-- A directive as it is written, from `//` up to `/>`. -/
def written (d : Directive) : List Char :=
  "//".toList ++ (d.gap ++ (opening ++ (d.value ++ '"' :: (d.margin ++ "/>".toList))))

/-- The path that a directive names. -/
def path (d : Directive) : FilePath := ⟨String.ofList (trim d.value)⟩

end Directive

/-- A directive that is written after blanks is read as its path, whatever
comes after it on the line. -/
theorem directivePath?_written {indent : List Char} (hindent : ∀ c ∈ indent, isBlank c = true)
    (d : Directive) (rest : List Char) :
    directivePath? (indent ++ d.written ++ rest) = some d.path := by
  -- The reader takes the line apart from the front: these are what it has left after each part.
  let afterQuote := d.margin ++ ("/>".toList ++ rest)
  let afterGap := opening ++ (d.value ++ '"' :: afterQuote)
  have hline : indent ++ d.written ++ rest = indent ++ ("//".toList ++ (d.gap ++ afterGap)) := by
    simp [Directive.written, afterGap, afterQuote]
  have hslashes : after? "//".toList (trimStart (indent ++ d.written ++ rest))
      = some (d.gap ++ afterGap) := by
    rw [after?_eq_some_iff, hline]
    refine trimStart_append hindent ?_
    rintro _ ⟨⟩
    rfl
  have hopening : after? opening (trimStart (d.gap ++ afterGap))
      = some (d.value ++ '"' :: afterQuote) := by
    rw [after?_eq_some_iff]
    refine trimStart_append d.gap_blank ?_
    rw [List.head?_append, head?_opening]
    rintro _ ⟨⟩
    rfl
  have hvalue : ∀ c ∈ d.value, (c != '"') = true := by
    intro c hc
    exact bne_iff_ne.mpr fun hquote => d.value_unquoted (hquote ▸ hc)
  have htake : (d.value ++ '"' :: afterQuote).takeWhile (· != '"') = d.value := by
    simp [List.takeWhile_append_of_pos hvalue]
  have hquote : after? ['"'] ((d.value ++ '"' :: afterQuote).dropWhile (· != '"'))
      = some afterQuote := by
    simp [after?_eq_some_iff, List.dropWhile_append_of_pos hvalue]
  have hend : after? "/>".toList (trimStart afterQuote) = some rest := by
    rw [after?_eq_some_iff]
    refine trimStart_append d.margin_blank ?_
    rintro _ ⟨⟩
    rfl
  have hnamed : (trim d.value).isEmpty = false := List.isEmpty_eq_false_iff.mpr d.value_named
  simp only [directivePath?, hslashes, hopening, hquote, hend, htake, hnamed, Option.bind_eq_bind,
    Option.bind_some, Bool.false_eq_true, if_false, Directive.path]

/-- The lines that name a path begin with a directive, after blanks. -/
theorem directivePath?_eq_some_iff {line : List Char} {path : FilePath} :
    directivePath? line = some path ↔ ∃ (d : Directive) (indent : List Char),
      d.path = path ∧ (∀ c ∈ indent, isBlank c = true) ∧ indent ++ d.written <+: line := by
  constructor
  · intro h
    simp only [directivePath?, Option.bind_eq_bind, Option.bind_eq_some_iff,
      after?_eq_some_iff] at h
    -- The line is what the reader takes off part by part, with the blanks that it trims.
    obtain ⟨comment, hcomment, rest, hrest, tail, htail, after, hafter, hpath⟩ := h
    obtain ⟨indent, hindent, hline⟩ := exists_trimStart line
    obtain ⟨gap, hgap, hcommented⟩ := exists_trimStart comment
    obtain ⟨margin, hmargin, htailed⟩ := exists_trimStart tail
    have hvalued : rest = rest.takeWhile (· != '"') ++ '"' :: tail :=
      List.takeWhile_append_dropWhile.symm.trans (congrArg (rest.takeWhile _ ++ ·) htail)
    have hunquoted : '"' ∉ rest.takeWhile (· != '"') := by
      intro hmem
      simpa using List.mem_takeWhile_imp hmem
    generalize rest.takeWhile (· != '"') = value at hpath hvalued hunquoted
    cases hnamed : (trim value).isEmpty with
    | true => simp [hnamed] at hpath
    | false =>
      let d : Directive := ⟨gap, value, margin, hgap, hunquoted,
        List.isEmpty_eq_false_iff.mp hnamed, hmargin⟩
      have hpath' : d.path = path := by simpa [hnamed, d, Directive.path] using hpath
      refine ⟨d, indent, hpath', hindent, after, ?_⟩
      rw [hline, hcomment, hcommented, hrest, hvalued, htailed, hafter]
      simp only [d, Directive.written, List.append_assoc, List.cons_append]
  · rintro ⟨d, indent, rfl, hindent, rest, rfl⟩
    exact directivePath?_written hindent d rest

/-! ### The first directive of a script -/

/-- What a line begins with, its content begins with, but for the characters
that end the line. -/
theorem isPrefix_content {p line : List Char} (h : p <+: line) (hline : '\n' ∉ p)
    (hreturn : p.getLast? ≠ some '\r') : p <+: content line := by
  fun_induction content line generalizing p with
  | case1 => exact h
  | case2 =>
    obtain rfl : p = [] := by
      rcases List.prefix_cons_iff.mp h with rfl | ⟨p', rfl, _⟩
      · rfl
      · exact absurd List.mem_cons_self hline
    exact List.nil_prefix
  | case3 =>
    -- Before `\r\n` only `\r` itself could come, and the front has another end.
    obtain rfl : p = [] := by
      rcases List.prefix_cons_iff.mp h with rfl | ⟨p', rfl, hp'⟩
      · rfl
      · rcases List.prefix_cons_iff.mp hp' with rfl | ⟨p'', rfl, _⟩
        · exact absurd rfl hreturn
        · exact absurd (by simp) hline
    exact List.nil_prefix
  | case4 c rest _ _ ih =>
    rcases List.prefix_cons_iff.mp h with rfl | ⟨p', rfl, hp'⟩
    · exact List.nil_prefix
    · refine (List.prefix_cons_inj c).mpr (ih hp' (List.not_mem_of_not_mem_cons hline) ?_)
      cases p' with
      | nil => simp
      | cons d p' => rwa [List.getLast?_cons_cons] at hreturn

/-- In a text of one line the only line is looked at. -/
theorem rootPath?_of_not_mem {l : List Char} (h : '\n' ∉ l) : rootPath? l = directivePath? l := by
  simp [rootPath?, lines_of_not_mem h, content_of_not_mem h]

/-- The first line counts if it names a path. -/
theorem rootPath?_newline {l : List Char} (h : '\n' ∉ l) (rest : List Char) :
    rootPath? (l ++ '\n' :: rest)
      = (directivePath? (content (l ++ ['\n']))).or (rootPath? rest) := by
  rw [rootPath?, lines_append_newline h, List.findSome?_cons]
  cases directivePath? (content (l ++ ['\n'])) <;> rfl

/-- Whole lines that name no path do not count. -/
theorem rootPath?_append {before : List Char} (hbefore : EndsLine before)
    (hnone : rootPath? before = none) (rest : List Char) :
    rootPath? (before ++ rest) = rootPath? rest := by
  induction before using lineInduction with
  | last l h =>
    obtain rfl : l = [] := by
      by_contra hne
      exact h (hbefore.mem hne)
    rfl
  | more l more h ih =>
    rw [rootPath?_newline h] at hnone
    obtain ⟨hfirst, hmore⟩ := Option.or_eq_none_iff.mp hnone
    rw [List.append_assoc, List.cons_append, rootPath?_newline h, hfirst, Option.none_or]
    exact ih (EndsLine.of_cons (EndsLine.of_append hbefore)) hmore

/-- Where the directive of a script stands: on a line after blanks alone, in
one piece, and no line before names a path. -/
structure Directive.StandsIn (d : Directive) (text before indent : List Char) : Prop where
  isPrefix : before ++ (indent ++ d.written) <+: text
  indent_blank : ∀ c ∈ indent, isBlank c = true
  onOneLine : '\n' ∉ indent ++ d.written
  starts : EndsLine before
  first : rootPath? before = none

/-- A directive ends with `>`, so no `\r` at its end is dropped with the line
end. -/
theorem Directive.getLast?_written (d : Directive) (s : List Char) :
    (s ++ d.written).getLast? = some '>' := by
  have hends : s ++ d.written = (s ++ "//".toList ++ d.gap ++ opening ++ d.value ++ '"' :: d.margin
      ++ ['/']) ++ ['>'] := by
    simp [Directive.written]
  rw [hends, List.getLast?_concat]

/-- The path of a script with a directive is that of the directive. Induction
on the lines before it. -/
theorem Directive.StandsIn.rootPath? {d : Directive} {text before indent : List Char}
    (h : d.StandsIn text before indent) : rootPath? text = some d.path := by
  obtain ⟨rest, rfl⟩ := h.isPrefix
  rw [List.append_assoc, rootPath?_append h.starts h.first]
  rcases exists_firstLine rest with hrest | ⟨l, more, hl, rfl⟩
  · -- The directive is on the last line.
    rw [rootPath?_of_not_mem (by simpa [hrest] using h.onOneLine)]
    exact directivePath?_written h.indent_blank d rest
  · have hline : '\n' ∉ indent ++ d.written ++ l := by simpa [hl] using h.onOneLine
    have hfront : indent ++ d.written <+: content (indent ++ d.written ++ l ++ ['\n']) := by
      refine isPrefix_content ⟨l ++ ['\n'], (List.append_assoc _ _ _).symm⟩ h.onOneLine ?_
      rw [d.getLast?_written]
      decide
    have hpath : directivePath? (content (indent ++ d.written ++ l ++ ['\n'])) = some d.path :=
      directivePath?_eq_some_iff.mpr ⟨d, indent, rfl, h.indent_blank, hfront⟩
    rw [← List.append_assoc, rootPath?_newline hline, hpath, Option.some_or]

/-- The path that a script names is that of its first directive. -/
theorem rootPath?_eq_some_iff {text : List Char} {path : FilePath} :
    rootPath? text = some path ↔
      ∃ (d : Directive) (before indent : List Char), d.StandsIn text before indent
        ∧ d.path = path := by
  refine ⟨fun h => ?_, fun ⟨d, before, indent, hstands, hpath⟩ => hpath ▸ hstands.rootPath?⟩
  induction text using lineInduction with
  | last l hl =>
    rw [rootPath?_of_not_mem hl] at h
    obtain ⟨d, indent, hpath, hindent, hfront⟩ := directivePath?_eq_some_iff.mp h
    exact ⟨d, [], indent, ⟨hfront, hindent, fun hmem => hl (hfront.mem hmem), by simp [EndsLine],
      rfl⟩, hpath⟩
  | more l rest hl ih =>
    rw [rootPath?_newline hl] at h
    cases hfirst : directivePath? (content (l ++ ['\n'])) with
    | some found =>
      obtain rfl : found = path := by simpa [hfirst] using h
      obtain ⟨d, indent, hpath, hindent, hfront⟩ := directivePath?_eq_some_iff.mp hfirst
      have hfront : indent ++ d.written <+: l := hfront.trans (content_newline_isPrefix l)
      exact ⟨d, [], indent, ⟨hfront.trans (List.prefix_append _ _), hindent,
        fun hmem => hl (hfront.mem hmem), by simp [EndsLine], rfl⟩, hpath⟩
    | none =>
      -- It is the first one of the later lines.
      rw [hfirst, Option.none_or] at h
      obtain ⟨d, before, indent, hstands, hpath⟩ := ih h
      have hnone : Project.rootPath? (l ++ '\n' :: before) = none := by
        rw [rootPath?_newline hl, hfirst, hstands.first]
        rfl
      refine ⟨d, l ++ '\n' :: before, indent,
        ⟨?_, hstands.indent_blank, hstands.onOneLine, ?_, hnone⟩, hpath⟩
      · obtain ⟨after, rfl⟩ := hstands.isPrefix
        exact ⟨after, by simp⟩
      · rw [List.append_cons]
        exact (endsLine_newline l).append hstands.starts

/-! ### Comments -/

/-- A quoted string or a reference goes on over an offset. -/
def InStretch (text : List Char) (offset : Nat) : Prop :=
  ∃ l ∈ lex text, l.kind.isStretch = true ∧ l.start ≤ offset ∧ offset < l.stop

/-- What begins with `//` is a comment up to the end of the line. -/
theorem cutLexeme_slashes {c : Char} {rest after : List Char}
    (h : c :: rest = "//".toList ++ after) : (cutLexeme c rest).kind = .comment
      ∧ (cutLexeme c rest).text = (c :: rest).takeWhile staysOnLine := by
  obtain ⟨rfl, rfl⟩ := List.cons.inj h
  exact ⟨rfl, rfl⟩

section

variable {d : Directive} {text before indent : List Char} {l : Lexeme}

/-- A lexeme around the `//` of a directive that is no string and no
reference is the comment that starts there. -/
theorem Directive.StandsIn.comment_of_covers (h : d.StandsIn text before indent)
    (hl : l ∈ lex text) (hstart : l.start ≤ byteLen (before ++ indent))
    (hstop : byteLen (before ++ indent) < l.stop) (hkind : l.kind.isStretch = false) :
    ∃ after, l.kind = .comment ∧ l.text = (d.written ++ after).takeWhile staysOnLine
      ∧ l.stop = byteLen (before ++ indent) + byteLen l.text := by
  obtain ⟨after, rfl⟩ := h.isPrefix
  obtain ⟨a, c, left, htext, hblank, rfl⟩ := exists_cutLexeme_of_mem hl
  simp only [Nat.zero_add] at hstart hstop hkind ⊢
  rw [← List.append_assoc, List.append_assoc] at htext
  obtain ⟨covered, hcovered⟩ : a <+: before ++ indent :=
    isPrefix_of_byteLen_le ⟨c :: left, htext.symm⟩ ⟨_, rfl⟩ hstart
  rw [← hcovered, List.append_assoc] at htext
  have hrest : c :: left = covered ++ (d.written ++ after) := (List.append_cancel_left htext).symm
  cases covered with
  | nil =>
    -- The lexeme starts with the `//`.
    rw [List.append_nil] at hcovered
    rw [List.nil_append] at hrest
    obtain ⟨hcomment, htaken⟩ :=
      cutLexeme_slashes (hrest.trans (by rw [Directive.written, List.append_assoc]))
    exact ⟨after, hcomment, hrest ▸ htaken, by rw [hcovered]⟩
  | cons c' covered =>
    exfalso
    obtain rfl : c = c' := (List.cons.inj hrest).1
    -- It starts before, so it is around the end of a line or begins with a blank.
    have hinside : c :: covered <+: (cutLexeme c left).text := by
      refine isPrefix_of_byteLen_le ⟨_, hrest.symm⟩ ⟨_, cutLexeme_append c left⟩ ?_
      rw [← hcovered, byteLen_append] at hstop
      omega
    have hnone : '\n' ∉ c :: covered :=
      fun hmem => not_mem_cutLexeme hblank hkind (hinside.mem hmem)
    have hindent : c ∉ indent := by
      intro hmem
      rw [h.indent_blank c hmem] at hblank
      cases hblank
    rcases List.append_eq_append_iff.mp hcovered with ⟨x, rfl, hx⟩ | ⟨x, rfl, hx⟩
    · cases x with
      | nil =>
        rw [List.nil_append] at hx
        exact hindent (hx ▸ List.mem_cons_self)
      | cons e x =>
        have hends : '\n' ∈ e :: x := h.starts.of_append.mem (List.cons_ne_nil e x)
        exact hnone (hx ▸ List.mem_append_left indent hends)
    · exact hindent (hx ▸ List.mem_append_right x List.mem_cons_self)

/-- No two lexemes are around one offset. -/
theorem eq_of_covers {l' : Lexeme} {offset : Nat} (hl : l ∈ lex text) (hl' : l' ∈ lex text)
    (h : l.start ≤ offset ∧ offset < l.stop) (h' : l'.start ≤ offset ∧ offset < l'.stop) :
    l = l' := by
  have hapart : (lex text).Pairwise fun l l' => l.stop ≤ l'.start ∨ l'.stop ≤ l.start :=
    (tiles_lex text).apart.imp Or.inl
  have hsymm : Std.Symm fun l l' : Lexeme => l.stop ≤ l'.start ∨ l'.stop ≤ l.start :=
    ⟨fun _ _ => Or.symm⟩
  by_contra hne
  have := hapart.forall hl hl' hne
  omega

/-- The `//` of a directive is in some lexeme. -/
theorem Directive.StandsIn.exists_covers (h : d.StandsIn text before indent) :
    ∃ l ∈ lex text, l.start ≤ byteLen (before ++ indent)
      ∧ byteLen (before ++ indent) < l.stop := by
  obtain ⟨after, rfl⟩ := h.isPrefix
  by_contra hnone
  have hblank : isBlank '/' = true := by
    refine (tiles_lex _).blank (before ++ indent) '/' ((d.written ++ after).tail)
      (by simp [Directive.written]) fun l hl hcovers => hnone ⟨l, hl, ?_⟩
    rwa [Nat.zero_add] at hcovers
  cases hblank

end

/-- The directive of a script is in a comment. -/
def Directive.InComment (d : Directive) (text before indent : List Char) : Prop :=
  ∃ c ∈ comments text, c.start ≤ byteLen (before ++ indent)
    ∧ byteLen (before ++ indent) + byteLen d.written ≤ c.stop

/-- A directive is in a comment just if no `\r` in it ends the comment too
early and it is not inside of a string or a reference from a line before. -/
theorem Directive.StandsIn.inComment_iff {d : Directive} {text before indent : List Char}
    (h : d.StandsIn text before indent) : d.InComment text before indent ↔
      '\r' ∉ d.written ∧ ¬ InStretch text (byteLen (before ++ indent)) := by
  constructor
  · rintro ⟨_, hmem, hstart, hstop⟩
    obtain ⟨l, hl, rfl⟩ := List.mem_map.mp hmem
    obtain ⟨hlex, hcomment⟩ := List.mem_filter.mp hl
    have hkind : l.kind.isStretch = false := by
      rw [show l.kind = .comment from eq_of_beq hcomment]
      rfl
    have hcovers : byteLen (before ++ indent) < l.stop :=
      Nat.lt_of_lt_of_le (Nat.lt_add_of_pos_right (byteLen_pos (List.cons_ne_nil _ _))) hstop
    constructor
    · intro hreturn
      -- A comment stops before its first `\r`, so it would not cover the directive.
      obtain ⟨after, _, htext, hend⟩ := h.comment_of_covers hlex hstart hcovers hkind
      have hinside : d.written <+: (d.written ++ after).takeWhile staysOnLine := by
        refine isPrefix_of_byteLen_le (List.prefix_append _ _) (List.takeWhile_prefix _) ?_
        rw [← htext]
        exact Nat.le_of_add_le_add_left (hend ▸ hstop)
      exact absurd (List.mem_takeWhile_imp (hinside.mem hreturn)) (by decide)
    · -- One lexeme covers the directive, and it cannot be both.
      rintro ⟨l', hl', hstretch, hcovers'⟩
      obtain rfl := eq_of_covers hlex hl' ⟨hstart, hcovers⟩ hcovers'
      rw [hkind] at hstretch
      cases hstretch
  · rintro ⟨hreturn, hnone⟩
    obtain ⟨l, hl, hstart, hcovers⟩ := h.exists_covers
    have hkind : l.kind.isStretch = false :=
      Bool.eq_false_iff.mpr fun hstretch => hnone ⟨l, hl, hstretch, hstart, hcovers⟩
    obtain ⟨after, hcomment, htext, hend⟩ := h.comment_of_covers hl hstart hcovers hkind
    -- With no line end in it the directive is covered to its end.
    have hline : ∀ c ∈ d.written, staysOnLine c = true := by
      intro c hc
      have hnewline : '\n' ∉ d.written := fun hmem =>
        h.onOneLine (List.mem_append_right indent hmem)
      simp only [staysOnLine, Bool.and_eq_true, bne_iff_ne]
      exact ⟨fun heq => hreturn (heq ▸ hc), fun heq => hnewline (heq ▸ hc)⟩
    refine ⟨⟨.comment, String.ofList l.text, l.start, l.stop⟩,
      List.mem_map.mpr ⟨l, List.mem_filter.mpr ⟨hl, beq_iff_eq.mpr hcomment⟩, rfl⟩, hstart, ?_⟩
    show _ ≤ l.stop
    rw [hend, htext, List.takeWhile_append_of_pos hline, byteLen_append d.written]
    exact Nat.add_le_add_left (Nat.le_add_right _ _) _

/-- A script names the path of its first directive. This directive is in a
comment, unless there is a `\r` in it or a string or reference around it. -/
theorem rootPath?_and_inComment_iff (text : List Char) :
    (∀ path, rootPath? text = some path ↔
      ∃ (d : Directive) (before indent : List Char), d.StandsIn text before indent
        ∧ d.path = path)
    ∧ ∀ (d : Directive) (before indent : List Char), d.StandsIn text before indent →
      (d.InComment text before indent ↔
        '\r' ∉ d.written ∧ ¬ InStretch text (byteLen (before ++ indent))) :=
  ⟨fun _ => rootPath?_eq_some_iff, fun _ _ _ h => h.inComment_iff⟩

/-- A directive after a statement. -/
theorem inComment_after_statement :
    let text := "Module A;\n  // <rhetosProjectRootPath=\"/work\" />\n".toList
    rootPath? text = some ⟨"/work"⟩ ∧ ∃ (d : Directive) (before indent : List Char),
      d.StandsIn text before indent ∧ d.path = ⟨"/work"⟩ ∧ d.InComment text before indent := by
  intro text
  let d : Directive := ⟨[' '], "/work".toList, [' '], List.forall_mem_singleton.mpr rfl,
    by decide, by decide, List.forall_mem_singleton.mpr rfl⟩
  let before := "Module A;\n".toList
  have hstands : d.StandsIn text before [' ', ' '] :=
    ⟨⟨['\n'], rfl⟩, List.forall_mem_cons.mpr ⟨rfl, List.forall_mem_singleton.mpr rfl⟩,
      by decide, endsLine_newline "Module A;".toList, rfl⟩
  obtain ⟨hfirst, hexact⟩ := rootPath?_and_inComment_iff text
  have hpath : rootPath? text = some ⟨"/work"⟩ := (hfirst _).mpr ⟨d, before, _, hstands, rfl⟩
  have hinside : d.InComment text before [' ', ' '] :=
    (hexact d before _ hstands).mpr ⟨by decide, by unfold InStretch; decide +kernel⟩
  exact ⟨hpath, d, before, _, hstands, rfl, hinside⟩

/-- A string of three lines, the second of which has the form of a directive.
There is no comment, and the script names the path. -/
theorem rootPath?_in_string :
    let text := "Module 'a\n// <rhetosProjectRootPath=\"/x\" />\n';".toList
    rootPath? text = some ⟨"/x"⟩ ∧ comments text = []
      ∧ (lex text).map (·.kind) = [.word, .quoted .single true, .special] := by
  decide +kernel

end ConceptScript.Project

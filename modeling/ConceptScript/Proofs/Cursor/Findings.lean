import ConceptScript.Proofs.Cursor.TextRead
import ConceptScript.Proofs.Script.InModel
import ConceptScript.Proofs.Script.LexemeEnds

/-!
# `ConceptScript.Proofs.Cursor.Findings`: what an analysis reports

An analysis reports one thing or nothing. `Reports` says by the lexemes of
the text what it is and which tokens are kept: a crash of whoever reads the
external texts, or else the fault of the first lexeme that has one, or else
the failure of the parser.

An analysis always has a result. Where a step has no answer of its own for
some input, a default stands in: the text for a failed cut, an empty type
for an unknown id, an end of script past the last token. `Unfailing` says
that no step meets such an input: nothing is cut through a character, no
place is past the tokens, no id is outside of the model, and references do
not come to the bound on their depth.

`analyze_reports` is both of these together.
-/

set_option autoImplicit false

namespace ConceptScript.Cursor

open ConceptScript.Text
open ConceptScript.Script
open ConceptScript.Files (FilePath)

/-- The tokens that an analysis of a script keeps, and what it reports. -/
inductive Reports (m : Model) (texts : ExternalTexts) (source : Source) :
    List Token → List Finding → Prop
  /-- Asking for an external text crashed. The tokens before it have no end. -/
  | crash {before after : List Lexeme} {l : Lexeme} {path : List Char} {message : String}
      {ts : List Token} (lexemes : lex source.text = before ++ l :: after)
      (tokens : List.Forall₂ (Token.StandsFor texts source) ts (before.filter (!·.isComment)))
      (isReference : l.kind = .reference true) (written : l.text = '<' :: path ++ ['>'])
      (crashes : texts source (String.ofList path) = .crash message) :
      Reports m texts source ts [.ofCrash message]
  /-- A lexeme has a fault. -/
  | fault {before after : List Lexeme} {l : Lexeme} {e : SyntaxError} {ts : List Token}
      (lexemes : lex source.text = before ++ l :: after)
      (tokens : List.Forall₂ (Token.StandsFor texts source) ts (before.filter (!·.isComment)))
      (stops : convert texts source l = .stopped (.faulty e)) :
      Reports m texts source (ts ++ [.endAt (byteLen source.text)]) [.ofSyntaxError e]
  /-- There are tokens for all lexemes, and they cannot be parsed. -/
  | failure {f : Failure} {ts : List Token}
      (tokens : List.Forall₂ (Token.StandsFor texts source) ts
        ((lex source.text).filter (!·.isComment)))
      (fails : (parse m (ts ++ [.endAt (byteLen source.text)])).result = .error f) :
      Reports m texts source (ts ++ [.endAt (byteLen source.text)])
        [.ofSyntaxError (f.inText source.text (ts ++ [.endAt (byteLen source.text)]))]
  /-- There are tokens for all lexemes, and they are concepts. -/
  | nothing {nodes : List Node} {ts : List Token}
      (tokens : List.Forall₂ (Token.StandsFor texts source) ts
        ((lex source.text).filter (!·.isComment)))
      (parses : (parse m (ts ++ [.endAt (byteLen source.text)])).result = .ok nodes) :
      Reports m texts source (ts ++ [.endAt (byteLen source.text)]) []

variable {m : Model} {texts : ExternalTexts} {source : Source} {tokens : List Token}
  {findings : List Finding}

/-! ### One report for each script -/

/-- The stream of a text whose lexemes stop at one. -/
theorem convertAll_of_stopped {before : List Lexeme} {l : Lexeme} {ts : List Token}
    {ending : StreamEnd}
    (htokens : List.Forall₂ (Token.StandsFor texts source) ts (before.filter (!·.isComment)))
    (hstops : convert texts source l = .stopped ending) (after : List Lexeme) :
    convertAll texts source (before ++ l :: after) = (ts, ending) := by
  rw [convertAll_append_of_standsFor htokens, convertAll, hstops, List.append_nil]

/-- The stream of a text whose lexemes all have tokens. -/
theorem tokenize_of_standsFor {ts : List Token}
    (htokens : List.Forall₂ (Token.StandsFor texts source) ts
      ((lex source.text).filter (!·.isComment))) :
    tokenize texts source = ⟨ts ++ [.endAt (byteLen source.text)], .complete⟩ := by
  have happend := convertAll_append_of_standsFor htokens []
  rw [List.append_nil, convertAll, List.append_nil] at happend
  rw [tokenize, happend]

/-- What is kept and reported by the rules is what the analysis keeps and
reports. -/
theorem Reports.eq (h : Reports m texts source tokens findings) :
    tokens = (tokenize texts source).tokens ∧ findings = reported m texts source := by
  cases h with
  | @crash before after l path message _ lexemes htokens isReference written crashes =>
    have hstops : convert texts source l = .stopped (.crashed message) := by
      rw [convert, isReference, written, withoutEnds_delimited]
      dsimp only
      rw [crashes]
    have hstream : tokenize texts source = ⟨tokens, .crashed message⟩ := by
      rw [tokenize, lexemes, convertAll_of_stopped htokens hstops after]
    rw [reported, hstream]
    exact ⟨rfl, rfl⟩
  | @fault before after l e ts lexemes htokens stops =>
    have hstream : tokenize texts source
        = ⟨ts ++ [.endAt (byteLen source.text)], .faulty e⟩ := by
      rw [tokenize, lexemes, convertAll_of_stopped htokens stops after]
    rw [reported, hstream]
    exact ⟨rfl, rfl⟩
  | failure htokens fails =>
    -- Where all lexemes are converted, the parser has the last word.
    have hstream := tokenize_of_standsFor htokens
    rw [reported, faultOf, hstream]
    dsimp only [TokenStream.error]
    rw [fails]
    exact ⟨rfl, rfl⟩
  | nothing htokens parses =>
    have hstream := tokenize_of_standsFor htokens
    rw [reported, faultOf, hstream]
    dsimp only [TokenStream.error]
    rw [parses]
    exact ⟨rfl, rfl⟩

/-- There is a rule for every script. -/
theorem reports_of_tokenize (m : Model) (texts : ExternalTexts) (source : Source) :
    Reports m texts source (tokenize texts source).tokens (reported m texts source) := by
  obtain ⟨before, after, hlexemes, htokens, hending⟩ :=
    convertAll_split texts source (lex source.text)
  -- Since any rule tells what the analysis keeps and reports, it is enough that one applies.
  suffices h : ∃ tokens findings, Reports m texts source tokens findings by
    obtain ⟨tokens, findings, h⟩ := h
    obtain ⟨rfl, rfl⟩ := h.eq
    exact h
  rcases hending with ⟨_, rfl⟩ | ⟨l, rest, rfl, hstops⟩
  · rw [List.append_nil] at hlexemes
    rw [← hlexemes] at htokens
    cases hparse : (parse m (_ ++ [.endAt (byteLen source.text)])).result with
    | error f => exact ⟨_, _, .failure htokens hparse⟩
    | ok nodes => exact ⟨_, _, .nothing htokens hparse⟩
  · cases hend : (convertAll texts source (lex source.text)).2 with
    | complete => exact absurd hend (ending_ne_complete_of_convert hstops)
    | faulty e => exact ⟨_, _, .fault hlexemes htokens (hend ▸ hstops)⟩
    | crashed message =>
      obtain ⟨hkind, hcrash⟩ := crash_of_convert (hend ▸ hstops)
      have hdelimited := delimited_of_mem_lex
        (hlexemes ▸ List.mem_append_right before List.mem_cons_self : l ∈ lex source.text)
      rw [Lexeme.Delimited, hkind] at hdelimited
      obtain ⟨path, hpath⟩ := hdelimited
      rw [hpath, withoutEnds_delimited] at hcrash
      exact ⟨_, _, .crash hlexemes htokens hkind hpath hcrash⟩

/-- What an analysis keeps and reports is what reading its text gives: the
tokens, and the crash or else the fault. -/
theorem reports_iff : Reports m texts source tokens findings
    ↔ tokens = (tokenize texts source).tokens ∧ findings = reported m texts source := by
  refine ⟨Reports.eq, ?_⟩
  rintro ⟨rfl, rfl⟩
  exact reports_of_tokenize m texts source

/-- At most one finding is reported. -/
theorem Reports.length_le (h : Reports m texts source tokens findings) :
    findings.length ≤ 1 := by
  cases h with
  | crash _ _ _ _ _ => exact Nat.le_refl 1
  | fault _ _ _ => exact Nat.le_refl 1
  | failure _ _ => exact Nat.le_refl 1
  | nothing _ _ => exact Nat.zero_le 1

/-- A syntax error never has the code of a crash. -/
theorem ofSyntaxError_ne_ofCrash (e : SyntaxError) (message : String) :
    Finding.ofSyntaxError e ≠ .ofCrash message := by
  intro h
  have hcode : some e.fault.code = some .e0999 := congrArg Finding.code h
  cases hfault : e.fault <;> rw [hfault] at hcode <;> cases hcode

/-- The tokens have an end unless reading crashed. -/
theorem Reports.exists_isEnd_iff (h : Reports m texts source tokens findings) :
    (∃ t ∈ tokens, t.isEnd = true) ↔ ∀ message, findings ≠ [.ofCrash message] := by
  have hend : ∀ ts : List Token, ∃ t ∈ ts ++ [.endAt (byteLen source.text)], t.isEnd = true :=
    fun ts => ⟨_, List.mem_append_right ts List.mem_cons_self, rfl⟩
  cases h with
  | @crash _ _ _ _ message _ _ htokens _ _ _ =>
    constructor
    · rintro ⟨t, ht, hisEnd⟩
      obtain ⟨l, hl, hstands⟩ := forall₂_exists_of_mem htokens ht
      have hother : l.isComment = false := by simpa using (List.mem_filter.mp hl).2
      rw [(keeps_of_convert (hstands.other hother)).isEnd] at hisEnd
      cases hisEnd
    · exact fun hnot => absurd rfl (hnot message)
  | fault _ _ _ =>
    exact ⟨fun _ message heq => ofSyntaxError_ne_ofCrash _ message (List.cons.inj heq).1,
      fun _ => hend _⟩
  | failure _ _ =>
    exact ⟨fun _ message heq => ofSyntaxError_ne_ofCrash _ message (List.cons.inj heq).1,
      fun _ => hend _⟩
  | nothing _ _ => exact ⟨fun _ message heq => (by cases heq), fun _ => hend _⟩

/-- Nothing is reported just if the text is cut into tokens to its end and
these are parsed. -/
theorem reported_eq_nil_iff : reported m texts source = []
    ↔ (tokenize texts source).ending = .complete
      ∧ ∃ nodes, (parse m (tokenize texts source).tokens).result = .ok nodes := by
  rw [reported, faultOf, TokenStream.error]
  cases (tokenize texts source).ending with
  | crashed message => simp
  | faulty e => simp
  | complete => cases (parse m (tokenize texts source).tokens).result <;> simp

/-! ### Nothing fails -/

/-- No step of an analysis meets an input that it has no answer of its own
for. -/
structure Unfailing (m : Model) (fullText : List Char) (position : Option LineChr)
    (a : Analysis) : Prop where
  /-- The text can be cut where the line of the cursor ends. -/
  cut : ∀ p, position = some p → truncateAtLineEnd fullText (offsetOf fullText p) = some a.text
  /-- The cursor and the ends of comments, of which the lines are compared,
  are between characters. -/
  target : Settled a.text a.target
  comments : ∀ c ∈ a.comments, Settled a.text c.stop
  /-- Lexemes are stretches of the text, and what is taken off their ends is
  there. -/
  lexemes : ∀ l ∈ lex a.text, l.IsSlice 0 a.text ∧ l.Delimited
  /-- What types refer to are types. -/
  types : Model.Linked m.types
  bases : ∀ c ∈ m.types, ∀ base ∈ c.baseTypes, base < m.types.length
  /-- If the tokens have an end they are parsed. All readers that the parser
  goes through and shows to the tracker are on these tokens, and so is its
  failure. No reference is too deep, and all concepts are of types of the
  model. -/
  parses : ∀ last ∈ a.tokens.getLast?, last.isEnd = true →
    (∀ e ∈ (parse m a.tokens).events, e.Sound m (Reader.On a.tokens)
      (fun why => ∀ typeName, why ≠ .endlessReference typeName) (Node.InModel m))
    ∧ SoundResult m (Reader.On a.tokens)
      (fun why => ∀ typeName, why ≠ .endlessReference typeName) (Node.InModel m)
      (fun nodes => ∀ n ∈ nodes, n.InModel m) (parse m a.tokens).result

/-- A comment does not end between a `\r` and its `\n`. -/
theorem settled_of_mem_comments {text : List Char} {c : Token} (h : c ∈ comments text) :
    Settled text c.stop := by
  obtain ⟨l, hl, rfl⟩ := List.mem_map.mp h
  exact (settled_of_mem_lex (List.mem_of_mem_filter hl)).2

/-- With an accepted model no step of an analysis lacks an answer. Positions
and offsets come from the text itself, so every cut is between characters. -/
theorem unfailing_analyze (hm : m.Accepted) (texts : ExternalTexts) (path : Option FilePath)
    (fullText : List Char) (position : Option LineChr) :
    Unfailing m fullText position (analyze m texts path fullText position) where
  cut := by
    rintro p rfl
    rw [analyze_text, textToRead_some]
    exact truncateAtLineEnd_offsetOf fullText p
  target := by
    rw [analyze_text, analyze_target]
    exact settled_targetIn _ position
  comments := by
    rw [analyze_text, analyze_comments]
    exact fun _ => settled_of_mem_comments
  lexemes l hl := ⟨(tiles_lex _).isSlice l hl, delimited_of_mem_lex hl⟩
  types := hm.linked
  bases _ hc _ := hm.base_lt hc
  parses := by
    intro last hlast hisEnd
    obtain ⟨body, htokens⟩ := List.getLast?_eq_some_iff.mp hlast
    rw [htokens]
    exact (upheld_of_accepted hm (body ++ [last])).parse (Reader.on_ofTokens hisEnd)

/-- An analysis always has a result, with one finding or none. The rules
tell which, and which tokens are kept. These end unless reading crashed. A
whole script is reported for nothing if and only if it has tokens for all
its lexemes and they are concepts. -/
theorem analyze_reports (hm : m.Accepted) (texts : ExternalTexts) (path : Option FilePath)
    (fullText : List Char) (position : Option LineChr) :
    let a := analyze m texts path fullText position
    a.completed = true
      ∧ (∀ tokens findings, Reports m texts ⟨"document", path, a.text⟩ tokens findings
        ↔ tokens = a.tokens ∧ findings = a.findings)
      ∧ a.findings.length ≤ 1
      ∧ ((∃ t ∈ a.tokens, t.isEnd = true) ↔ ∀ message, a.findings ≠ [.ofCrash message])
      ∧ (position = none → (a.findings = []
        ↔ (tokenize texts ⟨"document", path, fullText⟩).ending = .complete
          ∧ ∃ nodes, (parse m a.tokens).result = .ok nodes))
      ∧ Unfailing m fullText position a := by
  intro a
  have hrules : ∀ tokens findings, Reports m texts ⟨"document", path, a.text⟩ tokens findings
      ↔ tokens = a.tokens ∧ findings = a.findings := by
    intro tokens findings
    rw [analyze_text, analyze_tokens, analyze_findings]
    exact reports_iff
  have hreports := (hrules a.tokens a.findings).mpr ⟨rfl, rfl⟩
  refine ⟨analyze_completed m texts path fullText position, hrules, hreports.length_le,
    hreports.exists_isEnd_iff, ?_, unfailing_analyze hm texts path fullText position⟩
  rintro rfl
  rw [show a.findings = _ from analyze_findings m texts path fullText none,
    show a.tokens = _ from analyze_tokens m texts path fullText none]
  exact reported_eq_nil_iff

/-- Asking for the text that is the name of a module crashes. The keyword is
kept. -/
theorem analyze_reports_crash :
    let texts : ExternalTexts := fun _ path =>
      if path = "name" then .crash "lost" else .content "A"
    let a := analyze moduleModel texts none "Module <name>;".toList none
    a.completed = true ∧ a.tokens = [⟨.word, "Module", 0, 6⟩] ∧ a.findings = [.ofCrash "lost"] := by
  intro texts a
  obtain ⟨hcompleted, hrules, _⟩ :=
    analyze_reports accepted_moduleModel texts none "Module <name>;".toList none
  have htext : (analyze moduleModel texts none "Module <name>;".toList none).text
      = "Module <name>;".toList := analyze_text ..
  rw [htext] at hrules
  have hlex : lex "Module <name>;".toList = [⟨.word, "Module".toList, 0, 6⟩]
      ++ ⟨.reference true, '<' :: "name".toList ++ ['>'], 7, 13⟩ :: [⟨.special, [';'], 13, 14⟩] := by
    decide +kernel
  have hword : Token.StandsFor texts ⟨"document", none, "Module <name>;".toList⟩
      ⟨.word, "Module", 0, 6⟩ ⟨.word, "Module".toList, 0, 6⟩ := .of_convert rfl
  obtain ⟨htokens, hfindings⟩ := (hrules _ _).mp
    (.crash hlex (.cons hword .nil) rfl rfl (if_pos rfl))
  exact ⟨hcompleted, htokens.symm, hfindings.symm⟩

end ConceptScript.Cursor

import ConceptScript.Assist.Completion
import ConceptScript.Proofs.Cursor.TextRead
import ConceptScript.Proofs.Script.Derivation
import ConceptScript.Proofs.Script.LexLineEnds

/-!
# `ConceptScript.Proofs.Cursor.LineEnds`: line ends do not matter to an analysis

An unbroken script is analysed as it is, and with `\r\n` in place of `\n`.
A cursor has a moved offset in the second script, and so has each token. A
tracker only compares offsets, so it goes the same way
(`follow_moved`), and the second analysis is the first one at moved offsets
(`analyze_crlf`).

Those who ask for an analysis see no offsets but places. So to them both
are the same: `SeenAlike` lists what there is to be seen.
-/

set_option autoImplicit false

namespace ConceptScript.Cursor

open ConceptScript.Text
open ConceptScript.Script
open ConceptScript.Files (FilePath)
open ConceptScript.Model (TypeId)

variable (s : Shift)

/-! ### Trackers -/

/-- What was read last of moved tokens. -/
def LastRead.moved (last : LastRead) : LastRead := { last with token := last.token.moved s }

/-- What is kept about types on moved tokens. -/
def movedReads (reads : List (TypeId × LastRead)) : List (TypeId × LastRead) :=
  reads.map (Prod.map id (·.moved s))

namespace Tracker

/-- A tracker on moved tokens. -/
def moved (k : Tracker) : Tracker where
  target := s.move k.target
  lastBefore := k.lastBefore
  keyword := k.keyword.map (·.moved s)
  nextKeyword := k.nextKeyword.map (·.moved s)
  context := k.context
  lastRead := movedReads s k.lastRead
  valid := k.valid

variable (k : Tracker)

/-- The last member with a property in a list that is mapped is the last one
that is mapped to such a member. -/
theorem lastIndex?_map {α β : Type} (p : β → Bool) (f : α → β) (l : List α) :
    lastIndex? p (l.map f) = lastIndex? (p ∘ f) l := by
  induction l with
  | nil => rfl
  | cons a rest ih => rw [List.map_cons, lastIndex?, lastIndex?, ih]; rfl

/-- A tracker starts on moved tokens as on the tokens, because a shift keeps
what is before the cursor. -/
theorem start_moved (tokens : List Token) (target : Nat) :
    start (tokens.map (·.moved s)) (s.move target) = (start tokens target).moved s := by
  have hbefore : ((fun t : Token => !t.isEnd && decide (t.start < s.move target)) ∘ Token.moved s)
      = fun t : Token => !t.isEnd && decide (t.start < target) := by
    funext t
    simp [Token.moved, s.lt_iff, Token.isEnd]
  rw [start, lastIndex?_map, hbefore]
  rfl

/-- The start of a statement does the same to a moved tracker. -/
theorem onStatement_moved (r : Reader) :
    (k.moved s).onStatement (r.moved s) = (k.onStatement r).moved s := by
  have hstart : (r.current.moved s).start ≤ (k.moved s).target ↔ r.current.start ≤ k.target := s.le_iff
  have hstop : (r.current.moved s).stop < (k.moved s).target ↔ r.current.stop < k.target := s.lt_iff
  unfold onStatement
  simp only [Reader.moved_current, hstart, hstop, Token.moved_kind]
  split
  · split
    · rfl
    · split <;> rfl
  · cases hnext : k.nextKeyword <;> simp [moved, hnext]

/-- What is put in for a type is moved with what is there. -/
theorem putLast_moved (type : TypeId) (last : LastRead) (reads : List (TypeId × LastRead)) :
    putLast type (last.moved s) (movedReads s reads) = movedReads s (putLast type last reads) := by
  induction reads with
  | nil => rfl
  | cons first rest ih =>
    obtain ⟨key, value⟩ := first
    show putLast type _ ((key, value.moved s) :: movedReads s rest) = _
    rw [putLast, putLast, ih]
    split <;> rfl

/-- An attempt does the same to a moved tracker. -/
theorem onMember_moved (e : MemberEvent) :
    (k.moved s).onMember (e.moved s) = (k.onMember e).moved s := by
  have hnext : (k.moved s).nextKeyword = k.nextKeyword.map (·.moved s) := rfl
  have hbefore : (e.moved s).reader.before = e.reader.before.map (·.moved s) := rfl
  have hlast : (k.moved s).lastBefore = k.lastBefore := rfl
  unfold onMember
  rw [hnext, hbefore, hlast]
  cases k.nextKeyword with
  | some next => rfl
  | none =>
    cases k.lastBefore with
    | none => rfl
    | some lastBefore =>
      cases e.reader.before with
      | nil => rfl
      | cons token earlier =>
        -- How many tokens were read is the same, and so is whether the attempt failed.
        simp only [Option.map_none, List.map_cons, List.length_map]
        cases hvalue : e.value with
        | error why =>
          simp only [MemberEvent.moved, hvalue, mapError_error]
          split <;> rfl
        | ok slot =>
          simp only [MemberEvent.moved, hvalue, mapError_ok]
          have hput : putLast e.type ⟨token.moved s, e.index⟩ (k.moved s).lastRead
              = movedReads s (putLast e.type ⟨token, e.index⟩ k.lastRead) :=
            putLast_moved s e.type ⟨token, e.index⟩ k.lastRead
          by_cases hread : earlier.length ≤ lastBefore
          · simp only [hread, if_true, hput]
            split <;> rfl
          · simp only [hread, if_false]
            split <;> rfl

/-- A brace does the same to a moved tracker. -/
theorem onBlock_moved (r : Reader) (context : List Node) :
    (k.moved s).onBlock (r.moved s) context = (k.onBlock r context).moved s := by
  unfold onBlock
  rw [Reader.moved_last?]
  cases r.last? with
  | none => rfl
  | some brace =>
    have hstop : (brace.moved s).stop ≤ (k.moved s).target ↔ brace.stop ≤ k.target := s.le_iff
    simp only [Option.map_some, hstop]
    split <;> rfl

/-- Moved events do to a moved tracker what the events do to the tracker.
Induction on the events. -/
theorem follow_moved (events : List Event) :
    (k.moved s).follow (events.map (·.moved s)) = (k.follow events).moved s := by
  induction events generalizing k with
  | nil => rfl
  | cons e rest ih =>
    have hwatch : (k.moved s).watch (e.moved s) = (k.watch e).moved s := by
      cases e with
      | statement r => exact onStatement_moved s k r
      | member e => exact onMember_moved s k e
      | block r context opening => exact onBlock_moved s k r context
    show ((k.moved s).watch (e.moved s)).follow _ = _
    rw [hwatch]
    exact ih (k.watch e)

end Tracker

/-- Moved tokens say the same about a moved cursor. -/
theorem track_moved (m : Model) (tokens : List Token) (target : Nat) :
    track m (tokens.map (·.moved s)) (s.move target) = (track m tokens target).moved s := by
  rw [track, Tracker.start_moved, parse_moved]
  exact Tracker.follow_moved s _ _

/-! ### Analyses -/

/-- Which words are no keywords does not depend on where they stand. -/
theorem otherWords_moved (m : Model) (tokens : List Token) :
    otherWords m (tokens.map (·.moved s)) = otherWords m tokens := by
  rw [otherWords, List.filterMap_map]
  rfl

/-- A finding tells places, and these stay with longer line ends. -/
theorem ofSyntaxError_moved (e : SyntaxError) :
    Finding.ofSyntaxError (e.moved s) = Finding.ofSyntaxError e := by
  simp [Finding.ofSyntaxError, SyntaxError.moved]

/-- The text that is read at a cursor has longer line ends with the whole. -/
theorem textToRead_crlf (text : List Char) (position : Option LineChr) :
    textToRead (crlf text) position = crlf (textToRead text position) := by
  cases position with
  | none => rfl
  | some p => rw [textToRead_some, textToRead_some, throughLine_crlf]

/-- A position is at the offset that its old offset is moved to. -/
theorem targetIn_crlf {text : List Char} (hreturn : '\r' ∉ text) (position : Option LineChr) :
    targetIn (crlf text) position = (crlfShift text).move (targetIn text position) := by
  cases position with
  | none => exact (crlfShift text).zero.symm
  | some p => exact offsetOf_crlf hreturn p

/-- What is read at a cursor of an unbroken text is unbroken. -/
theorem unbroken_textToRead {text : List Char} (h : Unbroken text) (position : Option LineChr) :
    Unbroken (textToRead text position) := by
  obtain ⟨rest, hrest, hcut⟩ := textToRead_lines text position
  exact (hrest ▸ h : Unbroken (textToRead text position ++ rest)).of_append hcut

variable {text : List Char}

/-- Longer line ends do not change what is in a comment. -/
theorem inComment_crlf (hreturn : '\r' ∉ text) (comments : List Token) (target : Nat) :
    inComment (crlf text) (comments.map (·.moved (crlfShift text)))
        ((crlfShift text).move target)
      = inComment text comments target := by
  -- A shift keeps the order of offsets, so the same comments are around the cursor and before it.
  have hinside : (comments.map (·.moved (crlfShift text))).any
        (fun c => c.start < (crlfShift text).move target && (crlfShift text).move target < c.stop)
      = comments.any fun c => c.start < target && target < c.stop := by
    rw [List.any_map]
    congr 1
    funext c
    simp [Token.moved, (crlfShift text).lt_iff]
  have hbefore : (comments.map (·.moved (crlfShift text))).filter
        (·.stop ≤ (crlfShift text).move target)
      = (comments.filter (·.stop ≤ target)).map (·.moved (crlfShift text)) := by
    rw [List.filter_map]
    congr 2
    funext c
    simp [Token.moved, (crlfShift text).le_iff]
  rw [inComment, inComment, hinside, hbefore, List.getLast?_map, lineChrOf_crlf hreturn]
  cases (comments.filter (·.stop ≤ target)).getLast? with
  | none => rfl
  | some c =>
    show (_ || (lineChrOf (crlf text) ((crlfShift text).move c.stop)).line == _) = _
    rw [lineChrOf_crlf hreturn]

/-- What is found wrong with a script is the same with longer line ends, but
for the offsets. Its places are counted in the text that is read. -/
theorem faultOf_crlf (m : Model) (hreturn : '\r' ∉ text) (stream : TokenStream) :
    faultOf m (crlf text) (stream.moved (crlfShift text))
      = (faultOf m text stream).map (·.moved (crlfShift text)) := by
  have hfailure : ∀ failure : Failure,
      (failure.moved (crlfShift text)).inText (crlf text)
          (stream.tokens.map (·.moved (crlfShift text)))
        = (failure.inText text stream.tokens).moved (crlfShift text) := by
    intro failure
    have hfirst : Token.endAt 0 = (Token.endAt 0).moved (crlfShift text) := by
      rw [Token.moved_endAt, (crlfShift text).zero]
    have htoken : (stream.tokens.map (·.moved (crlfShift text))).getD failure.index (.endAt 0)
        = (stream.tokens.getD failure.index (.endAt 0)).moved (crlfShift text) := by
      rw [List.getD_eq_getElem?_getD, List.getD_eq_getElem?_getD, List.getElem?_map]
      cases stream.tokens[failure.index]? with
      | none => exact hfirst
      | some t => rfl
    rw [Failure.inText, Failure.inText]
    dsimp only [Failure.moved]
    rw [htoken]
    exact inText_crlf hreturn _ _ _
  rw [faultOf, faultOf, TokenStream.error_moved]
  cases stream.error with
  | some e => rfl
  | none =>
    have hparse : parse m (stream.moved (crlfShift text)).tokens
        = (parse m stream.tokens).moved (crlfShift text) := parse_moved m stream.tokens
    simp only [Option.map_none, hparse, Parse.moved]
    cases (parse m stream.tokens).result with
    | ok nodes => rfl
    | error failure => exact congrArg some (hfailure failure)

namespace Analysis

/-- An analysis of a script with longer line ends. -/
def withLongerEnds (a : Analysis) : Analysis :=
  let s := crlfShift a.text
  { a with
    text := crlf a.text
    target := s.move a.target
    tokens := a.tokens.map (·.moved s)
    comments := a.comments.map (·.moved s)
    keyword := a.keyword.map (·.moved s)
    nextKeyword := a.nextKeyword.map (·.moved s)
    lastRead := movedReads s a.lastRead }

end Analysis

/-- An analysis of a text with longer line ends is the one of the text with
longer line ends put in. No string may go on over a line end, or its text
would change. -/
theorem analyze_withLongerEnds (m : Model) {texts : ExternalTexts} (hignores : IgnoresText texts)
    (path : Option FilePath) (h : Unbroken text) (position : Option LineChr) :
    analyze m texts path (crlf text) position
      = (analyze m texts path text position).withLongerEnds := by
  have hread := unbroken_textToRead h position
  have hstream := tokenize_crlf hignores hread "document" path
  have hcomment := inComment_crlf hread.noReturn (comments (textToRead text position))
    (targetIn (textToRead text position) position)
  -- A comment hides the keyword before moving or after.
  have hkeyword : ∀ (hidden : Bool) (keyword : Option Token),
      (if hidden then none else keyword.map (·.moved (crlfShift (textToRead text position))))
        = (if hidden then none else keyword).map
          (·.moved (crlfShift (textToRead text position))) := by
    intro hidden keyword
    cases hidden <;> rfl
  unfold analyze
  simp only [textToRead_crlf, targetIn_crlf hread.noReturn, hstream, comments_crlf hread, hcomment,
    faultOf_crlf m hread.noReturn, Option.map_map, Function.comp_def, ofSyntaxError_moved]
  cases hending : (tokenize texts ⟨"document", path, textToRead text position⟩).ending with
  | crashed message =>
    simp only [TokenStream.moved, hending, StreamEnd.moved]
    rfl
  | _ =>
    simp only [TokenStream.moved, hending, StreamEnd.moved, track_moved, otherWords_moved,
      Tracker.moved, hkeyword]
    rfl

/-! ### What is seen -/

/-- A token as it is seen in a text: its kind and value, and the places
where it starts and stops. -/
def placed (text : List Char) (t : Token) : TokenKind × String × Span :=
  (t.kind, t.value, ⟨lineChrOf text t.start, lineChrOf text t.stop⟩)

/-- Two analyses that say the same to those who ask for them, in places and
not in offsets. -/
structure SeenAlike (m : Model) (a b : Analysis) : Prop where
  keyword : b.keyword.map (placed b.text) = a.keyword.map (placed a.text)
  nextKeyword : b.nextKeyword.map (placed b.text) = a.nextKeyword.map (placed a.text)
  context : b.context = a.context
  insideComment : b.insideComment = a.insideComment
  valid : b.valid = a.valid
  activeParameter : ∀ type, b.activeParameter m type = a.activeParameter m type
  words : b.words = a.words
  completionWords : Assist.completionWords m b = Assist.completionWords m a
  findings : b.findings = a.findings

/-- A moved token is seen at the same places. -/
theorem placed_moved (hreturn : '\r' ∉ text) (t : Token) :
    placed (crlf text) (t.moved (crlfShift text)) = placed text t := by
  rw [placed, Token.moved, lineChrOf_crlf hreturn, lineChrOf_crlf hreturn]
  rfl

/-- A moved token touches a moved offset just if the token touches the
offset. -/
theorem touches_moved (t : Token) (offset : Nat) :
    (t.moved s).touches (s.move offset) = t.touches offset := by
  simp [Token.touches, Token.moved, s.le_iff]

/-- What is kept for a type is found among what was moved, and is moved. -/
theorem lookup_movedReads (type : TypeId) (reads : List (TypeId × LastRead)) :
    (movedReads s reads).lookup type = (reads.lookup type).map (·.moved s) := by
  induction reads with
  | nil => rfl
  | cons first rest ih =>
    obtain ⟨key, value⟩ := first
    show ((key, value.moved s) :: movedReads s rest).lookup type = _
    rw [List.lookup_cons, List.lookup_cons, ih]
    split <;> rfl

/-- Longer line ends cannot be seen. -/
theorem seenAlike_withLongerEnds (m : Model) (a : Analysis) (hreturn : '\r' ∉ a.text) :
    SeenAlike m a a.withLongerEnds := by
  have hplaced : ∀ t : Option Token, (t.map (·.moved (crlfShift a.text))).map
      (placed (crlf a.text)) = t.map (placed a.text) := by
    intro t
    cases t with
    | none => rfl
    | some t => exact congrArg some (placed_moved hreturn t)
  have honKeyword : a.withLongerEnds.onKeyword = a.onKeyword := by
    show (a.keyword.map _).any _ = _
    cases hkeyword : a.keyword with
    | none => rw [Analysis.onKeyword, hkeyword]; rfl
    | some t =>
      rw [Analysis.onKeyword, hkeyword]
      exact touches_moved _ t a.target
  -- Tokens are seen at their places, and all else but two of the observables is the same.
  refine ⟨hplaced a.keyword, hplaced a.nextKeyword, rfl, rfl, rfl, fun type => ?_, rfl, ?_, rfl⟩
  · have hread : a.withLongerEnds.lastRead.lookup type
        = (a.lastRead.lookup type).map (·.moved (crlfShift a.text)) := lookup_movedReads _ type _
    rw [Analysis.activeParameter, Analysis.activeParameter, hread]
    cases a.lastRead.lookup type with
    | none => rfl
    | some last =>
      have htouches : (last.token.moved (crlfShift a.text)).touches a.withLongerEnds.target
          = last.token.touches a.target := touches_moved _ last.token a.target
      simp only [Option.map_some, LastRead.moved, Token.moved_value, htouches]
  · have hblocked : a.withLongerEnds.isBlocked = a.isBlocked := by
      simp [Analysis.isBlocked, Analysis.withLongerEnds]
    have hkeyword : a.withLongerEnds.keyword.isSome = a.keyword.isSome := Option.isSome_map
    rw [Assist.completionWords, Assist.completionWords, hblocked, honKeyword, hkeyword]
    rfl

/-- Line ends do not matter: an unbroken script with `\r\n` in place of
`\n` is seen alike at every place, and as a whole. -/
theorem analyze_crlf (m : Model) {texts : ExternalTexts} (hignores : IgnoresText texts)
    (path : Option FilePath) (h : Unbroken text) (position : Option LineChr) :
    SeenAlike m (analyze m texts path text position)
      (analyze m texts path (crlf text) position) := by
  have hreturn : '\r' ∉ (analyze m texts path text position).text := by
    rw [analyze_text]
    exact (unbroken_textToRead h position).noReturn
  rw [analyze_withLongerEnds m hignores path h position]
  exact seenAlike_withLongerEnds m _ hreturn

/-- An entity after an empty line, with the cursor at the end of its name. -/
def entityOnSecondLine : List Char :=
  ['\n', 'e', 'n', 't', 'i', 't', 'y', ' ', 'A', '.', '"', 'B', '"', '\n', ';']

/-- With longer line ends its keyword is seen at the same place, and the
entity is still possible at the cursor. -/
theorem entity_seen_after_longer_end :
    Unbroken entityOnSecondLine
      ∧ (let a := analyze moduleModel (fun _ _ => .unavailable "none") none
          (crlf entityOnSecondLine) (some ⟨1, 12⟩)
        a.keyword.map (placed a.text) = some (.word, "entity", ⟨⟨1, 0⟩, ⟨1, 6⟩⟩)
          ∧ a.valid = [1] ∧ a.text.length = 16) := by
  have hunbroken : Unbroken entityOnSecondLine := by
    have hlex : lex entityOnSecondLine = [⟨.word, ['e', 'n', 't', 'i', 't', 'y'], 1, 7⟩,
        ⟨.word, ['A'], 8, 9⟩, ⟨.special, ['.'], 9, 10⟩,
        ⟨.quoted .double true, ['"', 'B', '"'], 10, 13⟩, ⟨.special, [';'], 14, 15⟩] := by
      decide +kernel
    refine ⟨by decide, ?_⟩
    rw [hlex]
    decide
  have hignores : IgnoresText (fun _ _ => .unavailable "none") := fun _ _ _ => rfl
  have halike := analyze_crlf moduleModel hignores none hunbroken (some ⟨1, 12⟩)
  refine ⟨hunbroken, ?_, ?_, by decide +kernel⟩
  · exact halike.keyword.trans (by decide +kernel)
  · exact halike.valid.trans (by decide +kernel)

end ConceptScript.Cursor

import ConceptScript.Assist.Completion
import ConceptScript.Assist.Hover
import ConceptScript.Assist.SignatureHelp
import ConceptScript.Proofs.Cursor.TextRead
import ConceptScript.Proofs.Script.Derivation
import ConceptScript.Proofs.Script.Tiling
import ConceptScript.Proofs.Text.LineOf

/-!
# `ConceptScript.Proofs.Cursor.Comments`: cursors in comments

A comment goes on up to the end of its line. For the lexer a line ends with
`\r` or `\n`, but places count only the `\n`. So the two disagree about a
comment that a `\r` alone ends: what follows the `\r` is no longer in the
comment, but on the same line.

* `mem_comments_ends`: a comment ends where the text ends or a `\r` or `\n`
  follows.
* `inComment_iff`: an offset counts as inside of a comment if it is in one
  or at its end, or if it comes after a `\r` that ended a comment, with no
  `\n` in between (`AfterReturn`).
* `insideComment_iff`: the same of an analysis, with what it then offers,
  which is nothing. In a text in which `\n` follows each `\r` only the
  comments themselves count.
-/

set_option autoImplicit false

namespace ConceptScript.Cursor

open ConceptScript.Text
open ConceptScript.Script
open ConceptScript.Assist
open ConceptScript.Files (FilePath)

/-! ### Where comments end -/

/-- A comment ends at a `\r` or `\n`, or with the text. -/
theorem cutLexeme_rest_of_comment {c : Char} {rest : List Char}
    (h : (cutLexeme c rest).kind = .comment) :
    ∀ d ∈ (cutLexeme c rest).rest.head?, d = '\r' ∨ d = '\n' := by
  unfold cutLexeme at h ⊢
  split at h
  · cases h
  split at h
  · cases h
  split at h
  · cases h
  split at h
  · unfold cutReference at h
    split at h <;> cases h
  split at h
  · next h₁ h₂ h₃ h₄ h₅ =>
    rw [if_neg h₁, if_neg h₂, if_neg h₃, if_neg h₄, if_pos h₅]
    intro d hd
    have hnot := List.head?_dropWhile_not staysOnLine rest
    rw [show (rest.dropWhile staysOnLine).head? = some d from hd] at hnot
    simpa [staysOnLine, or_iff_not_imp_left] using hnot
  · cases h

/-- A comment of a text stands up to the end of a stretch, and the text or
the line ends there. -/
theorem ends_of_mem_lexFrom {offset : Nat} {text : List Char} {l : Lexeme}
    (hl : l ∈ lexFrom offset text) (hkind : l.kind = .comment) :
    ∃ a b, text = a ++ b ∧ l.stop = offset + byteLen a ∧ ∀ c ∈ b.head?, c = '\r' ∨ c = '\n' := by
  obtain ⟨a, c, rest, rfl, _, rfl⟩ := exists_cutLexeme_of_mem hl
  refine ⟨a ++ (cutLexeme c rest).text, (cutLexeme c rest).rest, ?_, ?_,
    cutLexeme_rest_of_comment hkind⟩
  · rw [List.append_assoc, cutLexeme_append]
  · rw [byteLen_append, Nat.add_assoc]

/-- A comment of a script is not empty, and it ends before a `\r` or `\n` or
with the text. -/
theorem mem_comments_ends {text : List Char} {c : Token} (h : c ∈ comments text) :
    c.start < c.stop ∧ ∃ a b, text = a ++ b ∧ c.stop = byteLen a
      ∧ ∀ d ∈ b.head?, d = '\r' ∨ d = '\n' := by
  obtain ⟨l, hl, rfl⟩ := List.mem_map.mp h
  obtain ⟨hmem, hcomment⟩ := List.mem_filter.mp hl
  obtain ⟨a, b, htext, hstop, hends⟩ := ends_of_mem_lexFrom hmem (eq_of_beq hcomment)
  exact ⟨((tiles_lex text).isSlice l hmem).length, a, b, htext, by simpa using hstop, hends⟩

/-- A comment ends between two characters. -/
theorem boundary_of_mem_comments {text : List Char} {c : Token} (h : c ∈ comments text) :
    OnBoundary text c.stop :=
  let ⟨_, a, b, htext, hstop, _⟩ := mem_comments_ends h
  ⟨a, b, htext, hstop⟩

/-- Comments stand one after another. -/
theorem comments_apart (text : List Char) :
    (comments text).Pairwise fun c d => c.stop ≤ d.start :=
  List.pairwise_map.mpr ((tiles_lex text).apart.filter _)

/-! ### Being in a comment -/

/-- A comment is ended by a `\r`, and an offset comes after it with no `\n`
in between. -/
def AfterReturn (text : List Char) (c : Token) (offset : Nat) : Prop :=
  ∃ a mid b, text = a ++ ('\r' :: mid ++ b) ∧ c.stop = byteLen a
    ∧ offset = byteLen (a ++ '\r' :: mid) ∧ '\n' ∉ mid

variable {text : List Char} {target : Nat}

/-- Of the comments that end at or before an offset the last one ends last. -/
theorem stop_le_last {c d : Token} (hc : c ∈ (comments text).filter (·.stop ≤ target))
    (hlast : ((comments text).filter (·.stop ≤ target)).getLast? = some d) : c.stop ≤ d.stop := by
  have hlength : d.start < d.stop :=
    (mem_comments_ends (List.mem_filter.mp (List.mem_of_getLast? hlast)).1).1
  have hapart := (comments_apart text).filter (·.stop ≤ target)
  obtain ⟨others, hothers⟩ := List.getLast?_eq_some_iff.mp hlast
  rw [hothers] at hapart hc
  rcases List.mem_append.mp hc with hbefore | hsame
  · have := (List.pairwise_append.mp hapart).2.2 c hbefore d List.mem_cons_self
    omega
  · rw [List.mem_singleton.mp hsame]

/-- Whether the last of the comments that end at or before an offset ends on
the line of the offset. -/
def followsComment (text : List Char) (comments : List Token) (target : Nat) : Bool :=
  match (comments.filter (·.stop ≤ target)).getLast? with
  | some c => (lineChrOf text c.stop).line == (lineChrOf text target).line
  | none => false

/-- An offset is in a comment if it is inside of one, or if the last comment
before it is on its line. -/
theorem inComment_eq (text : List Char) (comments : List Token) (target : Nat) :
    inComment text comments target
      = (comments.any (fun c => c.start < target && target < c.stop)
        || followsComment text comments target) := rfl

/-- If one of the comments before an offset ends on its line, the last one
does. -/
theorem followsComment_iff (htarget : OnBoundary text target) :
    followsComment text (comments text) target = true
      ↔ ∃ c ∈ comments text, c.stop ≤ target
        ∧ (lineChrOf text c.stop).line = (lineChrOf text target).line := by
  unfold followsComment
  constructor
  · intro h
    split at h
    · next c hlast =>
      obtain ⟨hmem, hstop⟩ := List.mem_filter.mp (List.mem_of_getLast? hlast)
      exact ⟨c, hmem, of_decide_eq_true hstop, eq_of_beq h⟩
    · cases h
  · rintro ⟨c, hmem, hstop, hline⟩
    have hc : c ∈ (comments text).filter (·.stop ≤ target) :=
      List.mem_filter.mpr ⟨hmem, decide_eq_true hstop⟩
    cases hlast : ((comments text).filter (·.stop ≤ target)).getLast? with
    | none => exact absurd hc (List.getLast?_eq_none_iff.mp hlast ▸ List.not_mem_nil)
    | some d =>
      obtain ⟨hdmem, hdstop⟩ := List.mem_filter.mp (List.mem_of_getLast? hlast)
      -- The last one ends between the given one and the offset, so on their line.
      have hcd := (boundary_of_mem_comments hmem).line_le (boundary_of_mem_comments hdmem)
        (stop_le_last hc hlast)
      have hdt := (boundary_of_mem_comments hdmem).line_le htarget (of_decide_eq_true hdstop)
      exact beq_iff_eq.mpr (Nat.le_antisymm hdt (hline ▸ hcd))

/-- An offset counts as in a comment just if it is inside of one or at its
end, or if it follows a comment that a `\r` ends, with no `\n` in between.
The second case is the one where code is taken for a comment. -/
theorem inComment_iff (htarget : OnBoundary text target) :
    inComment text (comments text) target = true
      ↔ (∃ c ∈ comments text, c.start < target ∧ target ≤ c.stop)
        ∨ ∃ c ∈ comments text, AfterReturn text c target := by
  rw [inComment_eq, Bool.or_eq_true, followsComment_iff htarget, List.any_eq_true]
  constructor
  · rintro (⟨c, hmem, hinside⟩ | ⟨c, hmem, hstop, hline⟩)
    · rw [Bool.and_eq_true, decide_eq_true_eq, decide_eq_true_eq] at hinside
      exact .inl ⟨c, hmem, hinside.1, Nat.le_of_lt hinside.2⟩
    · obtain ⟨hlength, a, b, hab, hend, hends⟩ := mem_comments_ends hmem
      obtain ⟨u, v, huv, rfl⟩ := htarget
      obtain ⟨rest, rfl⟩ := isPrefix_of_byteLen_le ⟨b, hab.symm⟩ ⟨v, huv.symm⟩ (hend ▸ hstop)
      rw [List.append_assoc] at huv
      obtain rfl : b = rest ++ v := List.append_cancel_left (hab.symm.trans huv)
      rw [hend, huv, lineChrOf_line_eq_iff] at hline
      -- What stands between the end of the comment and the offset holds no line end.
      cases rest with
      | nil =>
        refine .inl ⟨c, hmem, ?_, ?_⟩ <;> rw [List.append_nil] <;> omega
      | cons d mid =>
        obtain ⟨hd, hmid⟩ := List.ne_and_not_mem_of_not_mem_cons hline
        rcases hends d rfl with rfl | rfl
        · exact .inr ⟨c, hmem, a, mid, v, huv, hend, rfl, hmid⟩
        · exact absurd rfl hd
  · rintro (⟨c, hmem, hstart, hstop⟩ | ⟨c, hmem, a, mid, b, htext, hend, rfl, hmid⟩)
    · rcases Nat.lt_or_eq_of_le hstop with hlt | rfl
      · exact .inl ⟨c, hmem, by simp [hstart, hlt]⟩
      · exact .inr ⟨c, hmem, Nat.le_refl _, rfl⟩
    · -- A `\r` ends no line of places.
      refine .inr ⟨c, hmem, ?_, ?_⟩
      · rw [hend, byteLen_append]
        omega
      · rw [hend, htext, lineChrOf_line_eq_iff]
        exact List.not_mem_cons_of_ne_of_not_mem (by decide) hmid

/-! ### Analyses -/

/-- Each `\r` of a text is followed by a `\n`. -/
def ReturnsPaired (text : List Char) : Prop :=
  ∀ a b, text = a ++ '\r' :: b → b.head? = some '\n'

/-- Cutting a text after the line of a position leaves no `\r` without its
`\n`. -/
theorem ReturnsPaired.textToRead (h : ReturnsPaired text) (position : Option LineChr) :
    ReturnsPaired (textToRead text position) := by
  intro a b hread
  obtain ⟨rest, hrest⟩ := textToRead_isPrefix text position
  rw [hread] at hrest
  have hnewline : (b ++ rest).head? = some '\n' :=
    h a (b ++ rest) (by rw [← hrest, List.append_assoc, List.cons_append])
  cases b with
  | cons c b => exact hnewline
  | nil =>
    -- The text that is read does not end with the `\r`.
    rcases textToRead_cut text position with hall | ⟨a', ha', _⟩
    · exact h a [] (hall ▸ hread)
    · rw [hread] at ha'
      have hlast := congrArg List.getLast? ha'
      rw [List.getLast?_concat, List.getLast?_concat] at hlast
      cases hlast

/-- Where `\n` follows each `\r`, no cursor comes after a `\r` on the same
line. -/
theorem ReturnsPaired.not_afterReturn (h : ReturnsPaired text) (position : Option LineChr)
    (c : Token) : ¬ AfterReturn text c (targetIn text position) := by
  rintro ⟨a, mid, b, htext, _, htarget, hmid⟩
  have hnewline : (mid ++ b).head? = some '\n' := h a (mid ++ b) htext
  cases mid with
  | cons d mid =>
    obtain rfl : d = '\n' := by simpa using hnewline
    exact hmid List.mem_cons_self
  | nil =>
    obtain ⟨u, v, huv, hu, hbetween⟩ := settled_targetIn text position
    have hsplit : text = (a ++ ['\r']) ++ b := by
      rw [htext, List.append_assoc]
    obtain rfl : u = a ++ ['\r'] :=
      eq_of_byteLen_eq ⟨v, huv.symm⟩ ⟨b, hsplit.symm⟩ (hu.symm.trans htarget)
    obtain rfl : v = b := List.append_cancel_left (huv.symm.trans hsplit)
    exact hbetween ⟨List.getLast?_concat, hnewline⟩

/-- In a comment there is no keyword, and nothing is offered or shown. -/
theorem nothing_of_insideComment {m : Model} {texts : ExternalTexts} {path : Option FilePath}
    {position : Option LineChr} (h : (analyze m texts path text position).insideComment = true) :
    let a := analyze m texts path text position
    a.keyword = none ∧ completions m a = [] ∧ hover m a = none ∧ signatureHelp m a = none := by
  intro a
  have hkeyword : a.keyword = none := by
    rw [analyze_insideComment] at h
    simp only [a, analyze]
    split
    · rfl
    · exact if_pos h
  refine ⟨hkeyword, ?_, ?_, ?_⟩
  · rw [completions, completionWords, show a.insideComment = true from h]
    rfl
  · rw [hover, hkeyword]
  · rw [signatureHelp, hkeyword]

/-- When a cursor counts as inside of a comment, and what there is then. Each
`\r` without a `\n` that ends a comment adds what follows it on the line;
without such a `\r` the cursor is after the start of a comment and not after
its end. -/
theorem insideComment_iff (m : Model) (texts : ExternalTexts) (path : Option FilePath)
    (text : List Char) (position : Option LineChr) :
    let a := analyze m texts path text position
    (a.insideComment = true
        ↔ (∃ c ∈ a.comments, c.start < a.target ∧ a.target ≤ c.stop)
          ∨ ∃ c ∈ a.comments, AfterReturn a.text c a.target)
      ∧ (a.insideComment = true →
        a.keyword = none ∧ completions m a = [] ∧ hover m a = none ∧ signatureHelp m a = none)
      ∧ (ReturnsPaired text →
        (a.insideComment = true
          ↔ ∃ c ∈ a.comments, c.start < a.target ∧ a.target ≤ c.stop)) := by
  intro a
  -- The cursor is between two characters, where lines can be told.
  obtain ⟨u, v, huv, hu, _⟩ := settled_targetIn (textToRead text position) position
  have hiff : a.insideComment = true
      ↔ (∃ c ∈ a.comments, c.start < a.target ∧ a.target ≤ c.stop)
        ∨ ∃ c ∈ a.comments, AfterReturn a.text c a.target := by
    rw [analyze_insideComment, analyze_comments, analyze_target, analyze_text]
    exact inComment_iff ⟨u, v, huv, hu⟩
  refine ⟨hiff, nothing_of_insideComment, fun hpaired => hiff.trans ?_⟩
  constructor
  · rintro (hinside | ⟨c, _, hafter⟩)
    · exact hinside
    · rw [analyze_text, analyze_target] at hafter
      exact absurd hafter ((hpaired.textToRead position).not_afterReturn position c)
  · exact .inl

/-- A comment that `\r\n` ends, and a statement. -/
def commentedText : List Char := "// c".toList ++ '\r' :: '\n' :: "Module x;".toList

/-- At the end of the comment the cursor is in it, and after the statement
it is not. -/
theorem insideComment_before_crlf :
    let atEnd := analyze moduleModel (fun _ _ => .unavailable "none") none commentedText
      (some ⟨0, 4⟩)
    let after := analyze moduleModel (fun _ _ => .unavailable "none") none commentedText
      (some ⟨1, 8⟩)
    atEnd.insideComment = true ∧ atEnd.keyword = none ∧ completions moduleModel atEnd = []
      ∧ after.insideComment = false := by
  intro atEnd after
  have hpaired : ReturnsPaired commentedText := by
    intro a b htext
    have honce := (List.append_cons_inj_of_notMem (by decide) (by decide)).mp htext
    rw [← honce.2.2]
    rfl
  obtain ⟨_, hnothing, hexact⟩ := insideComment_iff moduleModel (fun _ _ => .unavailable "none")
    none commentedText (some ⟨0, 4⟩)
  have hinside : atEnd.insideComment = true := (hexact hpaired).mpr (by decide +kernel)
  obtain ⟨hkeyword, hcompletions, _⟩ := hnothing hinside
  obtain ⟨_, _, hexact⟩ := insideComment_iff moduleModel (fun _ _ => .unavailable "none")
    none commentedText (some ⟨1, 8⟩)
  have houtside : ¬ after.insideComment = true :=
    fun h => absurd ((hexact hpaired).mp h) (by decide +kernel)
  exact ⟨hinside, hkeyword, hcompletions, Bool.eq_false_iff.mpr houtside⟩

/-- A `\r` alone ends the comment, and the cursor is after the statement that
follows. No comment is around it, but it counts as inside of one, and there
is no keyword. -/
theorem insideComment_after_return :
    let a := analyze moduleModel (fun _ _ => .unavailable "none") none "// c\rModule x;".toList
      (some ⟨0, 13⟩)
    a.insideComment = true ∧ a.keyword = none
      ∧ (¬ ∃ c ∈ a.comments, c.start < a.target ∧ a.target ≤ c.stop)
      ∧ ∃ c ∈ a.comments, ∃ t ∈ a.tokens, c.stop ≤ t.start ∧ t.stop ≤ a.target := by
  decide +kernel

end ConceptScript.Cursor

import ConceptScript.Proofs.Script.Tiling

/-!
# `ConceptScript.Proofs.Script.LexPrefix`: lexing the first lines of a text

The first lines of a text have the lexemes that the text has up to there.
Only a string or a reference that goes on over the last line end is
another one: an open string or reference from where it starts to the cut.
At other places a cut can change more: it can split a word, a comment or
two quotes in a row.

This is `lexFrom_append` with the lexemes named by their places instead of
by their order, which the tiling of both texts allows.
-/

set_option autoImplicit false

namespace ConceptScript.Script

open ConceptScript.Text

/-- The lexemes that stop at an offset or before it. -/
def upTo (offset : Nat) (ls : List Lexeme) : List Lexeme := ls.filter (·.stop ≤ offset)

variable {offset e : Nat} {text : List Char} {l : Lexeme} {ls ls' : List Lexeme}

/-- The lexemes up to an offset are those in front, if the others stop after
it. -/
theorem upTo_append (h : ∀ l ∈ ls, l.stop ≤ e) (h' : ∀ l ∈ ls', e < l.stop) :
    upTo e (ls ++ ls') = ls := by
  have hall : upTo e ls = ls := List.filter_eq_self.mpr fun l hl => decide_eq_true (h l hl)
  have hnone : upTo e ls' = [] :=
    List.filter_eq_nil_iff.mpr fun l hl => by simpa using h' l hl
  rw [upTo, List.filter_append, ← upTo, ← upTo, hall, hnone, List.append_nil]

/-- No lexeme goes on over an offset, if those in front stop at it or before
and the others start at it or after. -/
theorem not_crosses_of_append (h : ∀ l ∈ ls, l.stop ≤ e) (h' : ∀ l ∈ ls', e ≤ l.start) :
    ∀ l ∈ ls ++ ls', ¬l.Crosses e :=
  List.forall_mem_append.mpr
    ⟨fun l hl hcrosses => Nat.not_le_of_lt hcrosses.2 (h l hl),
      fun l hl hcrosses => Nat.not_le_of_lt hcrosses.1 (h' l hl)⟩

/-- Where a lexeme crosses an offset, those before it stop there, and those
after it start later. -/
theorem Tiles.crossed (h : Tiles offset text (ls ++ l :: ls')) (hl : l.Crosses e) :
    upTo e (ls ++ l :: ls') = ls ∧ ∀ l' ∈ ls ++ l :: ls', l'.Crosses e → l' = l := by
  obtain ⟨_, hapart, hbefore⟩ := List.pairwise_append.mp h.apart
  have hbefore : ∀ l' ∈ ls, l'.stop ≤ e := fun l' hl' =>
    (hbefore l' hl' l List.mem_cons_self).trans (Nat.le_of_lt hl.1)
  have hafter : ∀ l' ∈ ls', e < l'.start := fun l' hl' =>
    hl.2.trans_le ((List.pairwise_cons.mp hapart).1 l' hl')
  constructor
  · refine upTo_append hbefore (List.forall_mem_cons.mpr ⟨hl.2, fun l' hl' => ?_⟩)
    have hmem : l' ∈ ls ++ l :: ls' := List.mem_append_right _ (List.mem_cons_of_mem _ hl')
    exact (hafter l' hl').trans (h.isSlice l' hmem).length
  · intro l' hl' hcrosses
    have hnot := not_crosses_of_append hbefore fun l' hl' => Nat.le_of_lt (hafter l' hl')
    rcases List.mem_append.mp hl' with hl' | hl'
    · exact absurd hcrosses (hnot l' (List.mem_append_left _ hl'))
    rcases List.mem_cons.mp hl' with rfl | hl'
    · rfl
    · exact absurd hcrosses (hnot l' (List.mem_append_right _ hl'))

/-- Cutting a text at the end of a line cuts its lexemes into those before
and those after, or leaves one of them open. Then those in front of this one
are the same. -/
theorem lex_append {a b : List Char} (h : EndsLine a ∨ b = []) :
    lex (a ++ b) = lex a ++ lexFrom (byteLen a) b ∨
      ∃ ls u l ls', lex a = ls ++ [u] ∧ lex (a ++ b) = ls ++ l :: ls'
        ∧ CutThrough (byteLen a) l u := by
  rcases eq_or_ne b [] with rfl | hb
  · rw [List.append_nil, lexFrom, List.append_nil]
    exact .inl rfl
  · have hcases := lexFrom_append 0 (h.resolve_right hb) hb
    rwa [Nat.zero_add] at hcases

/-- A lexeme of the first lines of a text is one of the text, unless the lines
end inside it. -/
theorem mem_lex_append {a b : List Char} (h : EndsLine a ∨ b = []) (hl : l ∈ lex a)
    (hclosed : l.kind.isOpen = false) : l ∈ lex (a ++ b) := by
  rcases lex_append h with hwhole | ⟨ls, u, l', ls', hcut, hwhole, hthrough⟩
  · exact hwhole ▸ List.mem_append_left _ hl
  · rw [hcut] at hl
    rcases List.mem_append.mp hl with hmem | hmem
    · exact hwhole ▸ List.mem_append_left _ hmem
    · rw [List.mem_singleton.mp hmem, hthrough.isOpen] at hclosed
      cases hclosed

/-- The lexemes of the first lines of a text, or of all of it, are those of
the text that stop there. One more follows if and only if a lexeme of the
text crosses the end of these lines. -/
theorem lex_firstLines {a b : List Char} (h : EndsLine a ∨ b = []) :
    ((∀ l ∈ lex (a ++ b), ¬l.Crosses (byteLen a)) → lex a = upTo (byteLen a) (lex (a ++ b)))
      ∧ ∀ l ∈ lex (a ++ b), l.Crosses (byteLen a) →
        ∃ u, lex a = upTo (byteLen a) (lex (a ++ b)) ++ [u] ∧ CutThrough (byteLen a) l u := by
  rcases lex_append h with hwhole | ⟨ls, u, l, ls', hcut, hwhole, hthrough⟩
  · have hbefore : ∀ l ∈ lex a, l.stop ≤ byteLen a := fun l hl => by
      simpa using ((tiles_lex a).isSlice l hl).stop_le
    have hafter := (spread_lexFrom (byteLen a) b).bounds
    have hnone := not_crosses_of_append hbefore fun l hl => (hafter l hl).1
    rw [hwhole]
    refine ⟨fun _ => ?_, fun l hl hcrosses => absurd hcrosses (hnone l hl)⟩
    exact (upTo_append hbefore fun l hl => (hafter l hl).1.trans_lt (hafter l hl).2).symm
  · have htiles := tiles_lex (a ++ b)
    rw [hwhole] at htiles ⊢
    obtain ⟨hupTo, honly⟩ := htiles.crossed hthrough.crosses
    rw [hupTo]
    constructor
    · exact fun hnone => absurd hthrough.crosses
        (hnone l (List.mem_append_right _ List.mem_cons_self))
    · intro l' hl' hcrosses
      obtain rfl := honly l' hl' hcrosses
      exact ⟨u, hcut, hthrough⟩

/-- A string over two lines is an open string on the first one. -/
theorem lex_firstLines_in_string :
    EndsLine ['k', ' ', '\'', 'x', '\n']
      ∧ ∃ u, lex ['k', ' ', '\'', 'x', '\n'] = [⟨.word, ['k'], 0, 1⟩, u]
        ∧ CutThrough 5 ⟨.quoted .single true, ['\'', 'x', '\n', 'y', '\''], 2, 7⟩ u := by
  have hends : EndsLine ['k', ' ', '\'', 'x', '\n'] := endsLine_newline ['k', ' ', '\'', 'x']
  have hlex : lex (['k', ' ', '\'', 'x', '\n'] ++ ['y', '\'', ';']) = [⟨.word, ['k'], 0, 1⟩,
      ⟨.quoted .single true, ['\'', 'x', '\n', 'y', '\''], 2, 7⟩, ⟨.special, [';'], 7, 8⟩] := by
    decide +kernel
  refine ⟨hends, ?_⟩
  have hcrossed := (lex_firstLines (b := ['y', '\'', ';']) (.inl hends)).2
  rw [hlex] at hcrossed
  exact hcrossed _ (List.mem_cons_of_mem _ List.mem_cons_self) ⟨by decide, by decide⟩

end ConceptScript.Script

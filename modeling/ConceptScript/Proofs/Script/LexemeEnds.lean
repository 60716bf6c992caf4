import ConceptScript.Proofs.Script.Tiling
import ConceptScript.Proofs.Text.RoundTrip

/-!
# `ConceptScript.Proofs.Script.LexemeEnds`: where lexemes start and stop

A lexeme starts with a character that is not blank. It ends with a
character that is not `\r`, unless the script ends inside it. So no lexeme
starts or stops in a character or between `\r` and `\n`, and its places lead
back to its offsets: `settled_of_mem_lex`.

`delimited_of_mem_lex` says which characters a quoted string or a reference
has around it. To take them off leaves what is between them.

Both follow from the pattern of the lexeme (`text_mem_pattern`).
-/

set_option autoImplicit false

namespace ConceptScript.Script

open ConceptScript.Text
open scoped Computability

/-- The lexemes of a text have texts of their kinds. -/
theorem LongestMatches.text_mem_pattern {offset : Nat} {text : List Char} {ls : List Lexeme}
    (h : LongestMatches offset text ls) : ∀ l ∈ ls, l.text ∈ pattern (some l.kind) := by
  induction h with
  | nil => exact fun _ hl => absurd hl List.not_mem_nil
  | blank _ _ ih => exact ih
  | lexeme longest _ ih => exact List.forall_mem_cons.mpr ⟨longest.mem, ih⟩

/-- A lexeme of a script has a text of its kind. -/
theorem text_mem_pattern {text : List Char} {l : Lexeme} (h : l ∈ lex text) :
    l.text ∈ pattern (some l.kind) :=
  (longestMatches_lexFrom 0 text).text_mem_pattern l h

/-- The characters around a quoted string or a reference. One that is not
closed has only the first. -/
def Lexeme.Delimited (l : Lexeme) : Prop :=
  match l.kind with
  | .quoted q true => ∃ inner, l.text = q.char :: inner ++ [q.char]
  | .quoted q false => ∃ inner, l.text = q.char :: inner
  | .reference true => ∃ path, l.text = '<' :: path ++ ['>']
  | .reference false => ∃ path, l.text = '<' :: path
  | _ => True

/-- The strings and references of a text have their characters around them. -/
theorem delimited_of_mem_lex {text : List Char} {l : Lexeme} (h : l ∈ lex text) :
    l.Delimited := by
  have hmem := text_mem_pattern h
  obtain ⟨kind, s, start, stop⟩ := l
  rcases kind with _ | _ | ⟨q, closed⟩ | closed | _
  · trivial
  · trivial
  · obtain ⟨t, ht, rfl⟩ := mem_singleton_mul.mp hmem
    cases closed with
    | false => exact ⟨t, rfl⟩
    | true =>
      obtain ⟨inner, _, rfl⟩ := mem_mul_singleton.mp ht
      exact ⟨inner, rfl⟩
  · obtain ⟨t, ht, rfl⟩ := mem_singleton_mul.mp hmem
    cases closed with
    | false => exact ⟨t, rfl⟩
    | true =>
      obtain ⟨path, _, rfl⟩ := mem_mul_singleton.mp ht
      exact ⟨path, rfl⟩
  · trivial

/-- Taking off the ends leaves what is between them. -/
theorem withoutEnds_delimited (c d : Char) (s : List Char) :
    withoutEnds (c :: s ++ [d]) = s := List.dropLast_concat

/-- A lexeme starts with a character that is not blank. -/
theorem head?_text {text : List Char} {l : Lexeme} (h : l ∈ lex text) :
    ∃ c, l.text.head? = some c ∧ isBlank c = false := by
  obtain ⟨c, t, htext, hlead⟩ := leadKind_of_pattern (text_mem_pattern h)
  refine ⟨c, by rw [htext]; rfl, ?_⟩
  rw [← Bool.not_eq_true]
  intro hblank
  rw [leadOf, if_pos hblank] at hlead
  cases hkind : l.kind <;> rw [hkind] at hlead <;> cases hlead

/-- A lexeme that the script does not end inside does not end with `\r`. -/
theorem getLast?_text_ne_return {text : List Char} {l : Lexeme} (h : l ∈ lex text)
    (hclosed : l.isUnclosed = false) : l.text.getLast? ≠ some '\r' := by
  have hmem := text_mem_pattern h
  -- In words, comments and special characters no `\r` stands at all. A closed string or reference
  -- ends with its own character.
  have hnot : ∀ {p : Char → Bool}, p '\r' = false → (∀ c ∈ l.text, p c = true) →
      l.text.getLast? ≠ some '\r' := fun hp hall hlast => by
    rw [hall _ (List.mem_of_getLast? hlast)] at hp
    cases hp
  have hdelimited := delimited_of_mem_lex h
  obtain ⟨kind, s, start, stop⟩ := l
  rcases kind with _ | _ | ⟨q, closed⟩ | closed | _
  · obtain ⟨t, ht, rfl⟩ := mem_singleton_mul.mp hmem
    exact hnot (p := staysOnLine) rfl
      (List.forall_mem_cons.mpr ⟨rfl, List.forall_mem_cons.mpr ⟨rfl, mem_star_oneOf.mp ht⟩⟩)
  · obtain ⟨c, t, hc, ht, rfl⟩ := mem_oneOf_mul.mp hmem
    exact hnot (p := isWordChar) (by decide)
      (List.forall_mem_cons.mpr ⟨hc, mem_star_oneOf.mp ht⟩)
  · obtain rfl : closed = true := by simpa [Lexeme.isUnclosed] using hclosed
    obtain ⟨inner, rfl⟩ := hdelimited
    rw [List.getLast?_concat]
    cases q <;> decide
  · obtain rfl : closed = true := by simpa [Lexeme.isUnclosed] using hclosed
    obtain ⟨path, rfl⟩ := hdelimited
    rw [List.getLast?_concat]
    decide
  · obtain ⟨c, hc, rfl⟩ := hmem
    exact hnot (p := isSpecial) (by decide) (List.forall_mem_singleton.mpr hc)

/-- No lexeme starts or stops in a character or between `\r` and `\n`. -/
theorem settled_of_mem_lex {text : List Char} {l : Lexeme} (h : l ∈ lex text) :
    Settled text l.start ∧ Settled text l.stop := by
  obtain ⟨a, b, htext, hstart, hstop⟩ := ((tiles_lex text).isSlice l h).slice
  rw [Nat.zero_add] at hstart
  obtain ⟨c, hfirst, hblank⟩ := head?_text h
  constructor
  · refine ⟨a, l.text ++ b, by rw [htext, List.append_assoc], hstart, fun hsplits => ?_⟩
    have hnewline := hsplits.2
    rw [List.head?_append, hfirst] at hnewline
    cases hnewline
    cases hblank
  · refine ⟨a ++ l.text, b, htext, by rw [hstop, hstart, byteLen_append], fun hsplits => ?_⟩
    cases hclosed : l.isUnclosed with
    | false =>
      have hne : l.text ≠ [] := fun hnil => by
        rw [hnil] at hfirst
        cases hfirst
      have hlast := hsplits.1
      rw [List.getLast?_append, List.getLast?_eq_some_getLast hne, Option.some_or,
        ← List.getLast?_eq_some_getLast hne] at hlast
      exact getLast?_text_ne_return h hclosed hlast
    | true =>
      -- Nothing follows it.
      obtain ⟨_, hend⟩ := (tiles_lex text).unclosed l h hclosed
      have hb : b ≠ [] := fun hnil => by
        rw [hnil] at hsplits
        cases hsplits.2
      have hpos := byteLen_pos hb
      have hlength := congrArg byteLen htext
      rw [byteLen_append, byteLen_append] at hlength
      omega

end ConceptScript.Script

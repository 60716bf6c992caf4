import ConceptScript.Script.TokenStream
import ConceptScript.Proofs.Text.LineCut

/-!
# `ConceptScript.Proofs.Script.Tokens`: the tokens of a script

Lexemes take at least one byte each and none starts before the one in
front of it stops (`spread_lexFrom`). Tokens keep the places of their
lexemes, so the same holds of the tokens of a script, up to the end of
the script, which takes no bytes (`ordered_tokenize`).

Where external texts are read without a crash, a stream has its end:
`ending_tokenize`.
-/

set_option autoImplicit false

namespace ConceptScript.Script

open ConceptScript.Text

/-! ### Lexemes -/

/-- Lexemes that stand one after another from an offset up to a limit. -/
inductive Spread (limit : Nat) : Nat → List Lexeme → Prop
  | nil {offset : Nat} (h : offset ≤ limit) : Spread limit offset []
  | cons {offset : Nat} {l : Lexeme} {rest : List Lexeme} (start : offset ≤ l.start)
      (length : l.start < l.stop) (tail : Spread limit l.stop rest) :
      Spread limit offset (l :: rest)

/-- Lexemes that stand after an offset stand after an earlier one. -/
theorem Spread.mono {limit offset offset' : Nat} {ls : List Lexeme} (h : offset ≤ offset')
    (hspread : Spread limit offset' ls) : Spread limit offset ls := by
  cases hspread with
  | nil hle => exact .nil (Nat.le_trans h hle)
  | cons hstart hlength tail => exact .cons (Nat.le_trans h hstart) hlength tail

/-- The offset that lexemes stand after is not past the limit. -/
theorem Spread.le {limit offset : Nat} {ls : List Lexeme} (h : Spread limit offset ls) :
    offset ≤ limit := by
  induction h with
  | nil hle => exact hle
  | cons hstart hlength _ ih => omega

/-- Lexemes start at the offset or later, and take some bytes. -/
theorem Spread.bounds {limit offset : Nat} {ls : List Lexeme} (h : Spread limit offset ls) :
    ∀ l ∈ ls, offset ≤ l.start ∧ l.start < l.stop := by
  induction h with
  | nil _ => exact fun _ hl => absurd hl List.not_mem_nil
  | cons hstart hlength _ ih =>
    refine List.forall_mem_cons.mpr ⟨⟨hstart, hlength⟩, fun l hl => ?_⟩
    have := ih l hl
    omega

/-- The lexemes at the rear stand after some offset. -/
theorem Spread.of_append {limit offset : Nat} {ls ls' : List Lexeme}
    (h : Spread limit offset (ls ++ ls')) : ∃ offset', Spread limit offset' ls' := by
  induction ls generalizing offset with
  | nil => exact ⟨offset, h⟩
  | cons l ls ih =>
    cases h with
    | cons _ _ tail => exact ih tail

/-- The lexemes of a text stand one after another in it. Induction along the
lexer. -/
theorem spread_lexFrom (offset : Nat) (text : List Char) :
    Spread (offset + byteLen text) offset (lexFrom offset text) := by
  fun_induction lexFrom offset text with
  | case1 offset => exact .nil (Nat.le_add_right _ _)
  | case2 offset c rest hblank ih =>
    have hlen : offset + byteLen (c :: rest) = offset + c.utf8Size + byteLen rest := by
      show offset + (c.utf8Size + byteLen rest) = _
      omega
    rw [hlen]
    exact ih.mono (Nat.le_add_right _ _)
  | case3 offset c rest hblank cut stop ih =>
    have hlen : byteLen (c :: rest) = byteLen cut.text + byteLen cut.rest := by
      rw [← byteLen_append, cutLexeme_append]
    have hpos : 0 < byteLen cut.text := byteLen_pos (cutLexeme_text_ne_nil c rest)
    refine .cons (Nat.le_refl _) (Nat.lt_add_of_pos_right hpos) ?_
    rw [hlen, ← Nat.add_assoc]
    exact ih

/-! ### Tokens -/

/-- Tokens in the order of a script: none starts before the one in front
of it stops, and only an end of the script may take no bytes. -/
structure Ordered (tokens : List Token) : Prop where
  pairwise : tokens.Pairwise fun t u => t.stop ≤ u.start ∧ t.start < u.start
  start_le_stop : ∀ t ∈ tokens, t.start ≤ t.stop

/-- Tokens that are picked out of ordered ones are in order. -/
theorem Ordered.sublist {tokens tokens' : List Token} (h : Ordered tokens')
    (hsub : tokens.Sublist tokens') : Ordered tokens :=
  ⟨h.pairwise.sublist hsub, fun t ht => h.start_le_stop t (hsub.subset ht)⟩

/-- What a token keeps of the lexeme it comes from: its place, and of a word
the characters. It is never the end of the script. -/
structure Keeps (l : Lexeme) (t : Token) : Prop where
  start : t.start = l.start
  stop : t.stop = l.stop
  isEnd : t.isEnd = false
  word : t.kind = .word → l.kind = .word ∧ t.value = String.ofList l.text

/-- A token keeps the place of the lexeme that it comes from. -/
theorem keeps_of_convert {texts : ExternalTexts} {source : Source} {l : Lexeme} {t : Token}
    (h : convert texts source l = .token t) : Keeps l t := by
  unfold convert at h
  dsimp only at h
  split at h
  · cases h
  · next hkind =>
    cases h
    exact ⟨rfl, rfl, rfl, fun _ => ⟨hkind, rfl⟩⟩
  · cases h
    exact ⟨rfl, rfl, rfl, fun hword => (by cases hword)⟩
  · cases h
    exact ⟨rfl, rfl, rfl, fun hword => (by cases hword)⟩
  · cases h
  · -- Of a closed reference there is a token when the text it names can be read.
    split at h
    · cases h
      exact ⟨rfl, rfl, rfl, fun hword => (by cases hword)⟩
    · cases h
    · cases h
  · cases h

/-- The tokens of lexemes that stand one after another are in order and
within the same limits. Induction on the lexemes. -/
theorem convertAll_spread {texts : ExternalTexts} {source : Source} {limit offset : Nat}
    {ls : List Lexeme} (h : Spread limit offset ls) :
    Ordered (convertAll texts source ls).1
      ∧ ∀ t ∈ (convertAll texts source ls).1,
        offset ≤ t.start ∧ t.start < t.stop ∧ t.stop ≤ limit := by
  induction h with
  | nil _ => exact ⟨⟨.nil, fun _ ht => absurd ht List.not_mem_nil⟩,
      fun _ ht => absurd ht List.not_mem_nil⟩
  | @cons offset l rest hstart hlength htail ih =>
    obtain ⟨hordered, hbounds⟩ := ih
    have hle := htail.le
    unfold convertAll
    split
    · refine ⟨hordered, fun t ht => ?_⟩
      have := hbounds t ht
      omega
    · exact ⟨⟨.nil, fun _ ht => absurd ht List.not_mem_nil⟩,
        fun _ ht => absurd ht List.not_mem_nil⟩
    · next t hconvert =>
      -- The tokens after this one start where its lexeme stops, or later.
      have hts := (keeps_of_convert hconvert).start
      have hte := (keeps_of_convert hconvert).stop
      refine ⟨⟨List.pairwise_cons.mpr ⟨fun u hu => ?_, hordered.pairwise⟩,
        List.forall_mem_cons.mpr ⟨by omega, hordered.start_le_stop⟩⟩,
        List.forall_mem_cons.mpr ⟨by omega, fun u hu => ?_⟩⟩
      · have := hbounds u hu
        omega
      · have := hbounds u hu
        omega

/-- External texts that are read without a crash, whatever comes of it. -/
def NeverCrashes (texts : ExternalTexts) : Prop :=
  ∀ source path message, texts source path ≠ .crash message

/-- Converting lexemes does not crash if no external text does. -/
theorem ending_convertAll {texts : ExternalTexts} (h : NeverCrashes texts) (source : Source)
    (ls : List Lexeme) (message : String) :
    (convertAll texts source ls).2 ≠ .crashed message := by
  induction ls with
  | nil => exact fun hcrash => (by cases hcrash)
  | cons l rest ih =>
    unfold convertAll
    split
    · exact ih
    · next ending hconvert =>
      rintro rfl
      unfold convert at hconvert
      dsimp only at hconvert
      (repeat' split at hconvert) <;> cases hconvert
      next hcrash => exact h _ _ _ hcrash
    · exact ih

/-- Nor does cutting a script into tokens. -/
theorem ending_tokenize {texts : ExternalTexts} (h : NeverCrashes texts) (source : Source)
    (message : String) : (tokenize texts source).ending ≠ .crashed message := by
  have hending := ending_convertAll h source (lex source.text)
  unfold tokenize
  split
  · next tokens message' hconverted =>
    rw [hconverted] at hending
    exact absurd rfl (hending message')
  · next tokens ending _ hconverted =>
    rw [hconverted] at hending
    exact hending message

/-- The tokens of a script stand in order. -/
theorem ordered_tokenize (texts : ExternalTexts) (source : Source) :
    Ordered (tokenize texts source).tokens := by
  have hspread : Spread (byteLen source.text) 0 (lexFrom 0 source.text) :=
    Nat.zero_add (byteLen source.text) ▸ spread_lexFrom 0 source.text
  have hordered : Ordered (convertAll texts source (lexFrom 0 source.text)).1 :=
    (convertAll_spread hspread).1
  have hbounds : ∀ t ∈ (convertAll texts source (lexFrom 0 source.text)).1,
      0 ≤ t.start ∧ t.start < t.stop ∧ t.stop ≤ byteLen source.text :=
    (convertAll_spread hspread).2
  unfold tokenize
  split
  · next tokens message h =>
    rw [lex] at h
    rw [h] at hordered
    exact hordered
  · next tokens ending _ h =>
    rw [lex] at h
    rw [h] at hordered hbounds
    -- The end of the script comes after all of them.
    refine ⟨List.pairwise_append.mpr ⟨hordered.pairwise, List.pairwise_singleton _ _, ?_⟩, ?_⟩
    · intro t ht u hu
      rw [List.mem_singleton.mp hu]
      have hbound := hbounds t ht
      exact ⟨hbound.2.2, Nat.lt_of_lt_of_le hbound.2.1 hbound.2.2⟩
    · intro t ht
      rcases List.mem_append.mp ht with ht | ht
      · exact hordered.start_le_stop t ht
      · rw [List.mem_singleton.mp ht]
        exact Nat.le_refl _

end ConceptScript.Script

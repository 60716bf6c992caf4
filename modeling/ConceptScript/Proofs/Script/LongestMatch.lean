import Mathlib.Computability.Language
import ConceptScript.Proofs.Script.LexCut

/-!
# `ConceptScript.Proofs.Script.LongestMatch`: lexemes are longest matches

Cutting a script into lexemes looks at one character and then goes on as
far as it can. The kinds of lexemes can also be given as languages
(`pattern`), with the white space between lexemes as one more. Of these
the longest match counts.

Both are the same, which is `longestMatches_iff`. At each place there is
only one longest match (`Longest.unique`), so which pattern comes first
never matters: a slash loses against a comment, a closed string against an
open one if the closing quote is one of two in a row.

A match for one character is compared with the patterns that can start
with this character (`leadKind_of_pattern`), which are at most two. For
strings this goes on by induction on the text (`longest_splitQuoted`).
-/

set_option autoImplicit false

namespace ConceptScript.Script

open ConceptScript.Text
open scoped Computability

/-! ### Patterns -/

/-- One character of a class. -/
def oneOf (p : Char → Bool) : Language Char := {s : List Char | ∃ c, p c = true ∧ s = [c]}

/-- What can stand between quotes: characters other than the quote, and two
quotes in a row. -/
def inQuotes (q : Char) : Language Char := (oneOf (· != q) + {[q, q]})∗

/-- What follows an opening quote, told whether the string is closed. -/
def afterQuote (q : Char) : Bool → Language Char
  | true => inQuotes q * {[q]}
  | false => inQuotes q

/-- What follows the `<` of a reference, told whether it is closed. -/
def afterAngle : Bool → Language Char
  | true => (oneOf (· != '>'))∗ * {['>']}
  | false => (oneOf (· != '>'))∗

/-- The characters that are lexemes by themselves. -/
def isSpecial (c : Char) : Bool :=
  !isBlank c && !isWordChar c && c != '\'' && c != '"' && c != '<'

/-- The texts that a piece of a script can have: a lexeme of a kind, or, for
no kind, the blank characters between lexemes. -/
def pattern : Option LexemeKind → Language Char
  | none => oneOf isBlank * (oneOf isBlank)∗
  | some .comment => {['/', '/']} * (oneOf staysOnLine)∗
  | some .word => oneOf isWordChar * (oneOf isWordChar)∗
  | some (.quoted q closed) => {[q.char]} * afterQuote q.char closed
  | some (.reference closed) => {['<']} * afterAngle closed
  | some .special => oneOf isSpecial

/-- The texts of a product with a single text in front start with it, and the
rest is of the language. The lemmas down to `mem_inQuotes` open the languages
that patterns are made of. -/
theorem mem_singleton_mul {s : List Char} {a : List Char} {L : Language Char} :
    s ∈ ({a} : Language Char) * L ↔ ∃ t ∈ L, s = a ++ t := by
  rw [Language.mem_mul]
  constructor
  · rintro ⟨_, rfl, t, ht, rfl⟩
    exact ⟨t, ht, rfl⟩
  · rintro ⟨t, ht, rfl⟩
    exact ⟨a, rfl, t, ht, rfl⟩

/-- The same with the single text at the end. -/
theorem mem_mul_singleton {s : List Char} {a : List Char} {L : Language Char} :
    s ∈ L * ({a} : Language Char) ↔ ∃ t ∈ L, s = t ++ a := by
  rw [Language.mem_mul]
  constructor
  · rintro ⟨t, ht, _, rfl, rfl⟩
    exact ⟨t, ht, rfl⟩
  · rintro ⟨t, ht, rfl⟩
    exact ⟨t, ht, a, rfl, rfl⟩

/-- The texts of a product with a class of characters in front start with a
character of the class. -/
theorem mem_oneOf_mul {s : List Char} {p : Char → Bool} {L : Language Char} :
    s ∈ oneOf p * L ↔ ∃ c t, p c = true ∧ t ∈ L ∧ s = c :: t := by
  rw [Language.mem_mul]
  constructor
  · rintro ⟨_, ⟨c, hc, rfl⟩, t, ht, rfl⟩
    exact ⟨c, t, hc, ht, rfl⟩
  · rintro ⟨c, t, hc, ht, rfl⟩
    exact ⟨[c], ⟨c, hc, rfl⟩, t, ht, rfl⟩

/-- A repeated text is empty, or has one more repetition in front. -/
theorem mem_star_iff {s : List Char} {L : Language Char} : s ∈ L∗ ↔ s = [] ∨ s ∈ L * L∗ := by
  conv_lhs => rw [← Language.one_add_self_mul_kstar_eq_kstar]
  rfl

/-- Characters of a class in a row are a text of such characters alone. -/
theorem mem_star_oneOf {s : List Char} {p : Char → Bool} :
    s ∈ (oneOf p)∗ ↔ ∀ c ∈ s, p c = true := by
  induction s with
  | nil => simp [Language.nil_mem_kstar]
  | cons c s ih =>
    rw [mem_star_iff, mem_oneOf_mul, List.forall_mem_cons]
    constructor
    · rintro (h | ⟨_, _, hc, hs, heq⟩)
      · cases h
      · cases heq
        exact ⟨hc, ih.mp hs⟩
    · rintro ⟨hc, hs⟩
      exact .inr ⟨c, s, hc, ih.mpr hs, rfl⟩

/-- What stands in quotes is nothing, or starts with another character, or
with two quotes. -/
theorem mem_inQuotes {s : List Char} {q : Char} :
    s ∈ inQuotes q ↔ s = [] ∨ (∃ c t, c ≠ q ∧ t ∈ inQuotes q ∧ s = c :: t)
      ∨ ∃ t ∈ inQuotes q, s = q :: q :: t := by
  unfold inQuotes
  rw [mem_star_iff, add_mul, Language.mem_add, mem_oneOf_mul, mem_singleton_mul]
  simp only [bne_iff_ne, List.cons_append, List.nil_append]

/-! ### The longest match -/

/-- Of all texts that a given one starts with and that are in one of some
languages, the one that is longer than all others. -/
structure Longest {ι : Type} (L : ι → Language Char) (text : List Char) (i : ι)
    (s : List Char) : Prop where
  isPrefix : s <+: text
  mem : s ∈ L i
  longest : ∀ j u, u <+: text → u ∈ L j → u.length < s.length ∨ j = i ∧ u.length = s.length

variable {ι : Type} {L : ι → Language Char} {text s : List Char} {i j : ι}

/-- There is one longest match. -/
theorem Longest.unique {t : List Char} (h : Longest L text i s) (h' : Longest L text j t) :
    i = j ∧ s = t := by
  have hlen : i = j ∧ s.length = t.length := by
    rcases h.longest j t h'.isPrefix h'.mem with hlt | ⟨rfl, heq⟩
    · rcases h'.longest i s h.isPrefix h.mem with hlt' | ⟨rfl, heq⟩
      · omega
      · omega
    · exact ⟨rfl, heq.symm⟩
  have hfront := List.prefix_of_prefix_length_le h.isPrefix h'.isPrefix (Nat.le_of_eq hlen.2)
  exact ⟨hlen.1, hfront.eq_of_length hlen.2⟩

/-- Characters of a class at the front of a text are no more than it has. -/
theorem length_le_takeWhile {p : Char → Bool} {u : List Char} (hu : u <+: text)
    (hall : ∀ c ∈ u, p c = true) : u.length ≤ (text.takeWhile p).length := by
  obtain ⟨rest, rfl⟩ := hu
  rw [List.takeWhile_append_of_pos hall, List.length_append]
  exact Nat.le_add_right _ _

/-! ### Strings and references -/

/-- What follows an opening quote is its end, or starts with another
character, or with two quotes. -/
theorem mem_afterQuote {s : List Char} {q : Char} {closed : Bool} :
    s ∈ afterQuote q closed ↔ s = (if closed then [q] else [])
      ∨ (∃ c t, c ≠ q ∧ t ∈ afterQuote q closed ∧ s = c :: t)
      ∨ ∃ t ∈ afterQuote q closed, s = q :: q :: t := by
  cases closed with
  | false => exact mem_inQuotes
  | true =>
    -- The closing quote is kept at the end of what follows.
    simp only [afterQuote, mem_mul_singleton, if_true]
    constructor
    · rintro ⟨t, ht, rfl⟩
      rcases mem_inQuotes.mp ht with rfl | ⟨c, u, hc, hu, rfl⟩ | ⟨u, hu, rfl⟩
      · exact .inl rfl
      · exact .inr (.inl ⟨c, u ++ [q], hc, ⟨u, hu, rfl⟩, rfl⟩)
      · exact .inr (.inr ⟨u ++ [q], ⟨u, hu, rfl⟩, rfl⟩)
    · rintro (rfl | ⟨c, _, hc, ⟨t, ht, rfl⟩, rfl⟩ | ⟨_, ⟨t, ht, rfl⟩, rfl⟩)
      · exact ⟨[], mem_inQuotes.mpr (.inl rfl), rfl⟩
      · exact ⟨c :: t, mem_inQuotes.mpr (.inr (.inl ⟨c, t, hc, ht, rfl⟩)), rfl⟩
      · exact ⟨q :: q :: t, mem_inQuotes.mpr (.inr (.inr ⟨t, ht, rfl⟩)), rfl⟩

/-- A character that is not the quote stands for itself. -/
theorem Longest.cons_afterQuote {q : Char} {text s : List Char} {closed : Bool}
    (h : Longest (afterQuote q) text closed s) {c : Char} (hc : c ≠ q) :
    Longest (afterQuote q) (c :: text) closed (c :: s) where
  isPrefix := (List.prefix_cons_inj c).mpr h.isPrefix
  mem := mem_afterQuote.mpr (.inr (.inl ⟨c, s, hc, h.mem, rfl⟩))
  longest := by
    intro closed' u hu hmem
    rcases mem_afterQuote.mp hmem with rfl | ⟨d, t, _, ht, rfl⟩ | ⟨t, _, rfl⟩
    · cases closed' with
      | false => exact .inl (Nat.zero_lt_succ _)
      | true => exact absurd (List.cons_prefix_cons.mp hu).1.symm hc
    · obtain ⟨rfl, hu'⟩ := List.cons_prefix_cons.mp hu
      exact (h.longest closed' t hu' ht).imp Nat.succ_lt_succ (And.imp_right (congrArg Nat.succ))
    · exact absurd (List.cons_prefix_cons.mp hu).1.symm hc

/-- Two quotes in a row close nothing. -/
theorem Longest.doubled_afterQuote {q : Char} {text s : List Char} {closed : Bool}
    (h : Longest (afterQuote q) text closed s) :
    Longest (afterQuote q) (q :: q :: text) closed (q :: q :: s) where
  isPrefix := (List.prefix_cons_inj q).mpr ((List.prefix_cons_inj q).mpr h.isPrefix)
  mem := mem_afterQuote.mpr (.inr (.inr ⟨s, h.mem, rfl⟩))
  longest := by
    intro closed' u hu hmem
    rcases mem_afterQuote.mp hmem with rfl | ⟨d, t, hd, _, rfl⟩ | ⟨t, ht, rfl⟩
    · refine .inl ?_
      cases closed' with
      | false => exact Nat.zero_lt_succ _
      | true => exact Nat.succ_lt_succ (Nat.zero_lt_succ _)
    · exact absurd (List.cons_prefix_cons.mp hu).1 hd
    · have hu' := (List.cons_prefix_cons.mp (List.cons_prefix_cons.mp hu).2).2
      refine (h.longest closed' t hu' ht).imp (fun hlt => ?_) (And.imp_right fun heq => ?_)
      · exact Nat.succ_lt_succ (Nat.succ_lt_succ hlt)
      · exact congrArg (· + 2) heq

/-- A quote that is not followed by another one closes the string. -/
theorem longest_afterQuote_closing {q : Char} {text : List Char} (h : text.head? ≠ some q) :
    Longest (afterQuote q) (q :: text) true [q] where
  isPrefix := ⟨text, rfl⟩
  mem := mem_afterQuote.mpr (.inl rfl)
  longest := by
    intro closed u hu hmem
    rcases mem_afterQuote.mp hmem with rfl | ⟨d, t, hd, _, rfl⟩ | ⟨t, _, rfl⟩
    · cases closed with
      | false => exact .inl (Nat.zero_lt_succ _)
      | true => exact .inr ⟨rfl, rfl⟩
    · exact absurd (List.cons_prefix_cons.mp hu).1 hd
    · obtain ⟨rest, hrest⟩ := (List.cons_prefix_cons.mp hu).2
      exact absurd (hrest ▸ rfl) h

/-- Where the text ends after an opening quote, the string is not closed. -/
theorem longest_afterQuote_nil (q : Char) : Longest (afterQuote q) [] false [] where
  isPrefix := List.prefix_rfl
  mem := mem_afterQuote.mpr (.inl rfl)
  longest := by
    intro closed u hu hmem
    rw [List.prefix_nil.mp hu] at hmem ⊢
    rcases mem_afterQuote.mp hmem with h | ⟨_, _, _, _, h⟩ | ⟨_, _, h⟩
    · cases closed with
      | false => exact .inr ⟨rfl, rfl⟩
      | true => cases h
    · cases h
    · cases h

/-- A quoted string is the longest that its opening quote can have. -/
theorem longest_splitQuoted (q : Char) (s : List Char) :
    Longest (afterQuote q) s (splitQuoted q s).2.1 (splitQuoted q s).1 := by
  fun_induction splitQuoted q s with
  | case1 => exact longest_afterQuote_nil q
  | case2 c =>
    by_cases hc : c = q
    · subst hc
      rw [beq_self_eq_true]
      exact longest_afterQuote_closing (fun h => (by cases h))
    · rw [beq_false_of_ne hc]
      exact (longest_afterQuote_nil q).cons_afterQuote hc
  | case3 rest taken closed left hsplit ih =>
    rw [hsplit] at ih
    exact ih.doubled_afterQuote
  | case4 d rest hd => exact longest_afterQuote_closing (fun h => hd (Option.some.inj h))
  | case5 c d rest hc taken closed left hsplit ih =>
    rw [hsplit] at ih
    exact ih.cons_afterQuote hc

/-- A reference is the longest that its `<` can have. -/
theorem longest_cutReference (rest : List Char) : ∃ closed s,
    (cutReference rest).kind = .reference closed ∧ (cutReference rest).text = '<' :: s
      ∧ Longest afterAngle rest closed s := by
  have hopen : ∀ {t u : List Char}, t <+: rest → u ∈ afterAngle false → u <+: t →
      u.length ≤ (rest.takeWhile (· != '>')).length := fun ht hu hfront =>
    length_le_takeWhile (hfront.trans ht) (mem_star_oneOf.mp hu)
  unfold cutReference
  cases hleft : rest.dropWhile (· != '>') with
  | nil =>
    have hall := List.dropWhile_eq_nil_iff.mp hleft
    refine ⟨false, rest, rfl, rfl, List.prefix_rfl, mem_star_oneOf.mpr hall, ?_⟩
    intro closed u hu hmem
    cases closed with
    | false => exact (Nat.lt_or_eq_of_le hu.length_le).imp id (⟨rfl, ·⟩)
    | true =>
      -- There is nothing to close it.
      obtain ⟨t, _, rfl⟩ := mem_mul_singleton.mp hmem
      have hclose := hall _ (hu.subset (List.mem_append_right t (List.mem_singleton_self '>')))
      exact absurd hclose (by decide)
  | cons close left =>
    have hsplit := List.takeWhile_append_dropWhile (p := (· != '>')) (l := rest)
    have hclose : close = '>' := by
      have hnot := List.head_dropWhile_not (· != '>') (l := rest) (hleft ▸ List.cons_ne_nil _ _)
      simpa [hleft] using hnot
    rw [hleft, hclose] at hsplit
    rw [hclose]
    have hstays : rest.takeWhile (· != '>') ∈ (oneOf (· != '>'))∗ :=
      mem_star_oneOf.mpr fun c hc => List.mem_takeWhile_imp (p := (· != '>')) hc
    refine ⟨true, _, rfl, rfl, ⟨left, ?_⟩, mem_mul_singleton.mpr ⟨_, hstays, rfl⟩, ?_⟩
    · rw [List.append_assoc]
      exact hsplit
    · intro closed u hu hmem
      rw [List.length_append, List.length_singleton]
      cases closed with
      | false => exact .inl (Nat.lt_succ_of_le (hopen hu hmem List.prefix_rfl))
      | true =>
        obtain ⟨t, ht, rfl⟩ := mem_mul_singleton.mp hmem
        have hle := hopen hu ht (List.prefix_append t _)
        rw [List.length_append, List.length_singleton]
        exact (Nat.lt_or_eq_of_le hle).imp Nat.succ_lt_succ (⟨rfl, congrArg Nat.succ ·⟩)

/-! ### Lexemes -/

/-- What a piece that starts with a character can be, as far as this
character tells. -/
def leadOf (c : Char) : Option LexemeKind :=
  if isBlank c then none
  else if isWordChar c then some .word
  else if c = '\'' then some (.quoted .single false)
  else if c = '"' then some (.quoted .double false)
  else if c = '<' then some (.reference false)
  else some .special

/-- A piece, as far as its first character tells. -/
def leadKind : Option LexemeKind → Option LexemeKind
  | some .comment => some .special
  | some (.quoted q _) => some (.quoted q false)
  | some (.reference _) => some (.reference false)
  | kind => kind

/-- A code point in some ranges is in one of them. -/
theorem exists_range_of_inRanges {ranges : CodeRanges} {n : Nat} (h : inRanges ranges n = true) :
    ∃ r ∈ ranges, r.1 ≤ n ∧ n ≤ r.2 := by
  induction ranges with
  | nil => cases h
  | cons r rest ih =>
    obtain ⟨lo, hi⟩ := r
    rw [inRanges] at h
    split at h
    · cases h
    · split at h
      · next hlo hhi => exact ⟨(lo, hi), List.mem_cons_self, Nat.le_of_not_lt hlo, hhi⟩
      · obtain ⟨r, hr, hn⟩ := ih h
        exact ⟨r, List.mem_cons_of_mem _ hr, hn⟩

/-- Blank characters are in no words. -/
theorem isWordChar_of_isBlank {c : Char} (h : isBlank c = true) : isWordChar c = false := by
  have hall : ∀ r ∈ blankRanges, ∀ n ∈ List.range' r.1 (r.2 + 1 - r.1),
      isWordChar (Char.ofNat n) = false := by decide +kernel
  obtain ⟨r, hr, hlo, hhi⟩ := exists_range_of_inRanges h
  have hword := hall r hr c.toNat (List.mem_range'_1.mpr (by omega))
  rwa [Char.ofNat_toNat] at hword

/-- A text of a pattern starts with a character that leads to patterns like
this one. -/
theorem leadKind_of_pattern {kind : Option LexemeKind} {u : List Char} (h : u ∈ pattern kind) :
    ∃ c t, u = c :: t ∧ leadKind kind = leadOf c := by
  match kind with
  | none =>
    obtain ⟨c, t, hc, _, rfl⟩ := mem_oneOf_mul.mp h
    exact ⟨c, t, rfl, (if_pos hc).symm⟩
  | some .word =>
    obtain ⟨c, t, hc, _, rfl⟩ := mem_oneOf_mul.mp h
    have hblank : isBlank c = false := by
      rw [← Bool.not_eq_true]
      intro hblank
      rw [isWordChar_of_isBlank hblank] at hc
      cases hc
    refine ⟨c, t, rfl, ?_⟩
    rw [leadOf, hblank, hc]
    rfl
  | some .comment =>
    -- A slash leads to comments as to special characters: the next character decides.
    obtain ⟨t, _, rfl⟩ := mem_singleton_mul.mp h
    exact ⟨'/', '/' :: t, rfl, show some .special = leadOf '/' by decide⟩
  | some (.quoted q closed) =>
    obtain ⟨t, _, rfl⟩ := mem_singleton_mul.mp h
    exact ⟨q.char, t, rfl, show some (.quoted q false) = leadOf q.char by cases q <;> decide⟩
  | some (.reference closed) =>
    obtain ⟨t, _, rfl⟩ := mem_singleton_mul.mp h
    exact ⟨'<', t, rfl, show some (.reference false) = leadOf '<' by decide⟩
  | some .special =>
    obtain ⟨c, hc, rfl⟩ := h
    refine ⟨c, [], rfl, ?_⟩
    simp only [isSpecial, Bool.and_eq_true, Bool.not_eq_true', bne_iff_ne] at hc
    simp [leadOf, leadKind, hc]

section

variable {c : Char} {rest : List Char}

/-- Only pieces that can start with the first character have to be compared. -/
theorem longest_of_lead {kind : Option LexemeKind} (hfront : s <+: rest)
    (hmem : c :: s ∈ pattern kind)
    (h : ∀ kind' u, u <+: rest → c :: u ∈ pattern kind' → leadKind kind' = leadOf c →
      u.length < s.length ∨ kind' = kind ∧ u.length = s.length) :
    Longest pattern (c :: rest) kind (c :: s) where
  isPrefix := (List.prefix_cons_inj c).mpr hfront
  mem := hmem
  longest := by
    intro kind' u hu hmem'
    obtain ⟨d, t, rfl, hlead⟩ := leadKind_of_pattern hmem'
    obtain ⟨rfl, ht⟩ := List.cons_prefix_cons.mp hu
    exact (h kind' t ht hmem' hlead).imp Nat.succ_lt_succ (And.imp_right (congrArg Nat.succ))

/-- A run of characters of a class goes as far as they do. -/
theorem longest_run {p : Char → Bool} {kind : Option LexemeKind}
    (hpattern : pattern kind = oneOf p * (oneOf p)∗) (hc : p c = true)
    (hlead : ∀ kind', leadKind kind' = leadOf c → kind' = kind) :
    Longest pattern (c :: rest) kind (c :: rest.takeWhile p) := by
  refine longest_of_lead (List.takeWhile_prefix p) ?_ fun kind' u hu hmem hkind => ?_
  · rw [hpattern]
    refine mem_oneOf_mul.mpr ⟨c, _, hc, mem_star_oneOf.mpr ?_, rfl⟩
    exact fun d hd => List.mem_takeWhile_imp hd
  · obtain rfl := hlead kind' hkind
    rw [hpattern] at hmem
    obtain ⟨_, t, _, hu', heq⟩ := mem_oneOf_mul.mp hmem
    obtain ⟨rfl, rfl⟩ := List.cons.inj heq
    have hle := length_le_takeWhile hu (mem_star_oneOf.mp hu')
    exact (Nat.lt_or_eq_of_le hle).imp id (⟨rfl, ·⟩)

/-- A piece that is closed or not, and is the longest after its first
character. -/
theorem longest_closable {L : Bool → Language Char} (kind : Bool → LexemeKind) {closed : Bool}
    (hpattern : ∀ b, pattern (some (kind b)) = {[c]} * L b) (h : Longest L rest closed s)
    (hlead : ∀ kind', leadKind kind' = leadOf c → ∃ b, kind' = some (kind b)) :
    Longest pattern (c :: rest) (some (kind closed)) (c :: s) := by
  refine longest_of_lead h.isPrefix ?_ fun kind' u hu hmem hkind => ?_
  · rw [hpattern]
    exact mem_singleton_mul.mpr ⟨s, h.mem, rfl⟩
  · obtain ⟨b, rfl⟩ := hlead kind' hkind
    rw [hpattern] at hmem
    obtain ⟨t, ht, heq⟩ := mem_singleton_mul.mp hmem
    obtain rfl : u = t := (List.cons.inj heq).2
    exact (h.longest b u hu ht).imp id (And.imp_left (congrArg (some ∘ kind)))

/-- White space is matched as far as it goes. -/
theorem longest_blank (hc : isBlank c = true) (rest : List Char) :
    Longest pattern (c :: rest) none (c :: rest.takeWhile isBlank) := by
  refine longest_run rfl hc fun kind hkind => ?_
  rw [leadOf, if_pos hc] at hkind
  rcases kind with _ | (_ | _ | _ | _ | _)
  · rfl
  all_goals cases hkind

/-- The lexeme at the front of a text is the longest match. -/
theorem longest_cutLexeme (hblank : isBlank c = false) (rest : List Char) :
    Longest pattern (c :: rest) (some (cutLexeme c rest).kind) (cutLexeme c rest).text := by
  have hlead : leadOf c = _ := if_neg (Bool.eq_false_iff.mp hblank)
  unfold cutLexeme
  split
  · next hc =>
    refine longest_run rfl hc fun kind hkind => ?_
    rw [hlead, if_pos hc] at hkind
    rcases kind with _ | (_ | _ | _ | _ | _) <;> first | rfl | cases hkind
  next hword =>
  rw [if_neg hword] at hlead
  have hquote : ∀ q : Quote, c = q.char → leadOf c = some (.quoted q false) →
      Longest pattern (c :: rest) (some (cutQuoted q rest).kind) (cutQuoted q rest).text := by
    rintro q rfl hquote
    refine longest_closable (.quoted q) (fun b => rfl) (longest_splitQuoted q.char rest)
      fun kind hkind => ?_
    rw [hquote] at hkind
    rcases kind with _ | (_ | _ | ⟨q', b⟩ | _ | _) <;> cases hkind
    exact ⟨b, rfl⟩
  split
  · next hc => exact hquote .single hc (by rw [hlead, if_pos hc])
  next hsingle =>
  rw [if_neg hsingle] at hlead
  split
  · next hc => exact hquote .double hc (by rw [hlead, if_pos hc])
  next hdouble =>
  rw [if_neg hdouble] at hlead
  split
  · next hc =>
    subst hc
    obtain ⟨closed, s, hkind, htext, hlongest⟩ := longest_cutReference rest
    rw [hkind, htext]
    refine longest_closable .reference (fun b => rfl) hlongest fun kind hkind => ?_
    rw [hlead, if_pos rfl] at hkind
    rcases kind with _ | (_ | _ | _ | b | _) <;> cases hkind
    exact ⟨b, rfl⟩
  next hangle =>
  rw [if_neg hangle] at hlead
  -- A comment or a single character can start in this way, the latter with any rest.
  have hkinds : ∀ kind, leadKind kind = leadOf c → kind = some .comment ∨ kind = some .special := by
    intro kind hkind
    rw [hlead] at hkind
    rcases kind with _ | (_ | _ | _ | _ | _) <;>
      first | exact .inl rfl | exact .inr rfl | cases hkind
  have hspecial : isSpecial c = true := by
    simp [isSpecial, hblank, hword, hsingle, hdouble, hangle]
  split
  · next hslash =>
    obtain ⟨rfl, hhead⟩ := hslash
    obtain ⟨rest, rfl⟩ := List.head?_eq_some_iff.mp hhead
    have htake : ('/' :: rest).takeWhile staysOnLine = '/' :: rest.takeWhile staysOnLine :=
      List.takeWhile_cons_of_pos rfl
    rw [htake]
    refine longest_of_lead ((List.prefix_cons_inj _).mpr (List.takeWhile_prefix _)) ?_
      fun kind u hu hmem hkind => ?_
    · refine mem_singleton_mul.mpr ⟨_, mem_star_oneOf.mpr ?_, rfl⟩
      exact fun d hd => List.mem_takeWhile_imp hd
    · rcases hkinds kind hkind with rfl | rfl
      · obtain ⟨t, ht, heq⟩ := mem_singleton_mul.mp hmem
        obtain rfl : u = '/' :: t := (List.cons.inj heq).2
        have hle := length_le_takeWhile (List.cons_prefix_cons.mp hu).2 (mem_star_oneOf.mp ht)
        exact (Nat.lt_or_eq_of_le hle).imp Nat.succ_lt_succ (⟨rfl, congrArg Nat.succ ·⟩)
      · obtain ⟨d, _, heq⟩ := hmem
        obtain rfl : u = [] := (List.cons.inj heq).2
        exact .inl (Nat.zero_lt_succ _)
  · next hslash =>
    refine longest_of_lead (List.nil_prefix) ⟨c, hspecial, rfl⟩ fun kind u hu hmem hkind => ?_
    rcases hkinds kind hkind with rfl | rfl
    · obtain ⟨t, _, heq⟩ := mem_singleton_mul.mp hmem
      obtain ⟨rfl, rfl⟩ := List.cons.inj heq
      obtain ⟨left, rfl⟩ := hu
      exact absurd ⟨rfl, rfl⟩ hslash
    · obtain ⟨d, _, heq⟩ := hmem
      obtain rfl : u = [] := (List.cons.inj heq).2
      exact .inr ⟨rfl, rfl⟩

end

/-! ### All lexemes -/

/-- A text of which pieces are cut off one after another, always the longest
match. The blank ones are dropped. -/
inductive LongestMatches : Nat → List Char → List Lexeme → Prop
  | nil {offset : Nat} : LongestMatches offset [] []
  | blank {offset : Nat} {s rest : List Char} {ls : List Lexeme}
      (longest : Longest pattern (s ++ rest) none s)
      (others : LongestMatches (offset + byteLen s) rest ls) :
      LongestMatches offset (s ++ rest) ls
  | lexeme {offset : Nat} {kind : LexemeKind} {s rest : List Char} {ls : List Lexeme}
      (longest : Longest pattern (s ++ rest) (some kind) s)
      (others : LongestMatches (offset + byteLen s) rest ls) :
      LongestMatches offset (s ++ rest) (⟨kind, s, offset, offset + byteLen s⟩ :: ls)

/-- Blank characters are passed over one by one, which is the same as all
together. -/
theorem lexFrom_blank_append {s : List Char} (hs : ∀ c ∈ s, isBlank c = true) (offset : Nat)
    (rest : List Char) : lexFrom offset (s ++ rest) = lexFrom (offset + byteLen s) rest := by
  induction s generalizing offset with
  | nil => rfl
  | cons c s ih =>
    obtain ⟨hc, hs⟩ := List.forall_mem_cons.mp hs
    rw [List.cons_append, lexFrom, if_pos hc, ih hs, Nat.add_assoc]
    rfl

/-- The lexer takes the longest match each time. Induction along its
recursion: each round cuts off white space or a lexeme. -/
theorem longestMatches_lexFrom (offset : Nat) (text : List Char) :
    LongestMatches offset text (lexFrom offset text) := by
  induction hn : text.length using Nat.strongRecOn generalizing offset text with
  | ind n ih =>
    cases text with
    | nil =>
      rw [lexFrom]
      exact .nil
    | cons c rest =>
      subst hn
      cases hblank : isBlank c with
      | true =>
        -- All blank characters at the front are one piece.
        have hsplit : c :: rest = (c :: rest.takeWhile isBlank) ++ rest.dropWhile isBlank := by
          rw [List.cons_append, List.takeWhile_append_dropWhile]
        have hall : ∀ d ∈ c :: rest.takeWhile isBlank, isBlank d = true :=
          List.forall_mem_cons.mpr ⟨hblank, fun d hd => List.mem_takeWhile_imp hd⟩
        have hlongest := longest_blank hblank rest
        have hshorter : (rest.dropWhile isBlank).length < (c :: rest).length :=
          Nat.lt_succ_of_le (List.dropWhile_suffix _).length_le
        rw [hsplit] at hlongest ⊢
        rw [lexFrom_blank_append hall]
        exact .blank hlongest (ih _ hshorter _ _ rfl)
      | false =>
        have hlongest := longest_cutLexeme hblank rest
        have hshorter := cutLexeme_rest_length c rest
        rw [lexFrom_cons hblank]
        rw [← cutLexeme_append c rest] at hlongest ⊢
        exact .lexeme hlongest (ih _ hshorter _ _ rfl)

/-- The lexemes of a text are the longest matches of the patterns. -/
theorem longestMatches_iff {offset : Nat} {text : List Char} {ls : List Lexeme} :
    LongestMatches offset text ls ↔ lexFrom offset text = ls := by
  constructor
  · intro h
    induction h with
    | nil => rw [lexFrom]
    | blank longest _ ih =>
      obtain ⟨c, t, hc, ht, rfl⟩ := mem_oneOf_mul.mp longest.mem
      rw [lexFrom_blank_append (List.forall_mem_cons.mpr ⟨hc, mem_star_oneOf.mp ht⟩), ih]
    | @lexeme offset kind s rest ls longest _ ih =>
      obtain ⟨c, t, rfl, hlead⟩ := leadKind_of_pattern longest.mem
      -- It is the piece that is cut off, since there is only one longest match.
      have hblank : isBlank c = false := by
        rw [← Bool.not_eq_true]
        intro hblank
        rw [leadOf, if_pos hblank] at hlead
        cases kind <;> cases hlead
      obtain ⟨hkind, htext⟩ := (longest_cutLexeme hblank (t ++ rest)).unique longest
      have happend := cutLexeme_append c (t ++ rest)
      rw [htext] at happend
      rw [List.cons_append, lexFrom_cons hblank, htext, Option.some.inj hkind,
        List.append_cancel_left happend, ih]
  · rintro rfl
    exact longestMatches_lexFrom offset text

end ConceptScript.Script

import ConceptScript.Script.Reading

/-!
# `ConceptScript.Proofs.Script.Reads`: what a reading accepts

`Reader.Reads r w r'` says that a reader gets from `r` to `r'` by reading
exactly the tokens `w`. The elementary steps of a reader are turned into
statements about it once, here, and are not unfolded elsewhere:
`tryRead_eq_some_iff` and `tryReadKeyword_eq_some_iff`.

A reading accepts a language `L` when it succeeds exactly on the tokens of
`L`, whatever follows them (`Reading.Accepts`). This is exact in both
directions, and it is kept by putting readings after one another, so the
language of a reading is put together from those of its parts. It says
nothing about where a reading stops that fails. For what reasons it can
fail is told by its parts, too (`Reading.FailsFor`).
-/

set_option autoImplicit false

namespace ConceptScript.Script

open ConceptScript.Text

namespace Token

/-- A word or special character is not the end of a script. -/
theorem isEnd_of_is {t : Token} {text : String} (h : t.is text = true) : t.isEnd = false := by
  unfold is at h
  unfold isEnd
  cases hk : t.kind <;> simp_all

/-- A value does not end the script. -/
theorem isEnd_of_isValue {t : Token} (h : t.kind.isValue = true) : t.isEnd = false := by
  unfold isEnd
  cases hk : t.kind <;> simp_all [TokenKind.isValue]

/-- A word does not end the script. -/
theorem isEnd_of_word {t : Token} (h : t.kind = .word) : t.isEnd = false := by
  rw [isEnd, h]
  rfl

/-- The end of a script is no special token. -/
theorem is_eq_false_of_isEnd {t : Token} (h : t.isEnd = true) (text : String) :
    t.is text = false := by
  rw [← Bool.not_eq_true]
  intro his
  rw [isEnd_of_is his] at h
  cases h

/-- A token is at most one word or special character. -/
theorem eq_of_is {t : Token} {text : String} (h : t.is text = true) : t.value = text := by
  unfold is at h
  rw [Bool.and_eq_true] at h
  exact eq_of_beq h.2

/-- A token is one special token only. -/
theorem is_eq_false_of_is {t : Token} {text other : String} (h : t.is text = true)
    (hne : text ≠ other) : t.is other = false := by
  rw [← Bool.not_eq_true]
  intro hother
  exact hne ((eq_of_is h).symm.trans (eq_of_is hother))

/-- A token gives a word just if it is a word with this value. -/
theorem word?_eq_some_iff {t : Token} {word : String} :
    t.word? = some word ↔ t.kind = .word ∧ t.value = word := by
  unfold word?
  split <;> simp_all

end Token

namespace Reader

/-- A reader gets from one place to another by reading certain tokens. -/
structure Reads (r : Reader) (w : List Token) (r' : Reader) : Prop where
  rest : r.rest = w ++ r'.rest
  before : r'.before = w.reverse ++ r.before

/-- A reader reads nothing to stay where it is. -/
theorem Reads.nil (r : Reader) : r.Reads [] r := ⟨rfl, rfl⟩

/-- A reader that has read nothing is where it was. -/
theorem Reads.eq_of_nil {r r' : Reader} (h : r.Reads [] r') : r = r' := by
  obtain ⟨before, rest⟩ := r
  obtain ⟨before', rest'⟩ := r'
  obtain ⟨hrest, hbefore⟩ := h
  cases hrest
  cases hbefore
  rfl

/-- Reading two stretches is reading the first and then the second. -/
theorem reads_append {r r' : Reader} {w w' : List Token} :
    r.Reads (w ++ w') r' ↔ ∃ middle, r.Reads w middle ∧ middle.Reads w' r' := by
  constructor
  · rintro ⟨hrest, hbefore⟩
    refine ⟨⟨w.reverse ++ r.before, w' ++ r'.rest⟩, ⟨?_, rfl⟩, ⟨rfl, ?_⟩⟩
    · rw [hrest, List.append_assoc]
    · rw [hbefore, List.reverse_append, List.append_assoc]
  · rintro ⟨middle, ⟨hrest, hbefore⟩, ⟨hrest', hbefore'⟩⟩
    constructor
    · rw [hrest, hrest', List.append_assoc]
    · rw [hbefore', hbefore, List.reverse_append, List.append_assoc]

/-- Where a reader gets to depends on how much it reads. -/
theorem Reads.unique {r r' r'' : Reader} {w w' : List Token} (h : r.Reads w r')
    (h' : r.Reads w' r'') (hlen : w.length = w'.length) : w = w' ∧ r' = r'' := by
  obtain ⟨hrest, hbefore⟩ := h
  obtain ⟨hrest', hbefore'⟩ := h'
  -- Both are cuts of the same tokens, after equally many.
  obtain ⟨rfl, hr⟩ := List.append_inj (hrest.symm.trans hrest') hlen
  obtain ⟨before, rest⟩ := r'
  obtain ⟨before', rest'⟩ := r''
  cases hr
  cases hbefore.trans hbefore'.symm
  exact ⟨rfl, rfl⟩

/-- A reader has read as many tokens more as were read on the way. -/
theorem Reads.position {r r' : Reader} {w : List Token} (h : r.Reads w r') :
    r'.position = w.length + r.position := by
  rw [Reader.position, h.before, List.length_append, List.length_reverse]
  rfl

/-- What leads to a later reader is reading some tokens. -/
theorem LeadsTo.exists_reads {r r' : Reader} (h : r.LeadsTo r') : ∃ w, r.Reads w r' := by
  obtain ⟨w, hrest, hbefore⟩ := h
  exact ⟨w, hrest, hbefore⟩

/-- Reading tokens moves forward. -/
theorem Reads.leadsTo {r r' : Reader} {w : List Token} (h : r.Reads w r') : r.LeadsTo r' :=
  ⟨w, h.rest, h.before⟩

/-- Moving past a token that does not end the script reads that token. -/
theorem reads_advance {r : Reader} (h : r.current.isEnd = false) :
    r.Reads [r.current] r.advance := by
  obtain ⟨before, rest⟩ := r
  cases rest with
  | nil => cases h
  | cons t rest =>
    have ht : t.isEnd = false := h
    unfold advance
    simp only [ht]
    exact ⟨rfl, rfl⟩

/-- A reader at a token that does not end the script has it ahead. -/
theorem rest_eq_cons {r : Reader} (h : r.current.isEnd = false) :
    r.rest = r.current :: r.advance.rest := (reads_advance h).rest

/-- A reader is at the first of the tokens ahead. -/
theorem current_of_rest {r : Reader} {t : Token} {rest : List Token} (h : r.rest = t :: rest) :
    r.current = t := by
  rw [current, h]
  rfl

/-- A reader is at the first of the tokens that it goes on to read. -/
theorem current_of_reads {r r' : Reader} {t : Token} {w : List Token} (h : r.Reads (t :: w) r') :
    r.current = t := current_of_rest h.rest

/-- One token that does not end the script is read by moving past it. -/
theorem reads_singleton {r r' : Reader} {t : Token} (ht : t.isEnd = false) :
    r.Reads [t] r' ↔ r.current = t ∧ r' = r.advance := by
  constructor
  · intro h
    have hcurrent := current_of_reads h
    have hadvance : r.Reads [t] r.advance := hcurrent ▸ reads_advance (hcurrent.symm ▸ ht)
    exact ⟨hcurrent, (h.unique hadvance rfl).2⟩
  · rintro ⟨rfl, rfl⟩
    exact reads_advance ht

/-- A token of a certain sort is read by looking at it and moving past it,
if the end of the script is not of that sort. -/
theorem exists_reads_singleton_iff {r r' : Reader} {P : Token → Prop}
    (hP : ∀ t, P t → t.isEnd = false) :
    (∃ t, P t ∧ r.Reads [t] r') ↔ P r.current ∧ r.advance = r' := by
  constructor
  · rintro ⟨t, ht, hreads⟩
    obtain ⟨rfl, rfl⟩ := (reads_singleton (hP t ht)).mp hreads
    exact ⟨ht, rfl⟩
  · rintro ⟨ht, rfl⟩
    exact ⟨r.current, ht, reads_advance (hP _ ht)⟩

/-- A special token that comes next is read. -/
theorem tryRead_of_is {r : Reader} {text : String} (h : r.current.is text = true) :
    r.tryRead text = some r.advance := if_pos h

/-- A special token is not read just if it does not come next. -/
theorem tryRead_eq_none_iff {r : Reader} {text : String} :
    r.tryRead text = none ↔ r.current.is text = false := by
  unfold tryRead
  cases r.current.is text <;> simp

/-- Reading a special token is reading one token that is this one. -/
theorem tryRead_eq_some_iff {r r' : Reader} {text : String} :
    r.tryRead text = some r' ↔ ∃ t, t.is text = true ∧ r.Reads [t] r' := by
  rw [exists_reads_singleton_iff fun _ his => Token.isEnd_of_is his]
  unfold tryRead
  split
  · next his => simp [his]
  · next his => simp [his]

/-- Reading a keyword is reading one word that is the keyword up to the case
of ASCII letters. -/
theorem tryReadKeyword_eq_some_iff {r r' : Reader} {keyword : String} :
    r.tryReadKeyword keyword = some r' ↔
      ∃ t, (t.kind = .word ∧ sameIgnoringAsciiCase t.value keyword = true)
        ∧ r.Reads [t] r' := by
  rw [exists_reads_singleton_iff fun _ his => Token.isEnd_of_word his.1]
  unfold tryReadKeyword
  split
  · next his => simp [his]
  · next his => simp [his]

/-- Reading a text is reading one token that is a value. -/
theorem readText_eq_ok_iff {r r' : Reader} {t : Token} :
    r.readText = (.ok t, r') ↔ t.kind.isValue = true ∧ r.Reads [t] r' := by
  unfold readText
  constructor
  · intro h
    split at h
    · next his =>
      cases h
      exact ⟨his, reads_advance (Token.isEnd_of_isValue his)⟩
    · cases h
  · rintro ⟨his, hreads⟩
    obtain ⟨rfl, rfl⟩ := (reads_singleton (Token.isEnd_of_isValue his)).mp hreads
    rw [if_pos his]

end Reader

namespace Reading

/-- A reading that succeeds exactly on the tokens of a language, with the
values it gives to them. -/
def Accepts {α : Type} (p : Reading α) (L : List Token → α → Prop) : Prop :=
  ∀ r a r', p r = (.ok a, r') ↔ ∃ w, L w a ∧ r.Reads w r'

variable {α β : Type}

/-- Reading nothing accepts the empty list of tokens, and gives its value. -/
theorem accepts_pure (a : α) : Accepts (pure a : Reading α) (fun w b => w = [] ∧ b = a) := by
  intro r b r'
  constructor
  · intro h
    cases h
    exact ⟨[], ⟨rfl, rfl⟩, .nil r⟩
  · rintro ⟨w, ⟨rfl, rfl⟩, hreads⟩
    cases hreads.eq_of_nil
    rfl

/-- A failure accepts nothing. -/
theorem accepts_fail (why : Mismatch) :
    Accepts (fail why : Reading α) (fun _ _ => False) := by
  intro r b r'
  constructor
  · intro h
    cases h
  · rintro ⟨w, h, _⟩
    exact h.elim

/-- Reading a text accepts one value. -/
theorem accepts_textToken :
    Accepts textToken (fun w t => w = [t] ∧ t.kind.isValue = true) := by
  intro r t r'
  rw [textToken, Reader.readText_eq_ok_iff]
  constructor
  · rintro ⟨his, hreads⟩
    exact ⟨[t], ⟨rfl, his⟩, hreads⟩
  · rintro ⟨w, ⟨rfl, his⟩, hreads⟩
    exact ⟨his, hreads⟩

/-- Reading a dot accepts a dot. -/
theorem accepts_dot (why : Mismatch) :
    Accepts (dot why) (fun w _ => ∃ t, w = [t] ∧ t.is "." = true) := by
  intro r a r'
  unfold dot
  constructor
  · intro h
    split at h
    · next r'' hread =>
      cases h
      obtain ⟨t, his, hreads⟩ := Reader.tryRead_eq_some_iff.mp hread
      exact ⟨[t], ⟨t, rfl, his⟩, hreads⟩
    · cases h
  · rintro ⟨w, ⟨t, rfl, his⟩, hreads⟩
    rw [Reader.tryRead_eq_some_iff.mpr ⟨t, his, hreads⟩]

/-- Two readings one after the other accept tokens of the one and then tokens
of the other. The second language may depend on the first value. -/
theorem Accepts.bind {p : Reading α} {q : α → Reading β} {L : List Token → α → Prop}
    {L' : α → List Token → β → Prop} (hp : Accepts p L) (hq : ∀ a, Accepts (q a) (L' a)) :
    Accepts (p >>= q) (fun w b => ∃ u a v, w = u ++ v ∧ L u a ∧ L' a v b) := by
  intro r b r'
  show andThen p q r = _ ↔ _
  unfold andThen
  constructor
  · intro h
    split at h
    · next a middle hfirst =>
      obtain ⟨u, hu, hread⟩ := (hp r a middle).mp hfirst
      obtain ⟨v, hv, hread'⟩ := (hq a middle b r').mp h
      exact ⟨u ++ v, ⟨u, a, v, rfl, hu, hv⟩, Reader.reads_append.mpr ⟨middle, hread, hread'⟩⟩
    · cases h
  · rintro ⟨w, ⟨u, a, v, rfl, hu, hv⟩, hreads⟩
    obtain ⟨middle, hread, hread'⟩ := Reader.reads_append.mp hreads
    rw [(hp r a middle).mpr ⟨u, hu, hread⟩]
    exact (hq a middle b r').mpr ⟨v, hv, hread'⟩

/-- A language may be described in another way. -/
theorem Accepts.congr {p : Reading α} {L L' : List Token → α → Prop} (h : Accepts p L)
    (hL : ∀ w a, L w a ↔ L' w a) : Accepts p L' := by
  intro r a r'
  rw [h r a r']
  exact exists_congr fun w => and_congr_left fun _ => hL w a

/-- A reading that fails for certain reasons only. -/
def FailsFor (P : Mismatch → Prop) (p : Reading α) : Prop := ∀ r why, (p r).1 = .error why → P why

variable {P : Mismatch → Prop}

/-- Reading nothing does not fail. -/
theorem failsFor_pure (a : α) : FailsFor P (pure a : Reading α) := fun _ _ h => (by cases h)

/-- A failure fails for its reason. -/
theorem failsFor_fail {why : Mismatch} (h : P why) : FailsFor P (fail why : Reading α) := by
  intro r why' hfail
  cases hfail
  exact h

/-- Reading a text fails only because there is none. -/
theorem failsFor_textToken (h : ∀ t, P (.expectedText t)) : FailsFor P textToken := by
  intro r why hfail
  change (r.readText).1 = _ at hfail
  unfold Reader.readText at hfail
  split at hfail
  · cases hfail
  · cases hfail
    exact h _

/-- Reading a dot fails only for the reason it is given. -/
theorem failsFor_dot {why : Mismatch} (h : P why) : FailsFor P (dot why) := by
  intro r why' hfail
  unfold dot at hfail
  split at hfail
  · cases hfail
  · cases hfail
    exact h

/-- Two readings one after the other fail for the reasons of the two. -/
theorem FailsFor.bind {p : Reading α} {q : α → Reading β} (hp : FailsFor P p)
    (hq : ∀ a, FailsFor P (q a)) : FailsFor P (p >>= q) := by
  intro r why hfail
  change (andThen p q r).1 = _ at hfail
  unfold andThen at hfail
  split at hfail
  · next a r' _ => exact hq a r' why hfail
  · next why' r' hfirst =>
    cases hfail
    exact hp r why (by rw [hfirst])

end Reading

end ConceptScript.Script

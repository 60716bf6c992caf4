import ConceptScript.Text.Lowercase
import ConceptScript.Script.Fault

/-!
# `ConceptScript.Script.Reader`: a place in a stream of tokens

A reader holds the tokens already read, the latest first, and those still
to come. Reading never moves past the end of the script. Reading on is
done on values, so several interpretations can start from one reader.
-/

set_option autoImplicit false

namespace ConceptScript.Script

open ConceptScript.Text

/-- A place between tokens: those before it, latest first, and those
after it. -/
structure Reader where
  before : List Token
  rest : List Token
  deriving DecidableEq, Repr

namespace Reader

/-- A reader at the first of some tokens. -/
def ofTokens (tokens : List Token) : Reader := ⟨[], tokens⟩

/-- The number of tokens read, which is the index of the next one. -/
def position (r : Reader) : Nat := r.before.length

/-- The next token. Past all tokens it is an end of script. -/
def current (r : Reader) : Token := r.rest.headD (.endAt 0)

/-- Whether the next token is the end of the script. -/
def atEnd (r : Reader) : Bool := r.current.isEnd

/-- The token read last. -/
def last? (r : Reader) : Option Token := r.before.head?

/-- All tokens, in order. -/
def tokens (r : Reader) : List Token := r.before.reverse ++ r.rest

/-- Moves past the next token, unless that ends the script. -/
def advance (r : Reader) : Reader :=
  match r.rest with
  | [] => r
  | t :: rest => if t.isEnd then r else ⟨t :: r.before, rest⟩

/-- Reads a word, a quoted string or an external text. -/
def readText (r : Reader) : Except Mismatch Token × Reader :=
  if r.current.kind.isValue then (.ok r.current, r.advance)
  else (.error (.expectedText r.current), r)

/-- Reads the given word or special character, if it comes next. -/
def tryRead (r : Reader) (text : String) : Option Reader :=
  if r.current.is text then some r.advance else none

/-- Reads a word equal to a keyword up to ASCII case, if it comes next. -/
def tryReadKeyword (r : Reader) (keyword : String) : Option Reader :=
  if r.current.kind = .word ∧ sameIgnoringAsciiCase r.current.value keyword then some r.advance
  else none

/-- A reader comes after another on the same tokens: what was read in
between is a stretch at the front of what was to come. -/
def LeadsTo (r r' : Reader) : Prop :=
  ∃ read, r.rest = read ++ r'.rest ∧ r'.before = read.reverse ++ r.before

/-- A reader leads to itself: nothing is read in between. -/
theorem LeadsTo.refl (r : Reader) : r.LeadsTo r := ⟨[], by simp⟩

/-- What is read on the way to a second reader and on from there is read on
the way to the third. -/
theorem LeadsTo.trans {r r' r'' : Reader} (h : r.LeadsTo r') (h' : r'.LeadsTo r'') :
    r.LeadsTo r'' := by
  obtain ⟨read, hrest, hbefore⟩ := h
  obtain ⟨read', hrest', hbefore'⟩ := h'
  exact ⟨read ++ read', by simp [hrest, hrest'], by simp [hbefore, hbefore']⟩

/-- A reader that moved on has no more tokens ahead than before. -/
theorem LeadsTo.rest_length_le {r r' : Reader} (h : r.LeadsTo r') :
    r'.rest.length ≤ r.rest.length := by
  obtain ⟨read, hrest, _⟩ := h
  simp [hrest]

/-- Going on by one token leads to the next place, or stays at the end of the
script. -/
theorem leadsTo_advance (r : Reader) : r.LeadsTo r.advance := by
  unfold advance
  split
  · exact .refl r
  · next t rest h =>
    split
    · exact .refl r
    · exact ⟨[t], by simp [h]⟩

/-- Reading anything but the end of the script leaves fewer tokens. -/
theorem advance_rest_length_lt {r : Reader} (h : r.atEnd = false) :
    r.advance.rest.length < r.rest.length := by
  unfold advance
  split
  · next hr => simp [atEnd, current, hr, Token.endAt, Token.isEnd] at h
  · next t rest hr =>
    have : t.isEnd = false := by simpa [atEnd, current, hr] using h
    simp [this, hr]

/-- Reading a text goes on by the token of the text, or stays when there is
none. -/
theorem leadsTo_readText (r : Reader) : r.LeadsTo r.readText.2 := by
  unfold readText
  split
  · exact r.leadsTo_advance
  · exact .refl r

/-- A special token that was read was the next one. -/
theorem leadsTo_of_tryRead {r r' : Reader} {text : String} (h : r.tryRead text = some r') :
    r.LeadsTo r' := by
  unfold tryRead at h
  split at h
  · cases h
    exact r.leadsTo_advance
  · cases h

/-- A special token that was read is no longer ahead. What loops over such
tokens ends for this reason. -/
theorem tryRead_rest_length_lt {r r' : Reader} {text : String} (h : r.tryRead text = some r') :
    r'.rest.length < r.rest.length := by
  unfold tryRead at h
  split at h
  · next his =>
    cases h
    apply advance_rest_length_lt
    unfold Token.is at his
    unfold atEnd Token.isEnd
    cases hk : r.current.kind <;> simp_all
  · cases h

/-- A keyword that was read is no longer ahead. -/
theorem tryReadKeyword_rest_length_lt {r r' : Reader} {keyword : String}
    (h : r.tryReadKeyword keyword = some r') : r'.rest.length < r.rest.length := by
  unfold tryReadKeyword at h
  split at h
  · next his =>
    cases h
    apply advance_rest_length_lt
    simp [atEnd, Token.isEnd, his.1]
  · cases h

end Reader

end ConceptScript.Script
